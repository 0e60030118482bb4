/-! A droppable cache of snapshots. The cache keeps its latest snapshot strongly until released and
weakly after that: while a caller still holds it, it is handed out again instead of being rebuilt.
Serial numbers tell snapshots apart, and callers hold them in named slots. -/
namespace MetadataIndex

structure Snapshot (α : Type) where
  serial : Nat
  generation : Nat
  content : α
  deriving DecidableEq, Repr

structure SnapshotCache (α : Type) where
  retain : Bool
  strong : Option (Snapshot α) := none
  weak : Option (Snapshot α) := none
  held : List (String × Snapshot α) := []
  built : Nat := 0
  deriving Repr

namespace SnapshotCache
variable {α : Type}

def alive (c : SnapshotCache α) (s : Snapshot α) : Bool :=
  c.strong.any (fun t => t.serial = s.serial) ||
    c.held.any fun entry => entry.2.serial = s.serial

def peek (c : SnapshotCache α) : Option (Snapshot α) := c.weak.filter c.alive

def reuse? (c : SnapshotCache α) (generation : Nat) : Option (Snapshot α × SnapshotCache α) :=
  match c.peek with
  | none => none
  | some s =>
      if generation ≤ s.generation then
        some (s, if c.retain && c.strong.isNone then { c with strong := some s } else c)
      else none

def install (c : SnapshotCache α) (generation : Nat) (content : α) : Snapshot α × SnapshotCache α :=
  let s : Snapshot α := ⟨c.built, generation, content⟩
  (s, { c with strong := if c.retain then some s else none, weak := some s, built := c.built + 1 })

/-- The reusable snapshot, or else the one `build` makes; a failing build leaves the cache as it is.
The answer tells whether `build` ran, and `build` may change a state of its own either way. -/
def getOrBuild {ε σ : Type} (c : SnapshotCache α) (generation : Nat)
    (build : σ → Except ε (Nat × α) × σ) (state : σ) :
    Except ε (Snapshot α × Bool) × SnapshotCache α × σ :=
  match c.reuse? generation with
  | some (s, c) => (.ok (s, false), c, state)
  | none =>
      match build state with
      | (.error e, state) => (.error e, c, state)
      | (.ok (made, content), state) =>
          let (s, c) := c.install made content
          (.ok (s, true), c, state)

def release (c : SnapshotCache α) : SnapshotCache α := { c with strong := none }

def invalidate (c : SnapshotCache α) : SnapshotCache α := { c with strong := none, weak := none }

def heldIn (c : SnapshotCache α) (slot : String) : Option (Snapshot α) := c.held.lookup slot

def holders (c : SnapshotCache α) (s : Snapshot α) : List String :=
  (c.held.filter fun entry => entry.2.serial = s.serial).map Prod.fst

def drop (c : SnapshotCache α) (slot : String) : SnapshotCache α :=
  { c with held := c.held.filter (fun entry => entry.1 ≠ slot) }

def hold (c : SnapshotCache α) (slot : String) (s : Snapshot α) : SnapshotCache α :=
  let rest := c.drop slot
  { rest with held := (slot, s) :: rest.held }

end SnapshotCache
end MetadataIndex
