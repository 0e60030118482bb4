import MetadataIndex.Definition

/-! Values made from attachments and bound to their target. A value is made with a serial number,
the count of values its place has made before, and is told its target once. Whether it asks for its
target to be kept is up to what it was made from. -/
namespace MetadataIndex
variable {φ : Type}

structure Value (φ : Type := Recipe) where
  recipe : φ
  serial : Nat
  received : List (Declaration φ) := []
  deriving DecidableEq, Repr

structure Tally where
  counts : Std.TreeMap Nat Nat := ∅
  deriving Repr

structure Instance (φ : Type := Recipe) where
  type : TypeName
  target : Declaration φ
  value : Value φ
  deriving DecidableEq, Repr

namespace Tally

def count (t : Tally) (place : Nat) : Nat := t.counts.getD place 0

def record (t : Tally) (place : Nat) : Tally := ⟨t.counts.insert place (t.count place + 1)⟩

theorem countRecord (t : Tally) (place other : Nat) :
    (t.record place).count other = t.count other + if place = other then 1 else 0 := by
  simp only [count, record, Std.TreeMap.getD_insert, Std.compare_eq_iff_eq]
  split
  · next same => rw [same]
  · rfl

end Tally

class Preserving (φ : Type) where
  preserves : φ → Bool

instance : Preserving Recipe where
  preserves
    | .plain preserve => preserve
    | .route _ => true
    | .counter => false

def Value.preserve [Preserving φ] (v : Value φ) : Bool := Preserving.preserves v.recipe

def Value.receive (v : Value φ) (target : Declaration φ) : Value φ :=
  { v with received := v.received ++ [target] }

def Attachment.make (a : Attachment φ) (t : Tally) : Value φ × Tally :=
  (⟨a.recipe, t.count a.place, []⟩, t.record a.place)

namespace Instance

def bind (a : Attachment φ) (target : Declaration φ) (t : Tally) : Instance φ × Tally :=
  let (value, t) := a.make t
  (⟨a.type, target, value.receive target⟩, t)

def bindAll : List (Attachment φ × Declaration φ) → Tally → List (Instance φ) × Tally
  | [], t => ([], t)
  | (a, target) :: rest, t =>
      let (first, t) := bind a target t
      let (others, t) := bindAll rest t
      (first :: others, t)

def id (i : Instance φ) : Tag := ⟨i.type, i.target.id⟩

theorem bindReceived (a : Attachment φ) (target : Declaration φ) (t : Tally) :
    (bind a target t).1.value.received = [target] := rfl

end Instance
end MetadataIndex
