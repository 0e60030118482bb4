import MetadataIndex.ReferenceOrder
import MetadataIndex.Universe
import Std.Data.TreeSet.Lemmas

/-! Assignability of a type, seen as its open definition, to a reference. The walk keeps a stack of
references still to look at and those already looked at; a step replaces the top by its supertypes
with the generic arguments passed along. Instantiations may grow without end, so the walk takes a
limit on its steps, and an answer of `none` says that the limit came first. -/
namespace MetadataIndex
variable {φ : Type}

structure SupertypeWalk where
  pending : List TypeRef
  seen : Std.TreeSet TypeRef := ∅
  deriving Repr

namespace SupertypeWalk

inductive Step where
  | answer (assignable : Bool)
  | next (walk : SupertypeWalk)
  deriving Repr

def step (u : Universe φ) (target : TypeRef) (walk : SupertypeWalk) : Step :=
  match walk.pending with
  | [] => .answer false
  | current :: rest =>
      if current = target then .answer true
      else if walk.seen.contains current then .next ⟨rest, walk.seen⟩
      else
        match u.find? current.name with
        | none => .next ⟨rest, walk.seen.insert current⟩
        | some d =>
            .next ⟨(d.supertypesAt current.arguments).reverse ++ rest, walk.seen.insert current⟩

def run (u : Universe φ) (target : TypeRef) : (limit : Nat) → SupertypeWalk → Option Bool
  | 0, _ => none
  | limit + 1, walk =>
      match walk.step u target with
      | .answer assignable => some assignable
      | .next walk => run u target limit walk

theorem runMore {u : Universe φ} {target : TypeRef} {limit : Nat} {walk : SupertypeWalk} {answer : Bool}
    (done : walk.run u target limit = some answer) (extra : Nat) :
    walk.run u target (limit + extra) = some answer := by
  induction limit generalizing walk with
  | zero => simp [run] at done
  | succ limit ih =>
      rw [show limit + 1 + extra = (limit + extra) + 1 by omega]
      simp only [run] at done ⊢
      split at done
      · exact done
      · exact ih done

end SupertypeWalk

def Universe.assignable? (u : Universe φ) (limit : Nat) (candidate : TypeName) (target : TypeRef) :
    Option Bool :=
  match u.find? candidate with
  | none => some false
  | some d => SupertypeWalk.run u target limit ⟨[d.selfRef], ∅⟩

def Universe.Supertype (u : Universe φ) (r s : TypeRef) : Prop :=
  ∃ d, u.find? r.name = some d ∧ s ∈ d.supertypesAt r.arguments

end MetadataIndex
