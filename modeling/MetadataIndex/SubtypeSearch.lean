import MetadataIndex.Assignability
import MetadataIndex.Error
import MetadataIndex.SubtypeGraph

/-! Transitive subtypes of a base. The search walks the whole graph and reports the direct subtypes
that one scope knows for each name it reaches, so chains through other modules are honoured. The
base itself is never reported, and a constructed base keeps only types assignable to it. -/
namespace MetadataIndex
variable {φ : Type}

structure SubtypeSearch (φ : Type := Recipe) where
  graph : SubtypeGraph
  types : Universe φ
  walkLimit : Nat

namespace SubtypeSearch

def keepAssignable (s : SubtypeSearch φ) (target : TypeRef) :
    List TypeName → Except QueryError (List TypeName)
  | [] => .ok []
  | candidate :: rest =>
      match s.types.assignable? s.walkLimit candidate target with
      | none => .error (.undecided candidate target)
      | some keep => do
          let kept ← s.keepAssignable target rest
          .ok (if keep then candidate :: kept else kept)

def candidates (s : SubtypeSearch φ) (scope : Contribution φ) (recordedOnly : Bool) (base : TypeName) :
    List TypeName :=
  let derived := (s.graph.reached base).flatMap scope.directSubtypes
  firstOccurrences <| derived.filter fun name =>
    name ≠ base && (!recordedOnly || scope.hasType name)

theorem memCandidates {s : SubtypeSearch φ} {scope : Contribution φ} {recordedOnly : Bool}
    {base name : TypeName} :
    name ∈ s.candidates scope recordedOnly base ↔
      (∃ above ∈ s.graph.reached base, name ∈ scope.directSubtypes above) ∧ name ≠ base ∧
        (recordedOnly = true → scope.hasType name = true) := by
  have recorded : (!recordedOnly || scope.hasType name) = true ↔
      (recordedOnly = true → scope.hasType name = true) := by
    cases recordedOnly <;> simp
  simp only [candidates, memFirstOccurrences, List.mem_filter,
    List.mem_flatMap, Bool.and_eq_true, decide_eq_true_eq, recorded]

def find (s : SubtypeSearch φ) (scope : Contribution φ) (recordedOnly : Bool) (base : TypeRef) :
    Except QueryError (List TypeName) :=
  match base.shape with
  | .partiallyBound => .error (.unsupportedGenericQuery base)
  | .constructed => s.keepAssignable base (s.candidates scope recordedOnly base.name)
  | .nonGeneric | .definition => .ok (s.candidates scope recordedOnly base.name)

def subtypes (s : SubtypeSearch φ) (scope : Contribution φ) (base : TypeRef) :
    Except QueryError (List TypeName) := s.find scope true base

def descendants (s : SubtypeSearch φ) (scope : Contribution φ) (base : TypeRef) :
    Except QueryError (List TypeName) := s.find scope false base

end SubtypeSearch
end MetadataIndex
