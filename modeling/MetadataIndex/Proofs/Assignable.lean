import MetadataIndex.Proofs.RegistryRun
import MetadataIndex.Proofs.SupertypeSearches

/-! Assignability as a relation: a type is assignable to a reference that its open definition reaches
through supertypes. Every search that answers, answers this relation, and so does the walk whenever its
limit does not come first. -/
namespace MetadataIndex
open Std Relation
variable {φ : Type}

namespace Universe

def AssignableTo (u : Universe φ) (candidate : TypeName) (target : TypeRef) : Prop :=
  ∃ d, u.find? candidate = some d ∧ ReflTransGen u.Supertype d.selfRef target

variable {u v : Universe φ} {r s target : TypeRef} {candidate : TypeName}

theorem supertypeNamed (step : u.Supertype r s) : u.DirectSupertype r.name s.name := by
  obtain ⟨d, found, member⟩ := step
  obtain ⟨t, inside, same⟩ := List.mem_map.1 member
  subst same
  exact ⟨d, found, List.mem_map.2 ⟨t, inside, rfl⟩⟩

theorem supertypesNamed (path : ReflTransGen u.Supertype r s) :
    ReflTransGen u.DirectSupertype r.name s.name :=
  path.lift TypeRef.name fun _ _ => supertypeNamed

theorem assignableDerives (assignable : u.AssignableTo candidate target) :
    candidate = target.name ∨ u.Derives candidate target.name := by
  obtain ⟨d, found, path⟩ := assignable
  have named := supertypesNamed path
  rw [TypeDef.selfRef, nameOfFind found] at named
  exact (reflTransGen_iff_eq_or_transGen.1 named).imp Eq.symm id

theorem supertypeExtends (known : u.Extends v) (step : u.Supertype r s) : v.Supertype r s := by
  obtain ⟨d, found, member⟩ := step
  exact ⟨d, known _ _ found, member⟩

theorem assignableExtends (known : u.Extends v) (assignable : u.AssignableTo candidate target) :
    v.AssignableTo candidate target := by
  obtain ⟨d, found, path⟩ := assignable
  exact ⟨d, known _ _ found, path.lift id fun _ _ step => supertypeExtends known step⟩

end Universe

namespace SupertypeSearch
variable {u : Universe φ} {target : TypeRef} {remembers : Bool} {search next : SupertypeSearch} {candidate : TypeName}
  {answer : Bool} {d : TypeDef φ}

theorem firstKnown (found : u.find? candidate = some d) : first u candidate = ⟨{d.selfRef}, ∅⟩ := by
  rw [first, found]
  rfl

theorem firstUnknown (missing : u.find? candidate = none) : first u candidate = ⟨0, ∅⟩ := by
  rw [first, missing]
  rfl

theorem waits (step : Step u target remembers search next) : search.waiting ≠ 0 := by
  cases step with
  | skip => exact Multiset.cons_ne_zero
  | visit => exact Multiset.cons_ne_zero

theorem answersNothing (nothing : search.waiting = 0) (done : Answers target search answer) : answer = false := by
  cases done with
  | found => exact absurd nothing Multiset.cons_ne_zero
  | exhausted => rfl

theorem finishesExact (done : Finishes u target remembers (first u candidate) answer) :
    answer = true ↔ u.AssignableTo candidate target := by
  obtain ⟨last, steps, answers⟩ := done
  cases found : u.find? candidate with
  | none =>
      rw [firstUnknown found] at steps
      rcases ReflTransGen.cases_head steps with same | ⟨_, step, _⟩
      · simp [answersNothing (same ▸ rfl) answers, Universe.AssignableTo, found]
      · exact absurd rfl (waits step)
  | some d =>
      rw [firstKnown found] at steps
      obtain ⟨_, covered, _⟩ := coversSteps coversFirst steps
      rw [coversAnswer covered answers]
      simp [Universe.AssignableTo, found]

end SupertypeSearch

namespace Universe
variable {u : Universe φ} {candidate : TypeName} {target : TypeRef} {limit : Nat} {answer : Bool}

theorem assignableFinishes (decided : u.assignable? limit candidate target = some answer) :
    SupertypeSearch.Finishes u target true (.first u candidate) answer := by
  unfold assignable? at decided
  split at decided
  · next missing =>
    cases decided
    rw [SupertypeSearch.firstUnknown missing]
    exact ⟨_, .refl, .exhausted⟩
  · next d found =>
    rw [SupertypeSearch.firstKnown found, ← SupertypeWalk.ofWalkFirst]
    exact SupertypeWalk.runFinishes decided

theorem assignableIff (decided : u.assignable? limit candidate target = some answer) :
    answer = true ↔ u.AssignableTo candidate target := SupertypeSearch.finishesExact (assignableFinishes decided)

end Universe
end MetadataIndex
