import MetadataIndex.Proofs.RankedPlaces
import Mathlib.Logic.Hydra

/-! Searches that end, and what they answer. One that remembers everything ends where finitely many
references lie above the candidate, and in metadata without a cycle even one that remembers nothing ends.
Whatever a search answers is what the walk answers. -/
namespace MetadataIndex
open Std Relation
variable {φ : Type}

namespace SupertypeSearch
variable {u : Universe φ} {target start : TypeRef} {remembers : Bool} {search next : SupertypeSearch}
  {candidate : TypeName}

theorem neverStuck (u : Universe φ) (target : TypeRef) (remembers : Bool) (search : SupertypeSearch) :
    (∃ answer, Answers target search answer) ∨ ∃ next, Step u target remembers search next := by
  obtain ⟨waiting, recalled⟩ := search
  rcases Multiset.empty_or_exists_mem waiting with none | ⟨r, member⟩
  · exact .inl ⟨false, none ▸ .exhausted⟩
  · obtain ⟨rest, whole⟩ := Multiset.exists_cons_of_mem member
    subst whole
    by_cases differs : r = target
    · exact .inl ⟨true, differs ▸ .found⟩
    · by_cases known : r ∈ recalled
      · exact .inr ⟨_, .skip differs known⟩
      · exact .inr ⟨_, .visit differs known Set.Subset.rfl fun _ => rfl⟩

theorem rememberingEnds {above : List TypeRef} (closed : ∀ r, ReflTransGen u.Supertype start r → r ∈ above)
    (reached : ∀ r ∈ search.waiting, ReflTransGen u.Supertype start r) : Ends u target true search := by
  induction fewer : remaining u above search using Nat.strong_induction_on generalizing search with
  | _ n ih =>
      refine Acc.intro search fun next step => ?_
      have falls : remaining u above next < n :=
        fewer ▸ remainingStep (fun r member => closed r (reached r member)) step
      exact ih _ falls (reachedStep reached step) rfl

theorem cutStep (acyclic : ∀ r ∈ search.waiting, ¬ u.Derives r.name r.name)
    (step : Step u target remembers search next) :
    CutExpand (InvImage (· < ·) fun r : TypeRef => u.height r.name) next.waiting search.waiting := by
  cases step with
  | @skip r waiting recalled differs known =>
      refine ⟨0, r, fun _ member => absurd member (Multiset.notMem_zero _), ?_⟩
      rw [add_zero, add_comm, Multiset.singleton_add]
  | @visit r waiting recalled kept differs fresh within whole =>
      refine ⟨supertypes u r, r, fun s member => ?_, ?_⟩
      · obtain ⟨d, found, named⟩ := Universe.supertypeNamed (memSupertypes.1 member)
        exact Universe.heightFalls (acyclic r (Multiset.mem_cons_self ..)) found named
      · rw [add_assoc, add_comm waiting, Multiset.singleton_add, add_comm]

theorem acyclicEnds (acyclic : u.AcyclicAbove start.name)
    (reached : ∀ r ∈ search.waiting, ReflTransGen u.Supertype start r) : Ends u target remembers search := by
  have falls : WellFounded (CutExpand (InvImage (· < ·) fun r : TypeRef => u.height r.name)) :=
    WellFounded.cutExpand (InvImage.wf _ Nat.lt_wfRel.wf)
  obtain ⟨waiting, recalled⟩ := search
  induction waiting using falls.induction generalizing recalled with
  | _ waiting ih =>
      refine Acc.intro _ fun next step => ?_
      have lower := cutStep (fun r member => acyclic r.name (Universe.supertypesNamed (reached r member))) step
      exact ih next.waiting lower next.recalled (reachedStep reached step)

theorem finishesOfEnds (ends : Ends u target remembers search) : ∃ found, Finishes u target remembers search found := by
  induction ends with
  | intro search _ ih =>
      rcases neverStuck u target remembers search with ⟨found, answers⟩ | ⟨next, step⟩
      · exact ⟨found, search, .refl, answers⟩
      · obtain ⟨found, last, steps, answers⟩ := ih next step
        exact ⟨found, last, .head step steps, answers⟩

theorem firstEnds (ends : ∀ d, u.find? candidate = some d → ∀ search : SupertypeSearch,
      (∀ r ∈ search.waiting, ReflTransGen u.Supertype d.selfRef r) → Ends u target remembers search) :
    Ends u target remembers (first u candidate) := by
  cases found : u.find? candidate with
  | none =>
      rw [firstUnknown found]
      exact Acc.intro _ fun _ step => absurd rfl (waits step)
  | some d =>
      rw [firstKnown found]
      refine ends d found _ fun r member => ?_
      rw [Multiset.mem_singleton.1 member]

end SupertypeSearch

structure WalkDecides (u : Universe φ) (candidate : TypeName) : Prop where
  acyclicFinite : u.AcyclicAbove candidate → (u.Above candidate).Finite
  decided : (u.Above candidate).Finite → ∃ limit, ∀ target, ∃ answer, ∀ longer, limit ≤ longer →
    u.assignable? longer candidate target = some answer
  exact : ∀ limit target answer, u.assignable? limit candidate target = some answer → (answer = true ↔
    ∃ d, u.find? candidate = some d ∧ (target = d.selfRef ∨ TransGen u.Supertype d.selfRef target))
  searches : ∀ target walk after, walk.step u target = .next after →
    SupertypeSearch.Step u target true (.ofWalk walk) (.ofWalk after)
  sameAnswer : ∀ limit target answer, u.assignable? limit candidate target = some answer →
    ∀ remembers found, SupertypeSearch.Finishes u target remembers (.first u candidate) found → found = answer
  remembered : (u.Above candidate).Finite → ∀ target, SupertypeSearch.Ends u target true (.first u candidate)
  forgotten : u.AcyclicAbove candidate → ∀ target remembers,
    SupertypeSearch.Ends u target remembers (.first u candidate)
  finishes : ∀ target remembers, SupertypeSearch.Ends u target remembers (.first u candidate) →
    ∃ found, SupertypeSearch.Finishes u target remembers (.first u candidate) found

/-- The walk decides instantiated supertyping wherever finitely many references lie above the candidate, as
they do in metadata without a cycle. Neither the order of a search nor what it remembers has a say. -/
theorem walkDecides (u : Universe φ) (candidate : TypeName) : WalkDecides u candidate where
  acyclicFinite := Universe.aboveAcyclic
  decided := by
    intro finite
    obtain ⟨limit, decided⟩ := Universe.decidedAbove finite
    refine ⟨limit, fun target => ?_⟩
    obtain ⟨answer, done⟩ := decided target
    exact ⟨answer, fun _ longer => Universe.decidedLonger done longer⟩
  exact := by
    intro limit target answer decided
    rw [Universe.assignableIff decided]
    exact exists_congr fun d => and_congr_right fun _ => reflTransGen_iff_eq_or_transGen
  searches := fun _ _ _ step => SupertypeSearch.walkSearches step
  sameAnswer := by
    intro limit target answer decided remembers found finished
    rw [Bool.eq_iff_iff, SupertypeSearch.finishesExact finished, Universe.assignableIff decided]
  remembered := by
    intro finite target
    refine SupertypeSearch.firstEnds fun d found search reached => ?_
    have closed : ∀ r, ReflTransGen u.Supertype d.selfRef r → r ∈ finite.toFinset.toList := fun r path =>
      Finset.mem_toList.2 (finite.mem_toFinset.2 ⟨d, found, path⟩)
    exact SupertypeSearch.rememberingEnds closed reached
  forgotten := by
    intro acyclic target remembers
    refine SupertypeSearch.firstEnds fun d found search reached => ?_
    have named : d.selfRef.name = candidate := Universe.nameOfFind found
    exact SupertypeSearch.acyclicEnds (named.symm ▸ acyclic) reached
  finishes := fun _ _ ends => SupertypeSearch.finishesOfEnds ends

end MetadataIndex
