import MetadataIndex.Proofs.FiniteWalks
import Mathlib.Data.Finset.Lattice.Fold
import Mathlib.Order.Lattice.Nat
import Mathlib.Data.Set.Finite.Basic
import Mathlib.Data.Fintype.EquivFin

/-! Limits that a supertype walk needs. A walk that finds nothing has looked at everything above its
candidate, so a target out of reach is decided only where finitely much lies above, and there one limit
decides every target. Some target is always out of reach: references above a candidate carry its name or
the name of a declared supertype. A definition that derives from an instantiation of itself, with its
parameter inside another one, has no end of references above it, and its walk never comes to an answer. -/
namespace MetadataIndex
open Std Relation
variable {φ : Type}

theorem commonLimit {α : Type} {holds : Nat → α → Prop} {values : List α}
    (longer : ∀ {limit a}, holds limit a → ∀ extra, holds (limit + extra) a)
    (each : ∀ a ∈ values, ∃ limit, holds limit a) : ∃ limit, ∀ a ∈ values, holds limit a := by
  induction values with
  | nil => exact ⟨0, by simp⟩
  | cons first rest ih =>
      rw [List.forall_mem_cons] at each
      obtain ⟨⟨steps, held⟩, others⟩ := each
      obtain ⟨limit, all⟩ := ih others
      refine ⟨limit + steps, List.forall_mem_cons.2 ⟨?_, fun a member => longer (all a member) steps⟩⟩
      exact Nat.add_comm steps limit ▸ longer held limit

namespace SupertypeWalk
variable {u : Universe φ} {target other : TypeRef} {walk after : SupertypeWalk} {limit : Nat}

theorem stepMissed (step : walk.step u other = .next after) :
    walk.step u target = .answer true ∨ walk.step u target = .next after := by
  obtain ⟨pending, seen⟩ := walk
  cases pending with
  | nil => cases step
  | cons current rest =>
      simp only [SupertypeWalk.step] at step ⊢
      split at step
      · cases step
      · by_cases same : current = target
        · exact .inl (if_pos same)
        · rw [if_neg same]
          exact .inr step

theorem runMissed (missed : walk.run u other limit = some false) :
    ∃ answer, walk.run u target limit = some answer := by
  induction limit generalizing walk with
  | zero => cases missed
  | succ limit ih =>
      rw [run] at missed ⊢
      cases step : walk.step u other with
      | answer found =>
          rw [step] at missed
          cases missed
          have nothing : walk.pending = [] :=
            (Multiset.coe_eq_zero _).1 (SupertypeSearch.exhausted (SupertypeSearch.walkAnswers step))
          have ended : walk.step u target = .answer false := by rw [SupertypeWalk.step, nothing]
          exact ⟨false, by rw [ended]⟩
      | next after =>
          rw [step] at missed
          rcases stepMissed step with found | goes
          · exact ⟨true, by rw [found]⟩
          · rw [goes]
            exact ih missed

end SupertypeWalk

namespace Universe
variable {u : Universe φ} {candidate : TypeName} {target other : TypeRef} {limit more : Nat} {answer : Bool}

def Above (u : Universe φ) (candidate : TypeName) : Set TypeRef := {r | u.AssignableTo candidate r}

def Suffices (u : Universe φ) (limit : Nat) : Prop :=
  ∀ candidate target, ∃ answer, u.assignable? limit candidate target = some answer

theorem assignableMore (decided : u.assignable? limit candidate target = some answer) (extra : Nat) :
    u.assignable? (limit + extra) candidate target = some answer := by
  unfold assignable? at decided ⊢
  cases found : u.find? candidate with
  | none =>
      rw [found] at decided
      exact decided
  | some d =>
      rw [found] at decided
      exact SupertypeWalk.runMore decided extra

theorem decidedTogether {names : List TypeName}
    (decided : ∀ t ∈ names, ∃ limit answer, u.assignable? limit t target = some answer) :
    ∃ limit, ∀ t ∈ names, ∃ answer, u.assignable? limit t target = some answer := by
  refine commonLimit (fun ⟨answer, given⟩ extra => ?_) decided
  exact ⟨answer, assignableMore given extra⟩

theorem decidedLonger (decided : u.assignable? limit candidate target = some answer) (longer : limit ≤ more) :
    u.assignable? more candidate target = some answer := by
  obtain ⟨extra, whole⟩ := Nat.exists_eq_add_of_le longer
  exact whole ▸ assignableMore decided extra

theorem decidedAbove (finite : (u.Above candidate).Finite) :
    ∃ limit, ∀ target, ∃ answer, u.assignable? limit candidate target = some answer :=
  decidedFinite fun d found _ path => Finset.mem_toList.2 (finite.mem_toFinset.2 ⟨d, found, path⟩)

theorem decidedEverywhere (finite : ∀ candidate, (u.Above candidate).Finite) : ∃ limit, u.Suffices limit := by
  choose limitOf decided using fun candidate => decidedAbove (finite candidate)
  let names := (u.defs.toList.map TypeDef.name).toFinset
  refine ⟨names.sup limitOf, fun candidate target => ?_⟩
  cases found : u.find? candidate with
  | none => exact ⟨false, by simp [assignable?, found]⟩
  | some d =>
      have member : candidate ∈ names :=
        List.mem_toFinset.2 (nameOfFind found ▸ List.mem_map_of_mem (memOfFind found))
      obtain ⟨answer, done⟩ := decided candidate target
      exact ⟨answer, decidedLonger done (Finset.le_sup member)⟩

theorem decidedOfMissed (missed : u.assignable? limit candidate other = some false) (target : TypeRef) :
    ∃ answer, u.assignable? limit candidate target = some answer := by
  unfold assignable? at missed ⊢
  cases found : u.find? candidate with
  | none => exact ⟨false, rfl⟩
  | some d =>
      rw [found] at missed
      exact SupertypeWalk.runMissed missed

theorem sufficesOfMissed (missed : ∀ d ∈ u.defs.toList, u.assignable? limit d.name other = some false) :
    u.Suffices limit := by
  intro candidate target
  cases found : u.find? candidate with
  | none => exact ⟨false, by simp [assignable?, found]⟩
  | some d => exact nameOfFind found ▸ decidedOfMissed (missed d (memOfFind found)) target

theorem aboveUnknown (missing : u.find? candidate = none) : (u.Above candidate).Finite := by
  refine Set.Finite.subset Set.finite_empty fun r ⟨d, known, _⟩ => ?_
  rw [missing] at known
  cases known

theorem finiteOfMissed (decided : u.assignable? limit candidate target = some false) :
    (u.Above candidate).Finite := by
  cases found : u.find? candidate with
  | none => exact aboveUnknown found
  | some d =>
      have done : SupertypeWalk.run u target limit ⟨[d.selfRef], ∅⟩ = some false := by
        simpa [assignable?, found] using decided
      obtain ⟨seen, gone⟩ := SupertypeWalk.goneOut done
      refine Set.Finite.subset (List.finite_toSet seen.toList) fun r above => ?_
      obtain ⟨e, known, path⟩ := above
      rw [found] at known
      cases known
      exact TreeSet.mem_toList.2 (SupertypeWalk.seenOnPath gone path)

theorem aboveNamed {r : TypeRef} (above : u.AssignableTo candidate r) :
    r.name ∈ candidate :: u.defs.toList.flatMap TypeDef.supertypeNames := by
  rcases assignableDerives above with same | derived
  · exact same ▸ List.mem_cons_self ..
  · obtain ⟨_, _, d, found, named⟩ := TransGen.tail'_iff.1 derived
    exact List.mem_cons_of_mem _ (List.mem_flatMap.2 ⟨d, memOfFind found, named⟩)

theorem outOfReach (u : Universe φ) (candidate : TypeName) : ∃ target, ¬ u.AssignableTo candidate target := by
  obtain ⟨name, fresh⟩ := Infinite.exists_notMem_finset
    (α := String) (candidate :: u.defs.toList.flatMap TypeDef.supertypeNames).toFinset
  exact ⟨⟨name, []⟩, fun above => fresh (List.mem_toFinset.2 (aboveNamed above))⟩

theorem decidedOutOfReach (missed : ¬ u.AssignableTo candidate target) :
    (∃ limit answer, u.assignable? limit candidate target = some answer) ↔ (u.Above candidate).Finite := by
  constructor
  · intro ⟨limit, answer, decided⟩
    have negative : answer = false := Bool.eq_false_iff.2 fun positive => missed ((assignableIff decided).1 positive)
    exact finiteOfMissed (negative ▸ decided)
  · intro finite
    obtain ⟨limit, decided⟩ := decidedAbove finite
    exact ⟨limit, decided target⟩

theorem decidedIff : (∀ target, ∃ limit answer, u.assignable? limit candidate target = some answer) ↔
    (u.Above candidate).Finite := by
  constructor
  · intro decided
    obtain ⟨target, missed⟩ := outOfReach u candidate
    exact (decidedOutOfReach missed).1 (decided target)
  · intro finite target
    obtain ⟨limit, decided⟩ := decidedAbove finite
    exact ⟨limit, decided target⟩

end Universe

structure TypeDef.Grows (d : TypeDef φ) (p : String) : Prop where
  parameters : d.parameters = [p]
  supertypes : d.supertypes = [⟨d.name, [.type d.name [.parameter p]]⟩]

def TypeDef.nested (d : TypeDef φ) (p : String) : Nat → Argument
  | 0 => .parameter p
  | n + 1 => .type d.name [d.nested p n]

theorem TypeDef.nestedInjective (d : TypeDef φ) (p : String) : Function.Injective (d.nested p) := by
  intro n m same
  induction n generalizing m with
  | zero =>
      cases m with
      | zero => rfl
      | succ m => cases same
  | succ n ih =>
      cases m with
      | zero => cases same
      | succ m =>
          simp only [nested, Argument.type.injEq, List.cons.injEq, and_true, true_and] at same
          rw [ih same]

namespace Universe
variable {u : Universe φ} {d : TypeDef φ} {p : String} {target r : TypeRef}

section Growing
variable (found : u.find? d.name = some d) (grows : d.Grows p)
include found grows

theorem growsStep (n : Nat) : u.Supertype ⟨d.name, [d.nested p n]⟩ ⟨d.name, [d.nested p (n + 1)]⟩ := by
  refine ⟨d, found, List.mem_map.2 ⟨⟨d.name, [.type d.name [.parameter p]]⟩, by simp [grows.supertypes], ?_⟩⟩
  simp [TypeRef.substitute, Argument.substitute, Argument.substituteAll, grows.parameters, Bindings.ofTableOf,
    TypeDef.nested]

theorem growsAbove (n : Nat) : u.AssignableTo d.name ⟨d.name, [d.nested p n]⟩ := by
  refine ⟨d, found, ?_⟩
  induction n with
  | zero =>
      have start : d.selfRef = ⟨d.name, [d.nested p 0]⟩ := by simp [TypeDef.selfRef, grows.parameters, TypeDef.nested]
      rw [start]
  | succ n ih => exact ih.tail (growsStep found grows n)

theorem growsEndless : ¬ (u.Above d.name).Finite := by
  refine Set.infinite_of_injective_forall_mem (f := fun n => ⟨d.name, [d.nested p n]⟩) (fun n m same => ?_)
    (growsAbove found grows)
  simp only [TypeRef.mk.injEq, List.cons.injEq, and_true, true_and] at same
  exact d.nestedInjective p same

theorem growsAlone (above : u.AssignableTo d.name r) : r.name = d.name := by
  obtain ⟨e, known, path⟩ := above
  rw [found] at known
  cases known
  induction path with
  | refl => rfl
  | tail _ last ih =>
      obtain ⟨e, known, named⟩ := supertypeNamed last
      rw [ih, found] at known
      cases known
      simpa [TypeDef.supertypeNames, grows.supertypes] using named

end Growing

section Known
variable {name : TypeName} (known : u.find? name = some d) (grows : d.Grows p) (other : target.name ≠ name)
include known grows other

theorem growsApart : ¬ u.AssignableTo name target := by
  obtain rfl := nameOfFind known
  exact fun above => other (growsAlone known grows above)

theorem growsUndecided (limit : Nat) : u.assignable? limit name target = none := by
  obtain rfl := nameOfFind known
  cases decided : u.assignable? limit d.name target with
  | none => rfl
  | some answer =>
      have finite := (decidedOutOfReach (growsApart known grows other)).1 ⟨limit, answer, decided⟩
      exact absurd finite (growsEndless known grows)

end Known
end Universe

def growType (owner : ModuleId) (kind : TypeKind) : TypeDef where
  name := "Grow"
  owner := owner
  kind := kind
  parameters := ["T"]
  base := some ⟨"Grow", [.type "Grow" [.parameter "T"]]⟩

theorem growTypeGrows {owner : ModuleId} {kind : TypeKind} : (growType owner kind).Grows "T" := ⟨rfl, rfl⟩

def growing : Universe := .ofDefs [growType "M" .classType]

theorem growingKnown : growing.find? "Grow" = some (growType "M" .classType) := by decide +kernel

end MetadataIndex
