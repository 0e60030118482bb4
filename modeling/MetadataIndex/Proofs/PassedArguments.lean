import MetadataIndex.Proofs.Substitution
import MetadataIndex.Proofs.WalkLimits

/-! Supertypes of instantiated types. In well formed metadata every reference to a known definition fills all
its parameters, so no parameter is left over on the way up, and substituting into a reference carries its
whole path along. What an open definition reaches, an instantiation of it reaches with its arguments
passed on, and assignability goes through generic instantiations. -/
namespace MetadataIndex
open Std Relation
variable {φ : Type}

namespace Universe

structure WellFormed (u : Universe φ) : Prop where
  distinct : ∀ name d, u.find? name = some d → d.parameters.Nodup
  own : ∀ name d, u.find? name = some d → ∀ s ∈ d.supertypes, ∀ p ∈ s.parameters, p ∈ d.parameters
  filled : ∀ name d, u.find? name = some d → ∀ s ∈ d.supertypes, ∀ e, u.find? s.name = some e →
    s.arguments.length = e.parameters.length

def Filled (u : Universe φ) (r : TypeRef) : Prop :=
  ∀ d, u.find? r.name = some d → r.arguments.length = d.parameters.length

variable {u : Universe φ} {r s target : TypeRef} {d : TypeDef φ} {name candidate : TypeName} {bindings : Bindings}
  {arguments : List Argument}

instance (u : Universe φ) : Decidable u.WellFormed :=
  decidable_of_iff (∀ d ∈ u.defs.toList, d.parameters.Nodup ∧ ∀ s ∈ d.supertypes,
      (∀ p ∈ s.parameters, p ∈ d.parameters) ∧
        ∀ e ∈ u.find? s.name, s.arguments.length = e.parameters.length) <| by
    constructor
    · intro checked
      exact {
        distinct := fun _ d found => (checked d (memOfFind found)).1
        own := fun _ d found s member => ((checked d (memOfFind found)).2 s member).1
        filled := fun _ d found s member => ((checked d (memOfFind found)).2 s member).2 }
    · intro formed d member
      have found : u.find? d.name = some d := OrderedSet.findIff.2 ⟨member, rfl⟩
      exact ⟨formed.distinct _ d found, fun s inside =>
        ⟨formed.own _ d found s inside, formed.filled _ d found s inside⟩⟩

theorem filledSelf (found : u.find? name = some d) : u.Filled d.selfRef := by
  intro e known
  rw [TypeDef.selfRef, nameOfFind found, found] at known
  cases known
  exact List.length_map ..

theorem filledStep (formed : u.WellFormed) (step : u.Supertype r s) : u.Filled s := by
  obtain ⟨d, found, member⟩ := step
  obtain ⟨t, inside, same⟩ := List.mem_map.1 member
  subst same
  intro e known
  exact (List.length_map ..).trans (formed.filled _ d found t inside e known)

theorem filledPath (formed : u.WellFormed) (filled : u.Filled r) (path : ReflTransGen u.Supertype r s) :
    u.Filled s := by
  cases path with
  | refl => exact filled
  | tail _ last => exact filledStep formed last

end Universe

theorem TypeDef.substitutePassed {d : TypeDef φ} {s : TypeRef} {arguments : List Argument} {bindings : Bindings}
    (distinct : d.parameters.Nodup) (full : arguments.length = d.parameters.length)
    (own : ∀ p ∈ s.parameters, p ∈ d.parameters) :
    (s.substitute (d.passed arguments)).substitute bindings =
      s.substitute (d.passed (arguments.map (Argument.substitute bindings))) := by
  rw [TypeRef.substituteTwice]
  refine TypeRef.substituteCongr fun p mentioned => ?_
  obtain ⟨a, bound⟩ := TypeDef.passedFull distinct full (own p mentioned)
  rw [TypeDef.passedMapped, Bindings.andThen, bound]
  rfl

theorem TypeDef.substituteSelf {d : TypeDef φ} {arguments : List Argument} (distinct : d.parameters.Nodup)
    (full : arguments.length = d.parameters.length) :
    d.selfRef.substitute (d.passed arguments) = ⟨d.name, arguments⟩ := by
  have filled : (d.parameters.map Argument.parameter).map (Argument.substitute (d.passed arguments)) = arguments := by
    refine List.ext_getElem (by simp [full]) fun i below given => ?_
    have place : i < d.parameters.length := full ▸ given
    have bound := TypeDef.passedAt distinct full (List.getElem?_eq_getElem place) (List.getElem?_eq_getElem given)
    simp [Argument.substitute, bound]
  rw [TypeDef.selfRef, TypeRef.substitute, filled]

namespace Universe
variable {u : Universe φ} {r s target : TypeRef} {d : TypeDef φ} {name candidate : TypeName} {bindings : Bindings}
  {arguments : List Argument}

theorem supertypeSubstituted (formed : u.WellFormed) (filled : u.Filled r) (step : u.Supertype r s) :
    u.Supertype (r.substitute bindings) (s.substitute bindings) := by
  obtain ⟨d, found, member⟩ := step
  obtain ⟨t, inside, same⟩ := List.mem_map.1 member
  subst same
  refine ⟨d, found, List.mem_map.2 ⟨t, inside, ?_⟩⟩
  exact (TypeDef.substitutePassed (formed.distinct _ d found) (filled d found) (formed.own _ d found t inside)).symm

theorem pathSubstituted (formed : u.WellFormed) (filled : u.Filled r) (path : ReflTransGen u.Supertype r s) :
    ReflTransGen u.Supertype (r.substitute bindings) (s.substitute bindings) := by
  induction path with
  | refl => exact .refl
  | tail path last ih => exact ih.tail (supertypeSubstituted formed (filledPath formed filled path) last)

theorem assignableInstance (formed : u.WellFormed) (found : u.find? name = some d)
    (full : arguments.length = d.parameters.length) (first : u.AssignableTo candidate ⟨name, arguments⟩)
    (second : u.AssignableTo name target) : u.AssignableTo candidate (target.substitute (d.passed arguments)) := by
  obtain ⟨c, known, below⟩ := first
  obtain ⟨e, foundToo, above⟩ := second
  rw [found] at foundToo
  cases foundToo
  have carried : ReflTransGen u.Supertype (d.selfRef.substitute (d.passed arguments))
      (target.substitute (d.passed arguments)) := pathSubstituted formed (filledSelf found) above
  rw [TypeDef.substituteSelf (formed.distinct name d found) full, nameOfFind found] at carried
  exact ⟨c, known, below.trans carried⟩

theorem plainPassed (plain : d.parameters = []) : target.substitute (d.passed arguments) = target := by
  refine TypeRef.substituteNone fun p _ => ?_
  rw [TypeDef.passedEq, plain]
  rfl

/-- Assignability goes through instantiations: what a definition is assignable to, with the arguments
passed on, is what everything assignable to its instantiation is assignable to. -/
theorem assignableThrough (u : Universe φ) (formed : u.WellFormed) (candidate name : TypeName) (d : TypeDef φ)
    (found : u.find? name = some d) (arguments : List Argument) (full : arguments.length = d.parameters.length)
    (target : TypeRef) (first : u.Assignable candidate ⟨name, arguments⟩) (second : u.Assignable name target) :
    (∀ limit answer, u.assignable? limit candidate (target.substitute (d.passed arguments)) = some answer →
      answer = true) ∧
    ((u.Above candidate).Finite → u.Assignable candidate (target.substitute (d.passed arguments))) ∧
    (d.parameters = [] → target.substitute (d.passed arguments) = target) := by
  obtain ⟨_, firstDone⟩ := first
  obtain ⟨_, secondDone⟩ := second
  have through : u.AssignableTo candidate (target.substitute (d.passed arguments)) :=
    assignableInstance formed found full ((assignableIff firstDone).1 rfl) ((assignableIff secondDone).1 rfl)
  refine ⟨fun limit answer decided => (assignableIff decided).2 through, fun finite => ?_, plainPassed⟩
  obtain ⟨limit, decided⟩ := decidedAbove finite
  obtain ⟨answer, done⟩ := decided (target.substitute (d.passed arguments))
  exact ⟨limit, (assignableIff done).2 through ▸ done⟩

def pairedType : TypeDef :=
  { name := "Paired", owner := "M", kind := .classType, parameters := ["T", "U"],
    base := some ⟨"Listed", [.type "Pair" [.parameter "U", .parameter "T"]]⟩ }

def crossedTypes : List TypeDef := [
  { name := "Scores", owner := "M", kind := .classType, base := some ⟨"Paired", [.type "Text" [], .type "Int" []]⟩ },
  pairedType,
  { name := "Listed", owner := "M", kind := .classType, parameters := ["T"],
    interfaces := [⟨"Repository", [.type "List" [.parameter "T"]]⟩] },
  { name := "Repository", owner := "M", kind := .interfaceType, parameters := ["U"] }]

def crossed : Universe := .ofDefs crossedTypes

theorem scoresThroughPaired :
    crossed.WellFormed ∧ crossed.find? "Paired" = some pairedType ∧
    crossed.Assignable "Scores" ⟨"Paired", [.type "Text" [], .type "Int" []]⟩ ∧
    crossed.Assignable "Paired" ⟨"Repository", [.type "List" [.type "Pair" [.parameter "U", .parameter "T"]]]⟩ ∧
    ∀ limit answer, crossed.assignable? limit "Scores"
      ⟨"Repository", [.type "List" [.type "Pair" [.type "Int" [], .type "Text" []]]]⟩ = some answer →
        answer = true := by
  have formed : crossed.WellFormed := by decide +kernel
  have found : crossed.find? "Paired" = some pairedType := by decide +kernel
  have first : crossed.Assignable "Scores" ⟨"Paired", [.type "Text" [], .type "Int" []]⟩ :=
    ⟨3, by decide +kernel⟩
  have second : crossed.Assignable "Paired"
      ⟨"Repository", [.type "List" [.type "Pair" [.parameter "U", .parameter "T"]]]⟩ := ⟨3, by decide +kernel⟩
  have passedOn : TypeRef.substitute (pairedType.passed [.type "Text" [], .type "Int" []])
      ⟨"Repository", [.type "List" [.type "Pair" [.parameter "U", .parameter "T"]]]⟩ =
        ⟨"Repository", [.type "List" [.type "Pair" [.type "Int" [], .type "Text" []]]]⟩ := by decide +kernel
  obtain ⟨through, _⟩ := assignableThrough crossed formed "Scores" "Paired" pairedType found _ rfl _ first second
  exact ⟨formed, found, first, second, passedOn ▸ through⟩

end Universe
end MetadataIndex
