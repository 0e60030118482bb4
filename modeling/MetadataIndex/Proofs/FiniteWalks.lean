import MetadataIndex.Proofs.SubtypeListing

/-! Supertype walks that end. When finitely many references are reached from the start, every new
reference looked at pays for the supertypes that it leaves to look at, so some limit is enough. In a
program without generic parameters and arguments the supertypes are the declared ones, and deriving
from a type is being assignable to it. -/
namespace MetadataIndex
open Std Relation
variable {φ : Type}

namespace Universe
variable {u : Universe φ} {candidate : TypeName}

theorem decidedFinite {reached : List TypeRef}
    (closed : ∀ d, u.find? candidate = some d → ∀ r, ReflTransGen u.Supertype d.selfRef r → r ∈ reached) :
    ∃ limit, ∀ target, ∃ answer, u.assignable? limit candidate target = some answer := by
  cases found : u.find? candidate with
  | none => exact ⟨0, fun target => ⟨false, by simp [assignable?, found]⟩⟩
  | some d => simpa only [assignable?, found] using SupertypeWalk.runFirst (closed d found)

end Universe

/-! Plain metadata -/

def TypeDef.Plain (d : TypeDef φ) : Prop := d.parameters = [] ∧ ∀ r ∈ d.supertypes, r.arguments = []

instance : DecidablePred (@TypeDef.Plain φ) := fun d =>
  inferInstanceAs (Decidable (d.parameters = [] ∧ ∀ r ∈ d.supertypes, r.arguments = []))

def CodeModule.Plain (m : CodeModule φ) : Prop := ∀ d ∈ m.types.toList, d.Plain

instance : DecidablePred (@CodeModule.Plain φ) := fun m =>
  inferInstanceAs (Decidable (∀ d ∈ m.types.toList, d.Plain))

theorem TypeRef.substitutePlain {r : TypeRef} (bindings : Bindings) (plain : r.arguments = []) :
    r.substitute bindings = r := by
  obtain ⟨name, arguments⟩ := r
  subst plain
  rfl

theorem TypeDef.supertypesPlain {d : TypeDef φ} (plain : d.Plain) (arguments : List Argument) :
    d.supertypesAt arguments = d.supertypes := by
  refine (List.map_congr_left fun r member => ?_).trans (List.map_id _)
  exact TypeRef.substitutePlain _ (plain.2 r member)

namespace Universe
variable {u : Universe φ} {name above : TypeName} {r s : TypeRef}

def Plain (u : Universe φ) : Prop := ∀ name d, u.find? name = some d → d.Plain

theorem plainStep (plain : u.Plain) (step : u.Supertype r s) :
    s.arguments = [] ∧ s ∈ u.defs.toList.flatMap TypeDef.supertypes := by
  obtain ⟨d, found, member⟩ := step
  rw [TypeDef.supertypesPlain (plain _ _ found)] at member
  exact ⟨(plain _ _ found).2 s member, List.mem_flatMap.2 ⟨d, memOfFind found, member⟩⟩

theorem plainSupertype (plain : u.Plain) (step : u.DirectSupertype name above) :
    u.Supertype ⟨name, []⟩ ⟨above, []⟩ := by
  obtain ⟨d, found, member⟩ := step
  obtain ⟨r, inside, same⟩ := List.mem_map.1 member
  refine ⟨d, found, ?_⟩
  rw [TypeDef.supertypesPlain (plain _ _ found)]
  have whole : r = ⟨above, []⟩ := by
    rw [← same, ← (plain _ _ found).2 r inside]
  exact whole ▸ inside

theorem plainAssignable (plain : u.Plain) (known : ∃ d, u.find? name = some d)
    (path : ReflTransGen u.DirectSupertype name above) : u.Assignable name ⟨above, []⟩ := by
  obtain ⟨d, found⟩ := known
  have start : d.selfRef = ⟨name, []⟩ := by
    rw [TypeDef.selfRef, (plain _ _ found).1, nameOfFind found]
    rfl
  have fits : u.AssignableTo name ⟨above, []⟩ :=
    ⟨d, found, start ▸ path.lift (fun n => (⟨n, []⟩ : TypeRef)) fun _ _ step => plainSupertype plain step⟩
  -- what is reached, the start apart, is a supertype that some definition declares
  have closed : ∀ e, u.find? name = some e → ∀ r, ReflTransGen u.Supertype e.selfRef r →
      r ∈ ⟨name, []⟩ :: u.defs.toList.flatMap TypeDef.supertypes := by
    intro e foundToo r reached
    rw [found] at foundToo
    cases foundToo
    rw [start] at reached
    cases reached with
    | refl => exact List.mem_cons_self ..
    | tail _ last => exact List.mem_cons_of_mem _ (plainStep plain last).2
  obtain ⟨limit, each⟩ := decidedFinite closed
  obtain ⟨answer, decided⟩ := each ⟨above, []⟩
  have positive : answer = true := (assignableIff decided).2 fits
  exact ⟨limit, positive ▸ decided⟩

end Universe

theorem Program.plainTypes {p : Program φ} (plain : ∀ m ∈ p.modules, m.Plain) : p.knownTypes.Plain := by
  intro name d found
  rw [findKnown] at found
  obtain ⟨m, member, inside⟩ := List.mem_flatMap.1 (List.mem_of_find?_eq_some found)
  exact plain m member d inside

end MetadataIndex
