import MetadataIndex.Proofs.PassedArguments
import Mathlib.Data.Finite.Prod
import Mathlib.Data.Fintype.Option
import Mathlib.Data.Set.Finite.Lattice
import Mathlib.Data.Set.Finite.Range

/-! Ranked generic places. A place is a definition with the position of an argument. Ranks that never
fall when a parameter is passed on, and rise when it is passed on inside another argument, bound how deep
references above a candidate can nest, so finitely many lie above it. Metadata without a cycle ranks its
definitions by what is left above them; and where references are well formed, ranks exist whenever
finitely many references lie above. -/
namespace MetadataIndex
open Std Relation
variable {φ : Type}

def Bindings.Fills {α : Type} (parameters : List String) (values : Set Argument) (f : Bindings → α) : Set α :=
  {b | ∃ bindings : Bindings, (∀ p ∈ parameters, ∀ a, bindings p = some a → a ∈ values) ∧ f bindings = b}

theorem Bindings.fillsFinite {α : Type} {parameters : List String} {values : Set Argument} {f : Bindings → α}
    (reads : ∀ first second : Bindings, (∀ p ∈ parameters, first p = second p) → f first = f second)
    (finite : values.Finite) : (Bindings.Fills parameters values f).Finite := by
  have fewParameters : Finite {p // p ∈ parameters} := (List.finite_toSet parameters).to_subtype
  have fewValues : Finite values := finite.to_subtype
  let tabled (chosen : {p // p ∈ parameters} → Option values) : Bindings := fun p =>
    if mentioned : p ∈ parameters then (chosen ⟨p, mentioned⟩).map Subtype.val else none
  refine (Set.finite_range fun chosen => f (tabled chosen)).subset ?_
  intro b ⟨bindings, fitting, same⟩
  have chosen (p : {p // p ∈ parameters}) : ∃ v : Option values, v.map Subtype.val = bindings p.1 := by
    cases bound : bindings p.1 with
    | none => exact ⟨none, rfl⟩
    | some a => exact ⟨some ⟨a, fitting p.1 p.2 a bound⟩, rfl⟩
  choose pick picked using chosen
  refine ⟨pick, (reads _ _ fun p mentioned => ?_).trans same⟩
  simp only [tabled, mentioned, dite_true]
  exact picked ⟨p, mentioned⟩

namespace Universe

structure Ranked (u : Universe φ) (candidate : TypeName) (rank : TypeName → Nat → Nat) (top : Nat) : Prop where
  bounded : ∀ name i, rank name i ≤ top
  passes : ∀ name d, ReflTransGen u.DirectSupertype candidate name → u.find? name = some d →
    ∀ s ∈ d.supertypes, ∀ i p j a, d.parameters[i]? = some p → s.arguments[j]? = some a → p ∈ a.parameters →
      rank name i + (if a = .parameter p then 0 else 1) ≤ rank s.name j

def declared (u : Universe φ) : List TypeRef := u.defs.toList.flatMap TypeDef.supertypes

def layer (u : Universe φ) (given : List Argument) : Nat → Set Argument
  | 0 => {a | a ∈ given ++ u.declared.flatMap TypeRef.arguments}
  | n + 1 => u.layer given n ∪ {b | ∃ a ∈ u.declared.flatMap TypeRef.arguments,
      b ∈ Bindings.Fills a.parameters (u.layer given n) fun bindings => a.substitute bindings}

variable {u : Universe φ} {candidate name : TypeName} {rank : TypeName → Nat → Nat} {top n m : Nat}
  {given : List Argument} {r s : TypeRef} {d : TypeDef φ} {a : Argument}

theorem layerFinite (u : Universe φ) (given : List Argument) (n : Nat) : (u.layer given n).Finite := by
  induction n with
  | zero => exact List.finite_toSet _
  | succ n ih =>
      have few : (⋃ a ∈ {a | a ∈ u.declared.flatMap TypeRef.arguments}, Bindings.Fills a.parameters (u.layer given n)
          fun bindings => a.substitute bindings).Finite :=
        (List.finite_toSet _).biUnion fun a _ =>
          Bindings.fillsFinite (fun _ _ same => Argument.substituteCongr same) ih
      refine ih.union (few.subset ?_)
      intro b ⟨a, member, filled⟩
      exact Set.mem_biUnion member filled

theorem layerGrows (le : n ≤ m) : u.layer given n ⊆ u.layer given m := by
  induction le with
  | refl => exact Set.Subset.rfl
  | step _ ih => exact ih.trans Set.subset_union_left

theorem layerDeclared (member : s ∈ u.declared) (inside : a ∈ s.arguments) : a ∈ u.layer given n := by
  have first : a ∈ u.layer given 0 := List.mem_append_right _ (List.mem_flatMap.2 ⟨s, member, inside⟩)
  exact layerGrows (Nat.zero_le n) first

theorem declaredOf (found : u.find? name = some d) (member : s ∈ d.supertypes) : s ∈ u.declared :=
  List.mem_flatMap.2 ⟨d, memOfFind found, member⟩

def Layered (u : Universe φ) (given : List Argument) (rank : TypeName → Nat → Nat) (r : TypeRef) : Prop :=
  ∀ (i : Nat) a, r.arguments[i]? = some a → a ∈ u.layer given (rank r.name i)

theorem layeredSelf (d : TypeDef φ) : u.Layered d.selfRef.arguments rank d.selfRef := by
  intro i a place
  have first : a ∈ u.layer d.selfRef.arguments 0 := List.mem_append_left _ (List.mem_of_getElem? place)
  exact layerGrows (Nat.zero_le _) first

theorem layerPassed {bindings : Bindings} (member : s ∈ u.declared) (inside : a ∈ s.arguments)
    (passed : ∀ p ∈ a.parameters, ∀ v, bindings p = some v →
      ∃ n, v ∈ u.layer given n ∧ n + (if a = .parameter p then 0 else 1) ≤ m) :
    a.substitute bindings ∈ u.layer given m := by
  by_cases anyBound : ∃ p ∈ a.parameters, ∃ v, bindings p = some v
  · obtain ⟨p, mentioned, v, bound⟩ := anyBound
    obtain ⟨n, deep, within⟩ := passed p mentioned v bound
    by_cases bare : a = .parameter p
    · -- passed on as it stands, the value keeps its layer
      have whole : a.substitute bindings = v := by simp [bare, Argument.substitute, bound]
      exact whole ▸ layerGrows (by omega) deep
    · -- inside another argument, every value comes from a layer below
      simp only [bare, if_false] at within
      obtain ⟨below, same⟩ : ∃ below, m = below + 1 := ⟨m - 1, by omega⟩
      subst same
      refine .inr ⟨a, List.mem_flatMap.2 ⟨s, member, inside⟩, bindings, fun q other w boundToo => ?_, rfl⟩
      obtain ⟨k, lies, under⟩ := passed q other w boundToo
      have wrapped : a ≠ .parameter q := by
        intro same
        rw [same, Argument.parameters, List.mem_singleton] at mentioned
        exact bare (mentioned ▸ same)
      simp only [wrapped, if_false] at under
      exact layerGrows (by omega) lies
  · have unchanged : a.substitute bindings = a := by
      refine Argument.substituteUnmentioned fun p mentioned => ?_
      exact Option.eq_none_iff_forall_ne_some.2 fun v bound => anyBound ⟨p, mentioned, v, bound⟩
    exact unchanged.symm ▸ layerDeclared member inside

theorem layeredStep (ranked : u.Ranked candidate rank top) (reached : ReflTransGen u.DirectSupertype candidate r.name)
    (layered : u.Layered given rank r) (step : u.Supertype r s) : u.Layered given rank s := by
  obtain ⟨d, found, member⟩ := step
  obtain ⟨t, inside, same⟩ := List.mem_map.1 member
  subst same
  intro j b place
  obtain ⟨a, declaredAt, filled⟩ : ∃ a, t.arguments[j]? = some a ∧ a.substitute (d.passed r.arguments) = b := by
    simpa [TypeRef.substitute, TypeDef.passed] using place
  subst filled
  refine layerPassed (declaredOf found inside) (List.mem_of_getElem? declaredAt) fun p mentioned v bound => ?_
  obtain ⟨i, atPlace, givenAt⟩ := TypeDef.passedPlace bound
  exact ⟨rank r.name i, layered i v givenAt,
    ranked.passes r.name d reached found t inside i p j a atPlace declaredAt mentioned⟩

theorem layeredAbove (ranked : u.Ranked candidate rank top) (found : u.find? candidate = some d)
    (path : ReflTransGen u.Supertype d.selfRef r) : u.Layered d.selfRef.arguments rank r := by
  induction path with
  | refl => exact layeredSelf d
  | tail path last ih =>
      have named := supertypesNamed path
      rw [TypeDef.selfRef, nameOfFind found] at named
      exact layeredStep ranked named ih last

theorem aboveRanked (ranked : u.Ranked candidate rank top) : (u.Above candidate).Finite := by
  cases found : u.find? candidate with
  | none => exact aboveUnknown found
  | some d =>
      let values := u.layer d.selfRef.arguments top
      have few : (⋃ t ∈ {t | t ∈ u.declared}, Bindings.Fills t.parameters values fun bindings =>
          t.substitute bindings).Finite :=
        (List.finite_toSet _).biUnion fun t _ => Bindings.fillsFinite
          (fun _ _ same => TypeRef.substituteCongr same) (layerFinite u _ top)
      refine (few.insert d.selfRef).subset ?_
      intro r ⟨e, known, path⟩
      rw [found] at known
      cases known
      cases path with
      | refl => exact Set.mem_insert ..
      | @tail below _ path last =>
          obtain ⟨e, knownToo, member⟩ := last
          obtain ⟨t, inside, same⟩ := List.mem_map.1 member
          refine Set.mem_insert_of_mem _
            (Set.mem_biUnion (declaredOf knownToo inside) ⟨e.passed below.arguments, ?_, same⟩)
          intro p _ v bound
          obtain ⟨i, _, givenAt⟩ := TypeDef.passedPlace bound
          exact layerGrows (ranked.bounded _ i) (layeredAbove ranked found path i v givenAt)

/-! Metadata without a cycle -/

def AcyclicAbove (u : Universe φ) (candidate : TypeName) : Prop :=
  ∀ name, ReflTransGen u.DirectSupertype candidate name → ¬ u.Derives name name

open Classical in
noncomputable def height (u : Universe φ) (name : TypeName) : Nat := (u.supertypeClosure name).toFinset.card

theorem heightWithin {above : TypeName} (path : ReflTransGen u.DirectSupertype name above) :
    u.height above ≤ u.height name := by
  classical
  refine Finset.card_le_card fun d member => ?_
  obtain ⟨found, further⟩ := memClosure.1 (List.mem_toFinset.1 member)
  exact List.mem_toFinset.2 (memClosure.2 ⟨found, path.trans further⟩)

theorem heightFalls {above : TypeName} (acyclic : ¬ u.Derives name name) (found : u.find? name = some d)
    (named : above ∈ d.supertypeNames) : u.height above < u.height name := by
  classical
  have step : u.DirectSupertype name above := ⟨d, found, named⟩
  have own : d ∈ (u.supertypeClosure name).toFinset := by
    refine List.mem_toFinset.2 (memClosure.2 ?_)
    rw [nameOfFind found]
    exact ⟨found, .refl⟩
  refine Finset.card_lt_card ((Finset.ssubset_iff_of_subset fun e member => ?_).2 ⟨d, own, fun member => ?_⟩)
  · obtain ⟨known, further⟩ := memClosure.1 (List.mem_toFinset.1 member)
    exact List.mem_toFinset.2 (memClosure.2 ⟨known, .head step further⟩)
  · -- what is left above the next name would lead back here
    obtain ⟨_, back⟩ := memClosure.1 (List.mem_toFinset.1 member)
    rw [nameOfFind found] at back
    exact acyclic (TransGen.head' step back)

theorem rankedAcyclic (acyclic : u.AcyclicAbove candidate) :
    u.Ranked candidate (fun name _ => u.height candidate - u.height name) (u.height candidate) where
  bounded := fun _ _ => Nat.sub_le ..
  passes := by
    intro name d reached found s member i p j a _ _ _
    have falls : u.height s.name < u.height name :=
      heightFalls (acyclic name reached) found (List.mem_map_of_mem member)
    have within := heightWithin reached
    split <;> omega

theorem aboveAcyclic (acyclic : u.AcyclicAbove candidate) : (u.Above candidate).Finite :=
  aboveRanked (rankedAcyclic acyclic)

end Universe

/-! Ranks by size -/

namespace Argument
variable {bindings : Bindings} {a b : Argument} {p : String} {arguments : List Argument} {i : Nat}

mutual
def size : Argument → Nat
  | .unbound | .parameter _ => 1
  | .type _ arguments => sizes arguments + 1
def sizes : List Argument → Nat
  | [] => 0
  | a :: rest => a.size + sizes rest
end

theorem sizeWithin (member : a ∈ arguments) : a.size ≤ sizes arguments := by
  induction arguments with
  | nil => cases member
  | cons first rest ih =>
      rw [sizes]
      rcases List.mem_cons.1 member with same | later
      · rw [same]
        omega
      · have := ih later
        omega

theorem sizePassed (mentioned : p ∈ a.parameters) (bound : bindings p = some b) :
    b.size + (if a = .parameter p then 0 else 1) ≤ (a.substitute bindings).size := by
  induction a using nested with
  | unbound => cases mentioned
  | parameter q =>
      rw [parameters, List.mem_singleton] at mentioned
      simp [substitute, ← mentioned, bound]
  | type name arguments ih =>
      obtain ⟨inner, member, inside⟩ := memParametersType.1 mentioned
      have further := ih inner member inside
      have within := sizeWithin (List.mem_map_of_mem (f := substitute bindings) member)
      have wrapped : Argument.type name arguments ≠ .parameter p := by simp
      rw [substituteType, size, if_neg wrapped]
      omega

end Argument

namespace Universe
variable {u : Universe φ} {candidate name : TypeName} {r : TypeRef} {d : TypeDef φ}

theorem supertypeLifted (path : ReflTransGen u.DirectSupertype r.name name) :
    ∃ s, s.name = name ∧ ReflTransGen u.Supertype r s := by
  induction path with
  | refl => exact ⟨r, rfl, .refl⟩
  | tail _ last ih =>
      obtain ⟨s, named, path⟩ := ih
      obtain ⟨d, found, above⟩ := last
      obtain ⟨t, inside, same⟩ := List.mem_map.1 above
      exact ⟨t.substitute (d.passed s.arguments), same,
        path.tail ⟨d, named ▸ found, List.mem_map_of_mem inside⟩⟩

noncomputable def largest (finite : (u.Above candidate).Finite) (name : TypeName) (i : Nat) : Nat :=
  (finite.toFinset.filter fun r => r.name = name).sup fun r => (r.arguments[i]?.map Argument.size).getD 0

theorem sizeLargest (finite : (u.Above candidate).Finite) (above : r ∈ u.Above candidate) {i : Nat} {a : Argument}
    (place : r.arguments[i]? = some a) : a.size ≤ largest finite r.name i := by
  have member : r ∈ finite.toFinset.filter fun s => s.name = r.name :=
    Finset.mem_filter.2 ⟨finite.mem_toFinset.2 above, rfl⟩
  have within := Finset.le_sup (f := fun s : TypeRef => (s.arguments[i]?.map Argument.size).getD 0) member
  simp only [place, Option.map_some, Option.getD_some] at within
  exact within

theorem rankedFinite (formed : u.WellFormed) (finite : (u.Above candidate).Finite)
    (known : u.find? candidate = some d) :
    u.Ranked candidate (largest finite) (finite.toFinset.sup fun r => Argument.sizes r.arguments) where
  bounded := by
    intro name i
    refine Finset.sup_le fun r member => ?_
    have above := Finset.le_sup (f := fun r : TypeRef => Argument.sizes r.arguments) (Finset.mem_filter.1 member).1
    cases place : r.arguments[i]? with
    | none => exact Nat.zero_le _
    | some a => exact (Argument.sizeWithin (List.mem_of_getElem? place)).trans above
  passes := by
    intro name e reached found t inside i p j a place declaredAt mentioned
    have start : d.selfRef.name = candidate := nameOfFind known
    obtain ⟨s, named, path⟩ := supertypeLifted (start ▸ reached : ReflTransGen u.DirectSupertype d.selfRef.name name)
    -- the reference of this name with the largest argument at the place
    obtain ⟨r, member, same⟩ := Finset.exists_mem_eq_sup (finite.toFinset.filter fun r => r.name = name)
      ⟨s, Finset.mem_filter.2 ⟨finite.mem_toFinset.2 ⟨d, known, path⟩, named⟩⟩
      fun r => (r.arguments[i]?.map Argument.size).getD 0
    obtain ⟨above, ofName⟩ := Finset.mem_filter.1 member
    obtain ⟨c, knownToo, climbs⟩ := finite.mem_toFinset.1 above
    subst ofName
    have full : r.arguments.length = e.parameters.length :=
      filledPath formed (filledSelf knownToo) climbs e found
    obtain ⟨within, _⟩ := List.getElem?_eq_some_iff.1 place
    obtain ⟨b, given⟩ : ∃ b, r.arguments[i]? = some b := ⟨_, List.getElem?_eq_getElem (full ▸ within)⟩
    have bound := TypeDef.passedAt (formed.distinct _ e found) full place given
    have next : t.substitute (e.passed r.arguments) ∈ u.Above candidate :=
      ⟨c, knownToo, climbs.tail ⟨e, found, List.mem_map_of_mem inside⟩⟩
    have passedOn :
        (t.substitute (e.passed r.arguments)).arguments[j]? = some (a.substitute (e.passed r.arguments)) := by
      simp [TypeRef.substitute, declaredAt]
    have largestHere : largest finite r.name i = b.size := by
      rw [largest, same, given]
      rfl
    calc largest finite r.name i + (if a = .parameter p then 0 else 1)
        ≤ (a.substitute (e.passed r.arguments)).size := largestHere ▸ Argument.sizePassed mentioned bound
      _ ≤ largest finite t.name j := sizeLargest finite next passedOn

end Universe
end MetadataIndex
