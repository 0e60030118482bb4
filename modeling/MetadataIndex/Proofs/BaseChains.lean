import MetadataIndex.Proofs.Supertypes
import Mathlib.Data.List.Nodup
import Mathlib.Data.List.Perm.Subperm
import Mathlib.Logic.Function.Iterate

/-! The chain of bases above a type, and the lineage that collects it. On cyclic metadata the chain never
ends, but a universe defines finitely many names, and a definition that comes again brings back what
followed it. So the part before the first repetition holds all that ever comes. The lineage is that part,
and collecting it takes one round for each of its definitions. -/
namespace MetadataIndex
open Relation
variable {φ : Type}

namespace Universe

def baseOf (u : Universe φ) (d : TypeDef φ) : Option (TypeDef φ) := d.base.bind fun r => u.find? r.name

def baseAt (u : Universe φ) (name : TypeName) (i : Nat) : Option (TypeDef φ) :=
  (fun below => below.bind u.baseOf)^[i] (u.find? name)

def BeginsChain (u : Universe φ) (name : TypeName) (entries : List (TypeDef φ)) : Prop :=
  ∀ i, i < entries.length → u.baseAt name i = entries[i]?

variable {u : Universe φ} {name : TypeName} {d e : TypeDef φ} {part entries : List (TypeDef φ)} {i j k : Nat}

theorem baseAtNext : u.baseAt name (i + 1) = (u.baseAt name i).bind u.baseOf :=
  Function.iterate_succ_apply' ..

theorem baseAtLater : u.baseAt name (i + k) = (fun below => below.bind u.baseOf)^[k] (u.baseAt name i) := by
  rw [baseAt, Nat.add_comm, Function.iterate_add_apply, baseAt]

theorem baseAtEnded (ended : u.baseAt name i = none) : u.baseAt name (i + k) = none := by
  rw [baseAtLater, ended]
  exact Function.iterate_fixed rfl k

theorem baseAtAgain (same : u.baseAt name i = u.baseAt name j) : u.baseAt name (i + k) = u.baseAt name (j + k) := by
  rw [baseAtLater, same, ← baseAtLater]

theorem baseOfIff : u.baseOf d = some e ↔ u.find? e.name = some e ∧ e.name ∈ d.baseNames := by
  simp only [baseOf, Option.bind_eq_some_iff, TypeDef.baseNames, List.mem_map, Option.mem_toList]
  constructor
  · rintro ⟨r, base, found⟩
    have same := nameOfFind found
    exact ⟨same ▸ found, r, base, same.symm⟩
  · rintro ⟨found, r, base, same⟩
    exact ⟨r, base, same ▸ found⟩

theorem baseAtKnown (reached : u.baseAt name i = some d) : u.find? d.name = some d := by
  cases i with
  | zero =>
      have found : u.find? name = some d := reached
      rwa [nameOfFind found]
  | succ i =>
      rw [baseAtNext] at reached
      obtain ⟨lower, _, base⟩ := Option.bind_eq_some_iff.1 reached
      exact (baseOfIff.1 base).1

theorem baseAtFrom (reached : u.baseAt name i = some d) : u.baseAt name (i + k) = u.baseAt d.name k := by
  rw [baseAtLater, reached, ← baseAtKnown reached, baseAt]

theorem chainLeads (reached : u.baseAt name i = some d) :
    ReflTransGen (u.defs.Leads TypeDef.baseNames) name d.name := by
  induction i generalizing d with
  | zero => rw [nameOfFind reached]
  | succ i ih =>
      rw [baseAtNext] at reached
      obtain ⟨lower, below, base⟩ := Option.bind_eq_some_iff.1 reached
      exact (ih below).tail ⟨lower, baseAtKnown below, (baseOfIff.1 base).2⟩

theorem leadsChain {above : TypeName} (path : ReflTransGen (u.defs.Leads TypeDef.baseNames) name above)
    (found : u.find? above = some d) : ∃ i, u.baseAt name i = some d := by
  induction path generalizing d with
  | refl => exact ⟨0, found⟩
  | tail _ step ih =>
      obtain ⟨lower, foundLower, base⟩ := step
      obtain ⟨i, below⟩ := ih foundLower
      have same := nameOfFind found
      refine ⟨i + 1, ?_⟩
      rw [baseAtNext, below]
      exact baseOfIff.2 ⟨same ▸ found, same ▸ base⟩

theorem memLineageIff : d ∈ u.baseLineage name ↔ ∃ i, u.baseAt name i = some d := by
  constructor
  · intro member
    obtain ⟨found, path⟩ := OrderedSet.memExplore.1 member
    exact leadsChain path found
  · intro ⟨i, reached⟩
    exact OrderedSet.memExplore.2 ⟨baseAtKnown reached, chainLeads reached⟩

theorem lineageNamesNodup (u : Universe φ) (name : TypeName) : ((u.baseLineage name).map TypeDef.name).Nodup :=
  OrderedSet.keysNodup _

theorem lineageBegins (u : Universe φ) (name : TypeName) : u.BeginsChain name (u.baseLineage name) := by
  intro i
  induction i with
  | zero =>
      intro below
      cases found : u.find? name with
      | none =>
          obtain ⟨k, reached⟩ := memLineageIff.1 (List.getElem_mem below)
          have ended : u.baseAt name (0 + k) = none := baseAtEnded found
          rw [Nat.zero_add, reached] at ended
          cases ended
      | some d =>
          rw [← List.head?_eq_getElem?, lineageHead found]
          exact found
  | succ i ih =>
      intro below
      have link := lineageLinked.getElem i below
      have before : u.baseAt name i = some (u.baseLineage name)[i] :=
        (ih (by omega)).trans (List.getElem?_eq_getElem _)
      rw [baseAtNext, before, List.getElem?_eq_getElem below]
      exact baseOfIff.2 ⟨memLineage (List.getElem_mem below), link⟩

theorem beginsPrefix (first : u.BeginsChain name part) (second : u.BeginsChain name entries)
    (short : part.length ≤ entries.length) : part <+: entries := by
  refine List.prefix_iff_getElem?.2 fun i below => ?_
  rw [← second i (by omega), first i below, List.getElem?_eq_getElem below]

theorem beginsLineage (begins : u.BeginsChain name part) (distinct : part.Nodup) : part <+: u.baseLineage name := by
  have within : part ⊆ u.baseLineage name := by
    intro d member
    obtain ⟨i, below, same⟩ := List.mem_iff_getElem.1 member
    refine memLineageIff.2 ⟨i, ?_⟩
    rw [begins i below, List.getElem?_eq_getElem below, same]
  exact beginsPrefix begins (lineageBegins u name) (distinct.subperm within).length_le

theorem lineageBounded (u : Universe φ) (name : TypeName) : (u.baseLineage name).length ≤ u.defs.size := by
  have distinct : (u.baseLineage name).Nodup := .of_map TypeDef.name (lineageNamesNodup u name)
  have within : u.baseLineage name ⊆ u.defs.toList := fun _ member => memOfFind (memLineage member)
  exact (distinct.subperm within).length_le

theorem chainBeyond (u : Universe φ) (name : TypeName) :
    u.baseAt name (u.baseLineage name).length = none ∨
      ∃ back < (u.baseLineage name).length,
        ∀ k, u.baseAt name ((u.baseLineage name).length + k) = u.baseAt name (back + k) := by
  cases next : u.baseAt name (u.baseLineage name).length with
  | none => exact .inl rfl
  | some d =>
      obtain ⟨back, below, same⟩ := List.mem_iff_getElem.1 (memLineageIff.2 ⟨_, next⟩)
      refine .inr ⟨back, below, fun k => baseAtAgain ?_⟩
      rw [next, lineageBegins u name back below, List.getElem?_eq_getElem below, same]

theorem lineageAbove (member : d ∈ u.baseLineage name) : u.baseLineage d.name ⊆ u.baseLineage name := by
  intro e above
  obtain ⟨i, reached⟩ := memLineageIff.1 member
  obtain ⟨k, further⟩ := memLineageIff.1 above
  exact memLineageIff.2 ⟨i + k, (baseAtFrom reached).trans further⟩

theorem retrievableIff :
    u.isRetrievableAnnotationType name = true ↔
      (∃ d, u.find? name = some d ∧ d.kind = .annotationType) ∧
        ∃ i d, u.baseAt name i = some d ∧ d.retrievable = true := by
  simp only [isRetrievableAnnotationType, isAnnotationType, Bool.and_eq_true, Option.any_eq_true,
    decide_eq_true_eq, List.any_eq_true, memLineageIff]
  refine and_congr_right fun _ => ?_
  constructor
  · intro ⟨d, ⟨i, reached⟩, marked⟩
    exact ⟨i, d, reached, marked⟩
  · intro ⟨i, d, reached, marked⟩
    exact ⟨d, ⟨i, reached⟩, marked⟩

end Universe

structure BaseWalk (φ : Type) where
  collected : List (TypeDef φ)
  next : Option (TypeDef φ)

namespace BaseWalk
variable {u : Universe φ} {name : TypeName} {walk : BaseWalk φ} {k : Nat}

def step (u : Universe φ) (walk : BaseWalk φ) : Option (BaseWalk φ) :=
  match walk.next with
  | none => none
  | some d =>
      if d.name ∈ walk.collected.map TypeDef.name then none
      else some ⟨walk.collected ++ [d], u.baseOf d⟩

def Goes (u : Universe φ) (walk next : BaseWalk φ) : Prop := walk.step u = some next

def after (u : Universe φ) (name : TypeName) (k : Nat) : BaseWalk φ := ⟨(u.baseLineage name).take k, u.baseAt name k⟩

theorem afterAll : after u name (u.baseLineage name).length =
    ⟨u.baseLineage name, u.baseAt name (u.baseLineage name).length⟩ := by
  rw [after, List.take_length]

theorem roundTaken (below : k < (u.baseLineage name).length) :
    (after u name k).step u = some (after u name (k + 1)) := by
  have next : u.baseAt name k = some (u.baseLineage name)[k] :=
    (u.lineageBegins name k below).trans (List.getElem?_eq_getElem below)
  have fresh : (u.baseLineage name)[k].name ∉ ((u.baseLineage name).take k).map TypeDef.name := by
    have distinct := u.lineageNamesNodup name
    -- the definition at `k` stands in the part that was not taken, which shares no name with the other one
    rw [← List.take_append_drop k (u.baseLineage name), List.map_append] at distinct
    intro old
    refine (List.nodup_append.1 distinct).2.2 _ old _ ?_ rfl
    rw [List.drop_eq_getElem_cons below]
    exact List.mem_map_of_mem (List.mem_cons_self ..)
  simp only [after, step, next, if_neg fresh, Universe.baseAtNext, List.take_append_getElem below, Option.bind_some]

theorem roundsOver (u : Universe φ) (name : TypeName) : (after u name (u.baseLineage name).length).step u = none := by
  rw [afterAll]
  cases next : u.baseAt name (u.baseLineage name).length with
  | none => rfl
  | some d => exact if_pos (List.mem_map_of_mem (Universe.memLineageIff.2 ⟨_, next⟩))

theorem roundsReached (enough : k ≤ (u.baseLineage name).length) :
    ReflTransGen (Goes u) ⟨[], u.find? name⟩ (after u name k) := by
  induction k with
  | zero => exact .refl
  | succ k ih => exact (ih (by omega)).tail (roundTaken enough)

theorem roundsOnly (path : ReflTransGen (Goes u) ⟨[], u.find? name⟩ walk) :
    ∃ k ≤ (u.baseLineage name).length, walk = after u name k := by
  -- a round is a function of the walk, so each state met is the one that `roundTaken` tells
  induction path with
  | refl => exact ⟨0, Nat.zero_le _, rfl⟩
  | @tail before next _ round ih =>
      obtain ⟨k, enough, rfl⟩ := ih
      rcases Nat.lt_or_eq_of_le enough with below | last
      · have taken := (roundTaken below).symm.trans round
        exact ⟨k + 1, below, (Option.some.inj taken).symm⟩
      · subst last
        cases (roundsOver u name).symm.trans round

end BaseWalk

structure Universe.CollectsBases (u : Universe φ) (name : TypeName) : Prop where
  rounds : ∀ walk, ReflTransGen (BaseWalk.Goes u) ⟨[], u.find? name⟩ walk ↔
    ∃ k ≤ (u.baseLineage name).length, walk = ⟨(u.baseLineage name).take k, u.baseAt name k⟩
  ended : BaseWalk.step u ⟨u.baseLineage name, u.baseAt name (u.baseLineage name).length⟩ = none
  bounded : (u.baseLineage name).length ≤ u.defs.size
  distinct : ((u.baseLineage name).map TypeDef.name).Nodup
  begins : u.BeginsChain name (u.baseLineage name)
  longest : ∀ part, u.BeginsChain name part → part.Nodup → part <+: u.baseLineage name
  everything : ∀ d, d ∈ u.baseLineage name ↔ ∃ i, u.baseAt name i = some d
  beyond : u.baseAt name (u.baseLineage name).length = none ∨ ∃ back < (u.baseLineage name).length,
    ∀ k, u.baseAt name ((u.baseLineage name).length + k) = u.baseAt name (back + k)
  retrievable : u.isRetrievableAnnotationType name = true ↔
    (∃ d, u.find? name = some d ∧ d.kind = .annotationType) ∧
      ∃ i d, u.baseAt name i = some d ∧ d.retrievable = true
  above : ∀ d ∈ u.baseLineage name, u.baseLineage d.name ⊆ u.baseLineage name

/-- Following bases ends for every name, on cyclic metadata too, and has then met all that the chain holds. -/
theorem Universe.basesCollected (u : Universe φ) (name : TypeName) : u.CollectsBases name where
  rounds := by
    intro walk
    constructor
    · exact BaseWalk.roundsOnly
    · intro ⟨k, enough, same⟩
      exact same ▸ BaseWalk.roundsReached enough
  ended := BaseWalk.afterAll ▸ BaseWalk.roundsOver u name
  bounded := lineageBounded u name
  distinct := lineageNamesNodup u name
  begins := lineageBegins u name
  longest := fun _ => beginsLineage
  everything := fun _ => memLineageIff
  beyond := chainBeyond u name
  retrievable := retrievableIff
  above := fun _ => lineageAbove

def lassoed : Universe := .ofDefs [
  { name := "Start", owner := "M", kind := .annotationType, base := some ⟨"Round", []⟩ },
  { name := "Round", owner := "M", kind := .annotationType, base := some ⟨"Back", []⟩ },
  { name := "Back", owner := "M", kind := .classType, base := some ⟨"Round", []⟩, retrievable := true }]

example : (lassoed.baseLineage "Start").map TypeDef.name = ["Start", "Round", "Back"] ∧
    lassoed.isRetrievableAnnotationType "Start" = true := by decide +kernel

end MetadataIndex
