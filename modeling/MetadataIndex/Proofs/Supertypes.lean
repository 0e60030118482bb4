import MetadataIndex.Derivation
import MetadataIndex.Proofs.Reachability
import Mathlib.Data.List.Chain

/-! The supertype relation of live metadata, and what the two walks over it collect. The closure is
the set of definitions reached by direct steps; the lineage is a chain of base steps. Both sides of
an edge that either walk yields are therefore a definition and one of its direct supertypes. -/
namespace MetadataIndex
open Std Relation
variable {φ : Type}

namespace OrderedSet
variable {α κ : Type} [Ord κ] [TransOrd κ] [LawfulEqOrd κ] {key : α → κ} {table seen : OrderedSet key}
  {targets : α → List κ} {pending : List κ}

def Linked (key : α → κ) (targets : α → List κ) (entries : List α) : Prop :=
  entries.IsChain fun a b => key b ∈ targets a

def Follows (targets : α → List κ) (entries : List α) (pending : List κ) : Prop :=
  pending.length ≤ 1 ∧ ∀ k ∈ pending, ∀ last ∈ entries.getLast?, k ∈ targets last

omit [Ord κ] [TransOrd κ] [LawfulEqOrd κ] in
theorem followsSkip {entries : List α} {k : κ} (h : Follows targets entries (k :: pending)) :
    Follows targets entries pending :=
  ⟨Nat.le_of_succ_le h.1, fun l member => h.2 l (List.mem_cons_of_mem _ member)⟩

theorem exploreLinked (single : ∀ a, (targets a).length ≤ 1) (linked : Linked key targets seen.toList)
    (follows : Follows targets seen.toList pending) :
    Linked key targets (table.explore targets .depthFirst seen pending).toList := by
  fun_induction table.explore targets .depthFirst seen pending with
  | case1 seen => exact linked
  | case2 seen k pending visited ih => exact ih linked (followsSkip follows)
  | case3 seen k pending fresh missing ih => exact ih linked (followsSkip follows)
  | case4 seen k pending fresh a found ih =>
      obtain ⟨short, next⟩ := follows
      have same := (findIff.1 found).2
      have nothing : pending = [] := List.eq_nil_of_length_eq_zero (by simpa using short)
      have grown : (seen.insert a).toList = seen.toList ++ [a] :=
        insertFresh fun old => fresh (containsIff.2 (same ▸ old))
      subst nothing
      refine ih ?_ ⟨?_, ?_⟩
      · rw [grown]
        refine List.isChain_append.2 ⟨linked, .singleton a, ?_⟩
        intro last atLast b atHead
        cases atHead
        exact same ▸ next k (List.mem_cons_self ..) last atLast
      · simpa [Order.enqueue] using single a
      · intro l member last atLast
        rw [grown, List.getLast?_append, List.getLast?_singleton] at atLast
        cases atLast
        simpa [Order.enqueue] using member

theorem explorePrefix {order : Order} :
    seen.toList <+: (table.explore targets order seen pending).toList := by
  fun_induction table.explore targets order seen pending with
  | case1 seen => exact List.prefix_refl _
  | case2 seen k pending visited ih => exact ih
  | case3 seen k pending fresh missing ih => exact ih
  | case4 seen k pending fresh a found ih =>
      have same := (findIff.1 found).2
      have grown : (seen.insert a).toList = seen.toList ++ [a] :=
        insertFresh fun old => fresh (containsIff.2 (same ▸ old))
      exact (grown ▸ List.prefix_append _ _ : seen.toList <+: (seen.insert a).toList).trans ih

end OrderedSet

namespace Universe
variable {u v : Universe φ} {name above : TypeName} {d : TypeDef φ}

def DirectSupertype (u : Universe φ) (name above : TypeName) : Prop :=
  ∃ d, u.find? name = some d ∧ above ∈ d.supertypeNames

def Derives (u : Universe φ) : TypeName → TypeName → Prop := TransGen u.DirectSupertype

theorem memClosure :
    d ∈ u.supertypeClosure name ↔
      u.find? d.name = some d ∧ ReflTransGen u.DirectSupertype name d.name := OrderedSet.memExplore

theorem memLineage (member : d ∈ u.baseLineage name) : u.find? d.name = some d :=
  (OrderedSet.memExplore.1 member).1

theorem lineageHead (found : u.find? name = some d) : (u.baseLineage name).head? = some d := by
  have unseen : ¬ (∅ : OrderedSet (@TypeDef.name φ)).contains name = true := Bool.false_ne_true
  obtain ⟨rest, whole⟩ : [d] <+: u.baseLineage name := by
    rw [baseLineage, OrderedSet.exploreFound unseen found]
    exact (OrderedSet.explorePrefix : ((∅ : OrderedSet (@TypeDef.name φ)).insert d).toList <+: _)
  rw [← whole]
  rfl

theorem singleBase (d : TypeDef φ) : d.baseNames.length ≤ 1 := by
  cases h : d.base <;> simp [TypeDef.baseNames, h]

theorem lineageLinked : OrderedSet.Linked TypeDef.name TypeDef.baseNames (u.baseLineage name) := by
  refine OrderedSet.exploreLinked singleBase .nil ⟨Nat.le_refl 1, ?_⟩
  intro k member last atLast
  cases atLast

theorem directSupertypeOfLookup (same : ∀ n, u.find? n = v.find? n) :
    u.DirectSupertype = v.DirectSupertype := by
  funext a b
  simp only [DirectSupertype, same]

end Universe

theorem TypeDef.memEdges {d : TypeDef φ} {e : Edge} :
    e ∈ d.edges → e.derived = d.name ∧ e.base ∈ d.supertypeNames := by
  intro member
  simp only [edges, List.mem_append, List.mem_map] at member
  rcases member with ⟨r, inside, rfl⟩ | ⟨r, inside, rfl⟩
  · exact ⟨rfl, List.mem_map.2 ⟨r, List.mem_append_left _ inside, rfl⟩⟩
  · exact ⟨rfl, List.mem_map.2 ⟨r, List.mem_append_right _ inside, rfl⟩⟩

theorem TypeDef.edgeTo {d : TypeDef φ} {above : TypeName} (member : above ∈ d.supertypeNames) :
    ∃ kind, ⟨above, d.name, kind⟩ ∈ d.edges := by
  obtain ⟨r, inside, rfl⟩ := List.mem_map.1 member
  rcases List.mem_append.1 inside with base | interface
  · exact ⟨.inherits, List.mem_append_left _ (List.mem_map.2 ⟨r, base, rfl⟩)⟩
  · exact ⟨.implements, List.mem_append_right _ (List.mem_map.2 ⟨r, interface, rfl⟩)⟩

theorem TypeDef.supertypeOfBase {d : TypeDef φ} {above : TypeName} (member : above ∈ d.baseNames) :
    above ∈ d.supertypeNames := by
  obtain ⟨r, inside, rfl⟩ := List.mem_map.1 member
  exact List.mem_map.2 ⟨r, List.mem_append_left _ inside, rfl⟩

theorem linkedZip {α : Type} {linked : α → α → Prop} {values : List α} (chain : values.IsChain linked)
    {pair : α × α} (member : pair ∈ values.zip values.tail) :
    pair.1 ∈ values ∧ linked pair.1 pair.2 := by
  induction chain with
  | nil => cases member
  | singleton a => cases member
  | @cons_cons a b rest step chain ih =>
      rcases List.mem_cons.1 member with same | later
      · exact same ▸ ⟨List.mem_cons_self .., step⟩
      · obtain ⟨inside, link⟩ := ih later
        exact ⟨List.mem_cons_of_mem _ inside, link⟩

theorem zipReaches {α β : Type} {linked : β → β → Prop} {f : α → β} {first a : α} {rest : List α}
    (steps : ∀ pair ∈ (first :: rest).zip rest, ReflTransGen linked (f pair.2) (f pair.1))
    (member : a ∈ first :: rest) : ReflTransGen linked (f a) (f first) := by
  induction rest generalizing first with
  | nil => rw [List.mem_singleton.1 member]
  | cons next rest ih =>
      rcases List.mem_cons.1 member with same | later
      · rw [same]
      · have further := ih (fun pair inside => steps pair (List.mem_cons_of_mem _ inside)) later
        exact further.trans (steps (first, next) (List.mem_cons_self ..))

namespace Universe
variable {u : Universe φ} {e : Edge}

theorem memLineageEdges {owner : TypeDef φ} (member : e ∈ u.lineageEdges owner) :
    (u.withFirst owner).DirectSupertype e.derived e.base := by
  obtain ⟨d, inside, edge⟩ := List.mem_flatMap.1 member
  obtain ⟨derived, above⟩ := TypeDef.memEdges edge
  exact ⟨d, derived ▸ (memClosure.1 inside).1, above⟩

theorem edgeInLineage {owner : TypeDef φ} {name above : TypeName}
    (path : ReflTransGen (u.withFirst owner).DirectSupertype owner.name name)
    (step : (u.withFirst owner).DirectSupertype name above) :
    ∃ kind, ⟨above, name, kind⟩ ∈ u.lineageEdges owner := by
  obtain ⟨d, found, above⟩ := step
  have same := nameOfFind found
  subst same
  obtain ⟨kind, edge⟩ := TypeDef.edgeTo above
  exact ⟨kind, List.mem_flatMap.2 ⟨d, memClosure.2 ⟨found, path⟩, edge⟩⟩

theorem memMarkerEdges {marker : TypeName} (member : e ∈ u.markerEdges marker) :
    u.DirectSupertype e.derived e.base := by
  obtain ⟨pair, inside, rfl⟩ := List.mem_map.1 member
  obtain ⟨derived, link⟩ := linkedZip lineageLinked inside
  exact ⟨pair.1, memLineage derived, TypeDef.supertypeOfBase link⟩

theorem findWithKnown {owner : TypeDef φ} (known : u.find? owner.name = some owner) (name : TypeName) :
    (u.withFirst owner).find? name = u.find? name := by
  rw [findWithFirst]
  split
  · next same => rw [← same, known]
  · rfl

end Universe
end MetadataIndex
