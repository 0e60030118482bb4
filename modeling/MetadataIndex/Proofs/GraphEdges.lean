import MetadataIndex.Proofs.Union
import MetadataIndex.Proofs.Reachability
import MetadataIndex.SubtypeGraph
import Mathlib.Data.List.Nodup

/-! A graph built from edges has one node for each name and one link for each pair of names that
occur in them, whatever the kinds of the edges. Adding an edge changes the row of its base alone.
The names reached from a node are those that the links lead to. -/
namespace MetadataIndex
open Std Relation

namespace OrderedSet
variable {α κ : Type} [Ord κ] [TransOrd κ] [LawfulEqOrd κ] {key : α → κ} {s : OrderedSet key} {a : α}
  {k : κ}

theorem keysPutList : (s.put a).keys = (s.insert a).keys := by
  unfold put
  split
  · rfl
  · next i found =>
    have place : s.keys[i]? = some (key a) := positionIff.1 found
    rw [insertPresent (List.mem_of_getElem? place)]
    obtain ⟨below, same⟩ := List.getElem?_eq_some_iff.1 place
    change (s.items.setIfInBounds i a).toList.map key = s.keys
    rw [Array.toList_setIfInBounds, List.map_set, ← same]
    exact List.set_getElem_self below

theorem keysPut : k ∈ (s.put a).keys ↔ k ∈ s.keys ∨ k = key a := by
  rw [keysPutList, keysInsert]

end OrderedSet

namespace SubtypeGraph
variable {g : SubtypeGraph} {base derived name : TypeName} {edges more : List Edge}

theorem namesEnsure : name ∈ (g.ensureNode derived).names ↔ name ∈ g.names ∨ name = derived :=
  OrderedSet.keysInsert

theorem belowEnsure : (g.ensureNode derived).below name = g.below name := by
  rw [below, ensureNode, OrderedSet.findInsert]
  cases found : g.nodes.find? name with
  | some n => simp [below, found]
  | none =>
      by_cases same : derived = name
      · simp [below, found, same]
      · simp [below, found, same]

theorem namesAddEdge :
    name ∈ (g.addEdge base derived).2.names ↔ name ∈ g.names ∨ name = base ∨ name = derived := by
  have both : name ∈ ((g.ensureNode base).ensureNode derived).names ↔
      name ∈ g.names ∨ name = base ∨ name = derived := by
    rw [namesEnsure, namesEnsure, or_assoc]
  unfold addEdge
  simp only
  split
  · exact both
  · refine (OrderedSet.keysPut (s := ((g.ensureNode base).ensureNode derived).nodes)).trans ?_
    change name ∈ ((g.ensureNode base).ensureNode derived).names ∨ name = base ↔ _
    rw [both]
    constructor
    · intro member
      rcases member with known | same
      · exact known
      · exact .inr (.inl same)
    · exact .inl

theorem belowAddEdge :
    (g.addEdge base derived).2.below name =
      if base = name then (g.below name).insert derived else g.below name := by
  have unchanged : ((g.ensureNode base).ensureNode derived).below name = g.below name := by
    rw [belowEnsure, belowEnsure]
  unfold addEdge
  simp only [belowEnsure]
  split
  · next present =>
    rw [unchanged]
    split
    · next same =>
      subst same
      exact (OrderedSet.insertPresent (OrderedSet.containsIff.1 present)).symm
    · rfl
  · rw [below, OrderedSet.findPut]
    split
    · next same =>
      subst same
      rfl
    · exact unchanged

theorem addEdgesAppend : g.addEdges (edges ++ more) = (g.addEdges edges).addEdges more := by
  simp [addEdges]

theorem namesAddEdges :
    name ∈ (g.addEdges edges).names ↔ name ∈ g.names ∨ ∃ e ∈ edges, name = e.base ∨ name = e.derived := by
  induction edges generalizing g with
  | nil => simp [addEdges]
  | cons e rest ih =>
      rw [addEdges, List.foldl_cons, ← addEdges, ih, namesAddEdge, or_assoc]
      simp only [List.mem_cons, exists_eq_or_imp]

theorem memBelowAddEdges :
    name ∈ ((g.addEdges edges).below base).toList ↔
      name ∈ (g.below base).toList ∨ ∃ e ∈ edges, e.base = base ∧ e.derived = name := by
  induction edges generalizing g with
  | nil => simp [addEdges]
  | cons e rest ih =>
      rw [addEdges, List.foldl_cons, ← addEdges, ih, belowAddEdge]
      simp only [List.mem_cons, exists_eq_or_imp, ← or_assoc]
      refine or_congr_left ?_
      split
      · next same =>
        rw [Distinct.memInsert]
        simp only [same, true_and, eq_comm]
      · next differ => simp [differ]

theorem namesOfEdges : name ∈ (ofEdges edges).names ↔ ∃ e ∈ edges, name = e.base ∨ name = e.derived := by
  rw [ofEdges, namesAddEdges]
  exact ⟨fun member => member.elim (fun none => by cases none) id, .inr⟩

theorem memBelowOfEdges :
    name ∈ ((ofEdges edges).below base).toList ↔ ∃ e ∈ edges, e.base = base ∧ e.derived = name := by
  rw [ofEdges, memBelowAddEdges]
  exact ⟨fun member => member.elim (fun none => by cases none) id, .inr⟩

theorem leadsBelow : g.nodes.Leads SubtypeNode.latestFirst base name ↔ name ∈ (g.below base).toList := by
  rw [below]
  constructor
  · intro ⟨n, found, member⟩
    rw [found]
    exact List.mem_reverse.1 member
  · intro member
    cases found : g.nodes.find? base with
    | none => simp [found] at member
    | some n =>
        rw [found] at member
        exact ⟨n, found, List.mem_reverse.2 member⟩

theorem memReached :
    name ∈ g.reached base ↔
      name ∈ g.names ∧ ReflTransGen (fun b d => d ∈ (g.below b).toList) base name := by
  have same : g.nodes.Leads SubtypeNode.latestFirst = fun b d => d ∈ (g.below b).toList := by
    funext b d
    exact propext leadsBelow
  rw [reached, OrderedSet.keysExplore, same, names]

/-! Links are the pairs of a node and a direct subtype. -/

def links (g : SubtypeGraph) : List (TypeName × TypeName) :=
  g.nodes.toList.flatMap fun n => n.direct.toList.map (n.name, ·)

theorem memLinks : (base, name) ∈ g.links ↔ name ∈ (g.below base).toList := by
  simp only [links, List.mem_flatMap, List.mem_map, Prod.mk.injEq]
  constructor
  · intro ⟨n, member, d, inside, same, sameDerived⟩
    have found := OrderedSet.findIff.2 ⟨member, same⟩
    subst sameDerived
    rw [below, found]
    exact inside
  · intro member
    rw [below] at member
    cases found : g.nodes.find? base with
    | none => simp [found] at member
    | some n =>
        rw [found] at member
        obtain ⟨inside, same⟩ := OrderedSet.findIff.1 found
        exact ⟨n, inside, name, member, same, rfl⟩

theorem linksNodup (g : SubtypeGraph) : g.links.Nodup := by
  refine List.nodup_flatMap.2 ⟨fun n _ => ?_, ?_⟩
  · have distinct : n.direct.toList.Nodup := by
      rw [← Distinct.keysEqToList]
      exact n.direct.keysNodup
    exact distinct.map fun d e same => (Prod.mk.inj same).2
  · refine List.Pairwise.imp ?_ (List.pairwise_map.1 g.nodes.keysNodup)
    intro m n differ pair inM inN
    obtain ⟨_, _, sameM⟩ := List.mem_map.1 inM
    obtain ⟨_, _, sameN⟩ := List.mem_map.1 inN
    exact differ ((congrArg Prod.fst sameM).trans (congrArg Prod.fst sameN).symm)

theorem edgeCountLinks (g : SubtypeGraph) : g.edgeCount = g.links.length := by
  have counted : ∀ ns : List SubtypeNode, total (fun n => n.direct.size) ns =
      (ns.flatMap fun n => n.direct.toList.map (n.name, ·)).length := by
    intro ns
    induction ns with
    | nil => rfl
    | cons n rest ih =>
        rw [total, ih, List.flatMap_cons, List.length_append, List.length_map, OrderedSet.sizeEq]
  exact counted g.nodes.toList

end SubtypeGraph
end MetadataIndex
