import MetadataIndex.Proofs.FirstOccurrences
import MetadataIndex.Proofs.GraphEdges
import Mathlib.Data.Finset.Card
import Mathlib.Data.String.Basic

/-! How a graph built from edges numbers its nodes and lists its links. Names are numbered as they first
occur, the base of an edge before the derived name, and keep their number. Each node lists the distinct
names derived from it, the latest first, and an edge is new when no earlier one had its two names. -/
namespace MetadataIndex
open Std

namespace Edge

def ends (e : Edge) : List TypeName := [e.base, e.derived]

def pair (e : Edge) : TypeName × TypeName := (e.base, e.derived)

def derivedFrom (edges : List Edge) (base : TypeName) : List TypeName :=
  (edges.filter fun e => e.base = base).map derived

theorem derivedFromAppend (edges more : List Edge) (base : TypeName) :
    derivedFrom (edges ++ more) base = derivedFrom edges base ++ derivedFrom more base := by
  simp [derivedFrom]

theorem memDerivedFrom {edges : List Edge} {base name : TypeName} :
    name ∈ derivedFrom edges base ↔ ∃ e ∈ edges, e.base = base ∧ e.derived = name := by
  simp [derivedFrom, and_assoc]

end Edge

namespace SubtypeGraph
variable {g : SubtypeGraph} {base derived name : TypeName} {edges more : List Edge} {e : Edge} {i : Nat}

def nameAt? (g : SubtypeGraph) (i : Nat) : Option TypeName := g.names[i]?

theorem ensureNames (g : SubtypeGraph) (name : TypeName) :
    (g.ensureNode name).names = if name ∈ g.names then g.names else g.names ++ [name] := by
  change (g.nodes.insert { name }).keys = _
  split
  · next known => rw [OrderedSet.insertPresent known, names]
  · next fresh =>
    rw [OrderedSet.keys, OrderedSet.insertFresh fresh, List.map_append]
    rfl

-- the row that is put belongs to a node that is there already
theorem addEdgeNames : (g.addEdge base derived).2.names = ((g.ensureNode base).ensureNode derived).names := by
  have known : base ∈ ((g.ensureNode base).ensureNode derived).names := namesEnsure.2 (.inl (namesEnsure.2 (.inr rfl)))
  unfold addEdge
  simp only
  split
  · rfl
  · exact OrderedSet.keysPutList.trans (congrArg OrderedSet.keys (OrderedSet.insertPresent known))

theorem addEdgeNew : (g.addEdge base derived).1 = true ↔ derived ∉ (g.below base).toList := by
  have same : ((g.ensureNode base).ensureNode derived).below base = g.below base := by
    rw [belowEnsure, belowEnsure]
  unfold addEdge
  simp only [same]
  rw [← Distinct.keysEqToList, ← OrderedSet.containsIff]
  split
  · next old => simp [old]
  · next new => simp [new]

theorem ofEdgesSnoc (edges : List Edge) (last : Edge) :
    ofEdges (edges ++ [last]) = ((ofEdges edges).addEdge last.base last.derived).2 := addEdgesAppend

theorem namesInOrder (edges : List Edge) : (ofEdges edges).names = firstOccurrences (edges.flatMap Edge.ends) := by
  induction edges using List.reverseRecOn with
  | nil => rfl
  | append_singleton edges last ih =>
      have ends : (edges ++ [last]).flatMap Edge.ends =
          (edges.flatMap Edge.ends ++ [last.base]) ++ [last.derived] := by simp [Edge.ends]
      have base : ((ofEdges edges).ensureNode last.base).names =
          firstOccurrences (edges.flatMap Edge.ends ++ [last.base]) := by
        rw [ensureNames, ih, firstOccurrencesSnoc]
        simp only [memFirstOccurrences]
      rw [ofEdgesSnoc, ends, firstOccurrencesSnoc, addEdgeNames, ensureNames, base]
      simp only [memFirstOccurrences]

theorem belowInOrder (edges : List Edge) (base : TypeName) :
    ((ofEdges edges).below base).toList = firstOccurrences (Edge.derivedFrom edges base) := by
  have kept : (ofEdges edges).below base = .ofList id (Edge.derivedFrom edges base) := by
    induction edges using List.reverseRecOn with
    | nil => rfl
    | append_singleton edges last ih =>
        rw [ofEdgesSnoc, belowAddEdge, ih, Edge.derivedFromAppend, OrderedSet.ofListAppend]
        by_cases same : last.base = base
        · simp [same, Edge.derivedFrom, OrderedSet.insertAll]
        · simp [same, Edge.derivedFrom, OrderedSet.insertAll]
  rw [kept, firstOccurrences]

theorem positionName : g.position? name = some i ↔ g.nameAt? i = some name := OrderedSet.positionIff

theorem positionKnown : (g.position? name).isSome = true ↔ name ∈ g.names := by
  rw [Option.isSome_iff_exists, List.mem_iff_getElem?]
  exact exists_congr fun i => positionName

theorem directListed :
    g.directSubtypes? name = if name ∈ g.names then some (g.below name).toList.reverse else none := by
  rw [directSubtypes?, below]
  cases found : g.nodes.find? name with
  | none =>
      have unknown : name ∉ g.names := OrderedSet.findNone.1 found
      rw [if_neg unknown, Option.map_none]
  | some n =>
      have known : name ∈ g.names := by
        obtain ⟨member, same⟩ := OrderedSet.findIff.1 found
        exact List.mem_map.2 ⟨n, member, same⟩
      rw [if_pos known]
      rfl

theorem nodeCountNames (g : SubtypeGraph) : g.nodeCount = g.names.length := by
  rw [nodeCount, OrderedSet.sizeEq, names, OrderedSet.keys, List.length_map]

theorem distinctCount {α : Type} [DecidableEq α] {kept values : List α} (distinct : kept.Nodup)
    (same : ∀ a, a ∈ kept ↔ a ∈ values) : kept.length = values.toFinset.card := by
  have equal : kept.toFinset = values.toFinset := by
    ext a
    rw [List.mem_toFinset, List.mem_toFinset, same]
  rw [← List.toFinset_card_of_nodup distinct, equal]

theorem countNames (edges : List Edge) : (ofEdges edges).nodeCount = (edges.flatMap Edge.ends).toFinset.card := by
  rw [nodeCountNames, namesInOrder]
  exact distinctCount (firstOccurrencesNodup _) fun _ => memFirstOccurrences

theorem countPairs (edges : List Edge) : (ofEdges edges).edgeCount = (edges.map Edge.pair).toFinset.card := by
  rw [edgeCountLinks]
  refine distinctCount (linksNodup _) fun (base, name) => ?_
  rw [memLinks, memBelowOfEdges]
  simp [Edge.pair]

theorem positionsOrdered {name other : TypeName} {i j : Nat} (first : (ofEdges edges).position? name = some i)
    (second : (ofEdges edges).position? other = some j) (before : i < j) :
    (edges.flatMap Edge.ends).idxOf name < (edges.flatMap Edge.ends).idxOf other := by
  have ordered := firstOccurrencesOrdered (edges.flatMap Edge.ends)
  rw [← namesInOrder] at ordered
  obtain ⟨belowI, atI⟩ := List.getElem?_eq_some_iff.1 (positionName.1 first)
  obtain ⟨belowJ, atJ⟩ := List.getElem?_eq_some_iff.1 (positionName.1 second)
  rw [← atI, ← atJ]
  exact List.pairwise_iff_getElem.1 ordered i j belowI belowJ before

theorem positionOrder {name other : TypeName} {i j : Nat} (first : (ofEdges edges).position? name = some i)
    (second : (ofEdges edges).position? other = some j) :
    i < j ↔ (edges.flatMap Edge.ends).idxOf name < (edges.flatMap Edge.ends).idxOf other := by
  refine ⟨positionsOrdered first second, fun before => ?_⟩
  rcases Nat.lt_trichotomy i j with less | same | more
  · exact less
  · have equal := (positionName.1 first).symm.trans (same ▸ positionName.1 second)
    cases equal
    exact absurd before (Nat.lt_irrefl _)
  · exact absurd before (Nat.lt_asymm (positionsOrdered second first more))

theorem positionLasts (found : (ofEdges edges).position? name = some i) :
    (ofEdges (edges ++ more)).position? name = some i := by
  have longer : (ofEdges edges).names <+: (ofEdges (edges ++ more)).names := by
    rw [namesInOrder, namesInOrder, List.flatMap_append]
    exact firstOccurrencesPrefix _ _
  obtain ⟨later, whole⟩ := longer
  obtain ⟨below, same⟩ := List.getElem?_eq_some_iff.1 (positionName.1 found)
  rw [positionName, nameAt?, ← whole, List.getElem?_append_left below]
  exact positionName.1 found

structure Shows (g : SubtypeGraph) (edges : List Edge) : Prop where
  numbered : ∀ name i, g.position? name = some i ↔ g.nameAt? i = some name
  named : ∀ i, (∃ name, g.nameAt? i = some name) ↔ i < g.nodeCount
  known : ∀ name, (∃ i, g.position? name = some i) ↔ ∃ e ∈ edges, name = e.base ∨ name = e.derived
  ordered : ∀ name other i j, g.position? name = some i → g.position? other = some j →
    (i < j ↔ (edges.flatMap Edge.ends).idxOf name < (edges.flatMap Edge.ends).idxOf other)
  lasting : ∀ more name i, g.position? name = some i → (ofEdges (edges ++ more)).position? name = some i
  added : ∀ e : Edge, (g.addEdge e.base e.derived).1 = true ↔ ∀ f ∈ edges, f.pair ≠ e.pair
  nodes : g.nodeCount = (edges.flatMap Edge.ends).toFinset.card
  links : g.edgeCount = (edges.map Edge.pair).toFinset.card
  unlisted : ∀ base, g.position? base = none → g.directSubtypes? base = none
  listed : ∀ base i, g.position? base = some i → ∃ names, g.directSubtypes? base = some names ∧ names.Nodup ∧
    (∀ name, name ∈ names ↔ ∃ e ∈ edges, e.base = base ∧ e.derived = name) ∧
    names.Pairwise fun a b => (Edge.derivedFrom edges base).idxOf b < (Edge.derivedFrom edges base).idxOf a

theorem builtShows (edges : List Edge) : (ofEdges edges).Shows edges where
  numbered := fun _ _ => positionName
  named := by
    intro i
    rw [nodeCountNames, ← Option.isSome_iff_exists]
    simp [nameAt?]
  known := by
    intro name
    rw [← Option.isSome_iff_exists, positionKnown, namesOfEdges]
  ordered := fun _ _ _ _ => positionOrder
  lasting := fun _ _ _ => positionLasts
  added := by
    intro e
    rw [addEdgeNew, memBelowOfEdges]
    simp [Edge.pair]
  nodes := countNames edges
  links := countPairs edges
  unlisted := by
    intro base missing
    have unknown : base ∉ (ofEdges edges).names := fun member => by
      simpa [missing] using positionKnown.2 member
    rw [directListed, if_neg unknown]
  listed := by
    intro base i found
    have member : base ∈ (ofEdges edges).names := List.mem_of_getElem? (positionName.1 found)
    rw [directListed, if_pos member, belowInOrder]
    refine ⟨_, rfl, List.nodup_reverse.2 (firstOccurrencesNodup _), fun name => ?_, ?_⟩
    · rw [List.mem_reverse, memFirstOccurrences, Edge.memDerivedFrom]
    · exact List.pairwise_reverse.2 (firstOccurrencesOrdered _)

end SubtypeGraph
end MetadataIndex
