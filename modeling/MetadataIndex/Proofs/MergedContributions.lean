import MetadataIndex.Proofs.Union
import Mathlib.Data.List.Infix
import Mathlib.Data.Set.Basic

/-! Merging as a join. A merged contribution holds the entries of both, whichever was merged into the
other; what it held before comes first and in the same order. So a merge without a new entry changes
nothing, and the count that a merge returns is the growth in edges and marks. -/
namespace MetadataIndex
open Std
variable {φ : Type}

namespace OrderedSet
variable {α κ : Type} [Ord κ] [TransOrd κ] [LawfulEqOrd κ] {key : α → κ} {s : OrderedSet key}
  {values : List α} {a : α}

theorem insertPrefix : s.toList <+: (s.insert a).toList := by
  by_cases known : key a ∈ s.keys
  · rw [insertPresent known]
  · rw [insertFresh known]
    exact List.prefix_append ..

theorem insertAllPrefix : s.toList <+: (s.insertAll values).toList := by
  induction values generalizing s with
  | nil => exact List.prefix_refl _
  | cons a rest ih => exact insertPrefix.trans ih

theorem insertAllPresent (present : ∀ a ∈ values, key a ∈ s.keys) : s.insertAll values = s := by
  induction values with
  | nil => rfl
  | cons a rest ih =>
      have known : s.insert a = s := insertPresent (present a (List.mem_cons_self ..))
      rw [insertAll, List.foldl_cons, known]
      exact ih fun b member => present b (List.mem_cons_of_mem _ member)

end OrderedSet

theorem Distinct.insertAllKnown {α : Type} [Ord α] [TransOrd α] [LawfulEqOrd α] {s : Distinct α} {values : List α}
    (known : ∀ a ∈ values, a ∈ s.toList) : OrderedSet.insertAll s values = s :=
  OrderedSet.insertAllPresent fun a member => List.mem_map.2 ⟨a, known a member, rfl⟩

namespace SubtypeMap
variable {table : SubtypeMap} {edges more : List Edge} {base : TypeName}

theorem addPrefix (e : Edge) : (table.getD base ∅).toList <+: ((table.add e).getD base ∅).toList := by
  rw [add, TreeMap.getD_alter]
  split
  · next same =>
    rw [← Std.compare_eq_iff_eq.1 same, Option.getD_some, ← TreeMap.getD_eq_getD_getElem?]
    exact OrderedSet.insertPrefix
  · exact List.prefix_refl _

theorem filedPrefix : ((ofEdges edges).getD base ∅).toList <+: ((ofEdges (edges ++ more)).getD base ∅).toList := by
  induction more using List.reverseRecOn with
  | nil => rw [List.append_nil]
  | append_singleton more last ih =>
      rw [← List.append_assoc, ofEdgesSnoc]
      exact ih.trans (addPrefix last)

end SubtypeMap

namespace Contribution

inductive Entry (φ : Type := Recipe) where
  | module (id : ModuleId)
  | edge (e : Edge)
  | subtype (base derived : TypeName)
  | mark (tag : Tag)
  | type (name : TypeName)

def Holds (c : Contribution φ) : Entry φ → Prop
  | .module id => id ∈ c.modules.toList
  | .edge e => e ∈ c.edges.toList
  | .subtype base derived => derived ∈ c.directSubtypes base
  | .mark tag => tag ∈ c.marks.keys
  | .type name => name ∈ c.types.toList

def entries (c : Contribution φ) : Set (Entry φ) := {entry | c.Holds entry}

def counted (c : Contribution φ) : Nat := c.edges.size + c.marks.size

def Proper (c : Contribution φ) : Prop := ∀ e ∈ c.edges.toList, e.proper = true

structure Prolongs (c after : Contribution φ) : Prop where
  modules : c.modules.toList <+: after.modules.toList
  edges : c.edges.toList <+: after.edges.toList
  subtypes : ∀ base, c.directSubtypes base <+: after.directSubtypes base
  marks : c.marks.toList <+: after.marks.toList
  marked : ∀ marker, c.markedWith marker <+: after.markedWith marker
  types : c.types.toList <+: after.types.toList

variable {c other : Contribution φ} {e : Edge}

theorem addEdgeCount : c.edges.size + (c.addEdge e).1.toNat = (c.addEdge e).2.edges.size := by
  unfold addEdge
  split
  · rfl
  · split
    · rfl
    · next unknown =>
      have fresh : e ∉ c.edges.keys := fun member => unknown (OrderedSet.containsIff.2 member)
      have appended : (c.edges.insert e).toList = c.edges.toList ++ [e] := OrderedSet.insertFresh fresh
      simp only [OrderedSet.sizeEq, appended, List.length_append]
      rfl

theorem addEdgesCountFrom (edges : List Edge) (count : Nat) : c.edges.size + (edges.foldl countEdge (count, c)).1 =
    count + (c.addEdges edges).2.edges.size := by
  induction edges generalizing count c with
  | nil => exact Nat.add_comm ..
  | cons e rest ih =>
      have here : c.edges.size + (c.addEdge e).1.toNat = (c.addEdge e).2.edges.size := addEdgeCount
      have later := ih (c := (c.addEdge e).2) (count + (c.addEdge e).1.toNat)
      rw [addEdgesCons, List.foldl_cons]
      change c.edges.size + (rest.foldl countEdge (count + (c.addEdge e).1.toNat, (c.addEdge e).2)).1 = _
      omega

theorem addMarksCount (marks : List (Mark φ)) : c.marks.size + (c.addMarks marks).1 = (c.addMarks marks).2.marks.size :=
  Nat.add_sub_cancel' OrderedSet.sizeInsertAll

theorem mergeCount : c.counted + (c.merge other).1 = (c.merge other).2.counted := by
  have edges := addEdgesCountFrom (c := c.addModules other.modules.toList) other.edges.toList 0
  have marks := addMarksCount (c := ((c.addModules other.modules.toList).addEdges other.edges.toList).2)
    other.marks.toList
  have kept : ((c.addModules other.modules.toList).addEdges other.edges.toList).2.marks.size = c.marks.size := by
    rw [addEdgesMarks]
    rfl
  rw [Nat.zero_add] at edges
  rw [kept] at marks
  calc c.counted + (c.merge other).1
      = (c.edges.size + ((c.addModules other.modules.toList).addEdges other.edges.toList).1) +
          (c.marks.size + (((c.addModules other.modules.toList).addEdges other.edges.toList).2.addMarks
            other.marks.toList).1) := Nat.add_add_add_comm ..
    _ = (c.merge other).2.counted := congrArg₂ (· + ·) edges marks

variable {a b : Contribution φ}

theorem mergeEntries (proper : b.Proper) : (a.merge b).2.entries = a.entries ∪ b.entries := by
  have edges : ∀ e, e ∈ (a.merge b).2.edges.toList ↔ e ∈ a.edges.toList ∨ e ∈ b.edges.toList := by
    intro e
    rw [mergeEdges, List.filter_eq_self.2 proper, Distinct.memInsertAll]
  ext entry
  cases entry with
  | module id =>
      change id ∈ (a.merge b).2.modules.toList ↔ _
      rw [mergeModules, Distinct.memInsertAll]
      rfl
  | edge e => exact edges e
  | subtype base derived =>
      change derived ∈ (a.merge b).2.directSubtypes base ↔
        derived ∈ a.directSubtypes base ∨ derived ∈ b.directSubtypes base
      rw [memDirectSubtypes, memDirectSubtypes, memDirectSubtypes, ← exists_or]
      exact exists_congr fun kind => edges _
  | mark tag =>
      change tag ∈ (a.merge b).2.marks.keys ↔ _
      rw [mergeMarks, OrderedSet.keysInsertAll]
      rfl
  | type name =>
      change name ∈ (a.merge b).2.types.toList ↔ _
      rw [mergeTypes, Distinct.memInsertAll]
      rfl

theorem mergeProper (proper : a.Proper) (properToo : b.Proper) : (a.merge b).2.Proper := by
  intro e member
  rw [mergeEdges, Distinct.memInsertAll] at member
  rcases member with old | added
  · exact proper e old
  · exact properToo e (List.mem_filter.1 added).1

theorem mergeEdgesFirst : a.edges.toList <+: (a.merge b).2.edges.toList := by
  rw [mergeEdges]
  exact OrderedSet.insertAllPrefix

theorem mergeMarksFirst : a.marks.toList <+: (a.merge b).2.marks.toList := by
  rw [mergeMarks]
  exact OrderedSet.insertAllPrefix

theorem mergeProlongs : a.Prolongs (a.merge b).2 where
  modules := by
    rw [mergeModules]
    exact OrderedSet.insertAllPrefix
  edges := mergeEdgesFirst
  subtypes := by
    intro base
    obtain ⟨more, whole⟩ := mergeEdgesFirst (a := a) (b := b)
    rw [directSubtypes, directSubtypes, a.filed, (a.merge b).2.filed, ← whole]
    exact SubtypeMap.filedPrefix
  marks := mergeMarksFirst
  marked := by
    intro marker
    rw [markedWith, markedWith, marksByMarker, marksByMarker, groupOf, groupOf]
    exact (mergeMarksFirst.filter _).map _
  types := by
    rw [mergeTypes]
    exact OrderedSet.insertAllPrefix

theorem mergeHeld (held : b.entries ⊆ a.entries) : a.merge b = (0, a) := by
  have same : (a.merge b).2 = a := by
    ext1
    · rw [mergeModules]
      exact Distinct.insertAllKnown fun id member => held (a := .module id) member
    · rw [mergeEdges]
      exact Distinct.insertAllKnown fun e member => held (a := .edge e) (List.mem_filter.1 member).1
    · rw [mergeMarks]
      exact OrderedSet.insertAllPresent fun m member => held (a := .mark m.id) (List.mem_map.2 ⟨m, member, rfl⟩)
    · rw [mergeTypes]
      exact Distinct.insertAllKnown fun name member => held (a := .type name) member
  have count : a.counted + (a.merge b).1 = (a.merge b).2.counted := mergeCount
  rw [same] at count
  exact Prod.ext (Nat.add_eq_left.1 count) same

inductive Making (φ : Type := Recipe) where
  | empty
  | ofModule (id : ModuleId)
  | edge (before : Making φ) (e : Edge)
  | mark (before : Making φ) (m : Mark φ)
  | type (before : Making φ) (name : TypeName)
  | merge (before other : Making φ)

def Making.made : Making φ → Contribution φ
  | .empty => {}
  | .ofModule id => .ofModule id
  | .edge before e => (before.made.addEdge e).2
  | .mark before m => (before.made.addMarks [m]).2
  | .type before name => (before.made.addTypes [name]).2
  | .merge before other => (before.made.merge other.made).2

theorem properMade (w : Making φ) : w.made.Proper := by
  induction w with
  | empty => exact fun _ member => nomatch member
  | ofModule id => exact fun _ member => nomatch member
  | edge before e ih =>
      intro f member
      rw [Making.made, addEdgeEdges] at member
      split at member
      · next proper =>
        rcases Distinct.memInsert.1 member with old | same
        · exact ih f old
        · exact same ▸ proper
      · exact ih f member
  | mark before m ih => exact ih
  | type before name ih => exact ih
  | merge before other ih ihOther => exact mergeProper ih ihOther

structure Joins (a b c : Contribution φ) : Prop where
  union : (a.merge b).2.entries = a.entries ∪ b.entries
  commutes : (a.merge b).2.entries = (b.merge a).2.entries
  associates : ((a.merge b).2.merge c).2.entries = (a.merge (b.merge c).2).2.entries
  idempotent : a.merge a = (0, a)
  count : a.counted + (a.merge b).1 = (a.merge b).2.counted
  again : (a.merge b).2.merge b = (0, (a.merge b).2)
  nothingNew : a.merge b = (0, a) ↔ b.entries ⊆ a.entries
  order : a.Prolongs (a.merge b).2

theorem madeJoin (u v w : Making φ) : Joins u.made v.made w.made where
  union := mergeEntries (properMade v)
  commutes := by rw [mergeEntries (properMade v), mergeEntries (properMade u), Set.union_comm]
  associates := by
    have rest : (v.made.merge w.made).2.Proper := mergeProper (properMade v) (properMade w)
    rw [mergeEntries (properMade w), mergeEntries (properMade v), mergeEntries rest, mergeEntries (properMade w),
      Set.union_assoc]
  idempotent := mergeHeld Set.Subset.rfl
  count := mergeCount
  again := by
    refine mergeHeld ?_
    rw [mergeEntries (properMade v)]
    exact Set.subset_union_right
  nothingNew := by
    refine ⟨fun still => ?_, mergeHeld⟩
    have joined : (u.made.merge v.made).2.entries = u.made.entries ∪ v.made.entries := mergeEntries (properMade v)
    rw [still] at joined
    exact Set.union_eq_left.1 joined.symm
  order := mergeProlongs

end Contribution
end MetadataIndex
