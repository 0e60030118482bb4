import MetadataIndex.Contribution
import Mathlib.Data.List.Induction

/-! What a contribution holds after additions and after merging, told by its four sets. Merging many
contributions in turn into an empty one gives their union: each of its sets is the set of all their
values, the first of a key first. -/
namespace MetadataIndex
open Std
variable {φ : Type}

namespace OrderedSet
variable {α κ : Type} [Ord κ] [TransOrd κ] [LawfulEqOrd κ] {key : α → κ} {s : OrderedSet key}
  {values more : List α} {a : α}

theorem insertAllAppend : s.insertAll (values ++ more) = (s.insertAll values).insertAll more := by
  simp [insertAll]

theorem ofListAppend : ofList key (values ++ more) = (ofList key values).insertAll more := insertAllAppend

theorem insertAllFresh (distinct : (values.map key).Nodup) (fresh : ∀ a ∈ values, key a ∉ s.keys) :
    (s.insertAll values).toList = s.toList ++ values := by
  induction values generalizing s with
  | nil => exact (List.append_nil _).symm
  | cons a rest ih =>
      obtain ⟨unlike, distinct⟩ := List.nodup_cons.1 distinct
      have absent : key a ∉ s.keys := fresh a (List.mem_cons_self ..)
      have freshLater : ∀ b ∈ rest, key b ∉ (s.insert a).keys := by
        intro b member present
        rcases keysInsert.1 present with old | same
        · exact fresh b (List.mem_cons_of_mem _ member) old
        · exact unlike (List.mem_map.2 ⟨b, member, same⟩)
      rw [insertAll, List.foldl_cons, ← insertAll, ih distinct freshLater, insertFresh absent, List.append_assoc]
      rfl

theorem memOfInsertAll (member : a ∈ (s.insertAll values).toList) : a ∈ s.toList ∨ a ∈ values := by
  induction values generalizing s with
  | nil => exact .inl member
  | cons b rest ih =>
      rcases ih member with earlier | later
      · rcases memInsert.1 earlier with old | ⟨same, _⟩
        · exact .inl old
        · exact .inr (same ▸ List.mem_cons_self ..)
      · exact .inr (List.mem_cons_of_mem _ later)

theorem memOfList (member : a ∈ (ofList key values).toList) : a ∈ values :=
  (memOfInsertAll member).elim (fun none => by cases none) id

theorem memInsertAllOfKeys (apart : ∀ b ∈ s.toList ++ values, key b = key a → b = a) :
    a ∈ (s.insertAll values).toList ↔ a ∈ s.toList ∨ a ∈ values := by
  refine ⟨memOfInsertAll, fun member => ?_⟩
  have present : key a ∈ (s.insertAll values).keys :=
    keysInsertAll.2 (member.imp (fun old => List.mem_map.2 ⟨a, old, rfl⟩)
      fun added => List.mem_map.2 ⟨a, added, rfl⟩)
  obtain ⟨b, inside, same⟩ := List.mem_map.1 present
  have known := List.mem_append.2 (memOfInsertAll inside)
  exact apart b known same ▸ inside

end OrderedSet

namespace Distinct
variable {α : Type} [Ord α] [TransOrd α] [LawfulEqOrd α] {s : Distinct α} {values : List α} {a : α}

omit [TransOrd α] [LawfulEqOrd α] in
theorem keysEqToList : s.keys = s.toList := List.map_id _

theorem memInsertAll : a ∈ (OrderedSet.insertAll s values).toList ↔ a ∈ s.toList ∨ a ∈ values :=
  OrderedSet.memInsertAllOfKeys fun _ _ same => same

theorem memInsert {b : α} : a ∈ (OrderedSet.insert s b).toList ↔ a ∈ s.toList ∨ a = b := by
  rw [← keysEqToList, OrderedSet.keysInsert, keysEqToList]
  rfl

theorem memOfValues : a ∈ (OrderedSet.ofList (@id α) values).toList ↔ a ∈ values := by
  rw [OrderedSet.ofList, memInsertAll]
  simp

end Distinct

namespace SubtypeMap
variable {table : SubtypeMap} {edges : List Edge} {e : Edge} {base derived : TypeName}

theorem memAdd :
    derived ∈ ((table.add e).getD base ∅).toList ↔
      derived ∈ (table.getD base ∅).toList ∨ e.base = base ∧ e.derived = derived := by
  rw [add, TreeMap.getD_alter]
  by_cases same : e.base = base
  · subst same
    rw [if_pos Std.compare_self, Option.getD_some, ← TreeMap.getD_eq_getD_getElem?, Distinct.memInsert,
      eq_comm (a := derived)]
    simp
  · rw [if_neg fun equal => same (Std.compare_eq_iff_eq.1 equal)]
    simp [same]

theorem memOfEdges :
    derived ∈ ((ofEdges edges).getD base ∅).toList ↔ ∃ kind, ⟨base, derived, kind⟩ ∈ edges := by
  induction edges using List.reverseRecOn with
  | nil =>
      constructor
      · intro member
        simp [ofEdges] at member
      · intro told
        obtain ⟨kind, member⟩ := told
        cases member
  | append_singleton edges last ih =>
      rw [ofEdgesSnoc, memAdd, ih]
      constructor
      · intro member
        rcases member with ⟨kind, before⟩ | ⟨rfl, rfl⟩
        · exact ⟨kind, List.mem_append_left _ before⟩
        · exact ⟨last.kind, List.mem_append_right _ (List.mem_singleton.2 rfl)⟩
      · intro told
        obtain ⟨kind, member⟩ := told
        rcases List.mem_append.1 member with before | added
        · exact .inl ⟨kind, before⟩
        · have same := List.mem_singleton.1 added
          subst same
          exact .inr ⟨rfl, rfl⟩

end SubtypeMap

namespace Contribution
variable {c other : Contribution φ} {e : Edge} {edges : List Edge} {marks : List (Mark φ)} {names : List TypeName}

theorem addEdgeEdges :
    (c.addEdge e).2.edges = if e.proper then c.edges.insert e else c.edges := by
  unfold addEdge
  cases proper : e.proper with
  | false => rfl
  | true =>
      simp only [Bool.not_true, Bool.false_eq_true, if_false, if_true]
      split
      · next known => exact (OrderedSet.insertPresent (OrderedSet.containsIff.1 known)).symm
      · rfl

theorem addEdgeOthers :
    (c.addEdge e).2.modules = c.modules ∧ (c.addEdge e).2.marks = c.marks ∧ (c.addEdge e).2.types = c.types := by
  unfold addEdge
  split
  · exact ⟨rfl, rfl, rfl⟩
  · split
    · exact ⟨rfl, rfl, rfl⟩
    · exact ⟨rfl, rfl, rfl⟩

theorem addEdgesFrom (count : Nat) : (edges.foldl countEdge (count, c)).2 = (c.addEdges edges).2 := by
  induction edges generalizing count c with
  | nil => rfl
  | cons e rest ih => exact (ih _).trans (ih _).symm

theorem addEdgesCons : (c.addEdges (e :: edges)).2 = ((c.addEdge e).2.addEdges edges).2 :=
  addEdgesFrom (0 + (c.addEdge e).1.toNat)

@[simp] theorem addEdgesEdges :
    (c.addEdges edges).2.edges = c.edges.insertAll (edges.filter Edge.proper) := by
  induction edges generalizing c with
  | nil => rfl
  | cons e rest ih =>
      rw [addEdgesCons, ih, addEdgeEdges, List.filter_cons]
      split
      · rfl
      · rfl

theorem addEdgesOthers :
    (c.addEdges edges).2.modules = c.modules ∧ (c.addEdges edges).2.marks = c.marks ∧
      (c.addEdges edges).2.types = c.types := by
  induction edges generalizing c with
  | nil => exact ⟨rfl, rfl, rfl⟩
  | cons e rest ih =>
      obtain ⟨modules, marks, types⟩ := addEdgeOthers (c := c) (e := e)
      rw [addEdgesCons, ← modules, ← marks, ← types]
      exact ih

@[simp] theorem addEdgesModules : (c.addEdges edges).2.modules = c.modules := addEdgesOthers.1
@[simp] theorem addEdgesMarks : (c.addEdges edges).2.marks = c.marks := addEdgesOthers.2.1
@[simp] theorem addEdgesTypes : (c.addEdges edges).2.types = c.types := addEdgesOthers.2.2
@[simp] theorem addMarksEdges : (c.addMarks marks).2.edges = c.edges := rfl
@[simp] theorem addMarksMarks : (c.addMarks marks).2.marks = c.marks.insertAll marks := rfl
@[simp] theorem addMarksTypes : (c.addMarks marks).2.types = c.types := rfl
@[simp] theorem addMarksModules : (c.addMarks marks).2.modules = c.modules := rfl
@[simp] theorem addTypesEdges : (c.addTypes names).2.edges = c.edges := rfl
@[simp] theorem addTypesMarks : (c.addTypes names).2.marks = c.marks := rfl
@[simp] theorem addTypesTypes : (c.addTypes names).2.types = c.types.insertAll names := rfl
@[simp] theorem addTypesModules : (c.addTypes names).2.modules = c.modules := rfl

@[simp] theorem mergeModules :
    (c.merge other).2.modules = c.modules.insertAll other.modules.toList := by
  simp [merge, addModules]

@[simp] theorem mergeEdges :
    (c.merge other).2.edges = c.edges.insertAll (other.edges.toList.filter Edge.proper) := by
  simp [merge, addModules]

@[simp] theorem mergeMarks : (c.merge other).2.marks = c.marks.insertAll other.marks.toList := by
  simp [merge, addModules]

@[simp] theorem mergeTypes : (c.merge other).2.types = c.types.insertAll other.types.toList := by
  simp [merge, addModules]

def union (parts : List (Contribution φ)) : Contribution φ :=
  parts.foldl (fun c part => (c.merge part).2) {}

theorem unionSnoc (parts : List (Contribution φ)) (last : Contribution φ) :
    union (parts ++ [last]) = ((union parts).merge last).2 := by
  simp [union]

theorem unionModules (parts : List (Contribution φ)) :
    (union parts).modules = .ofList id (parts.flatMap fun c => c.modules.toList) := by
  induction parts using List.reverseRecOn with
  | nil => rfl
  | append_singleton parts last ih =>
      rw [unionSnoc, mergeModules, ih, List.flatMap_append, OrderedSet.ofListAppend]
      simp

theorem unionEdges (parts : List (Contribution φ)) :
    (union parts).edges = .ofList id (parts.flatMap fun c => c.edges.toList.filter Edge.proper) := by
  induction parts using List.reverseRecOn with
  | nil => rfl
  | append_singleton parts last ih =>
      rw [unionSnoc, mergeEdges, ih, List.flatMap_append, OrderedSet.ofListAppend]
      simp

theorem unionMarks (parts : List (Contribution φ)) :
    (union parts).marks = .ofList Mark.id (parts.flatMap fun c => c.marks.toList) := by
  induction parts using List.reverseRecOn with
  | nil => rfl
  | append_singleton parts last ih =>
      rw [unionSnoc, mergeMarks, ih, List.flatMap_append, OrderedSet.ofListAppend]
      simp

theorem unionTypes (parts : List (Contribution φ)) :
    (union parts).types = .ofList id (parts.flatMap fun c => c.types.toList) := by
  induction parts using List.reverseRecOn with
  | nil => rfl
  | append_singleton parts last ih =>
      rw [unionSnoc, mergeTypes, ih, List.flatMap_append, OrderedSet.ofListAppend]
      simp

variable {parts : List (Contribution φ)}

theorem memUnionModules {id : ModuleId} :
    id ∈ (union parts).modules.toList ↔ ∃ c ∈ parts, id ∈ c.modules.toList := by
  rw [unionModules, Distinct.memOfValues, List.mem_flatMap]

theorem memUnionEdges {e : Edge} :
    e ∈ (union parts).edges.toList ↔ e.proper = true ∧ ∃ c ∈ parts, e ∈ c.edges.toList := by
  rw [unionEdges, Distinct.memOfValues, List.mem_flatMap]
  simp only [List.mem_filter]
  constructor
  · intro ⟨c, part, member, proper⟩
    exact ⟨proper, c, part, member⟩
  · intro ⟨proper, c, part, member⟩
    exact ⟨c, part, member, proper⟩

theorem memUnionTypes {name : TypeName} :
    name ∈ (union parts).types.toList ↔ ∃ c ∈ parts, name ∈ c.types.toList := by
  rw [unionTypes, Distinct.memOfValues, List.mem_flatMap]

theorem keysUnionMarks {t : Tag} :
    t ∈ (union parts).marks.keys ↔ ∃ c ∈ parts, t ∈ c.marks.keys := by
  rw [unionMarks, OrderedSet.keysOfList]
  simp only [List.mem_map, List.mem_flatMap, OrderedSet.keys]
  constructor
  · intro filed
    obtain ⟨mark, ⟨c, part, member⟩, same⟩ := filed
    exact ⟨c, part, mark, member, same⟩
  · intro told
    obtain ⟨c, part, mark, member, same⟩ := told
    exact ⟨mark, ⟨c, part, member⟩, same⟩

theorem memOfUnionMarks {mark : Mark φ} (member : mark ∈ (union parts).marks.toList) :
    ∃ c ∈ parts, mark ∈ c.marks.toList := by
  rw [unionMarks] at member
  exact List.mem_flatMap.1 (OrderedSet.memOfList member)

theorem memDirectSubtypes {base derived : TypeName} :
    derived ∈ c.directSubtypes base ↔ ∃ kind, ⟨base, derived, kind⟩ ∈ c.edges.toList := by
  rw [directSubtypes, c.filed, SubtypeMap.memOfEdges]

theorem containsType {name : TypeName} : c.hasType name = true ↔ name ∈ c.types.toList := by
  rw [hasType, OrderedSet.containsIff, Distinct.keysEqToList]

end Contribution
end MetadataIndex
