import Std.Data.TreeMap.Lemmas

/-! Sets that remember the order of first insertion, one value for each key. The list is the view:
every operation is described by what it does to `toList` and its keys. The position of each key is
filed in a search tree, which the keys determine, so sets with the same values are equal. -/
namespace MetadataIndex
open Std

def fileKeys {κ : Type} [Ord κ] (filed : TreeMap κ Nat) (keys : List κ) : TreeMap κ Nat :=
  keys.foldl (fun filed k => filed.insert k filed.size) filed

theorem fileKeysAppend {κ : Type} [Ord κ] (filed : TreeMap κ Nat) (keys : List κ) (k : κ) :
    fileKeys filed (keys ++ [k]) =
      (fileKeys filed keys).insert k (fileKeys filed keys).size := by
  simp [fileKeys]

structure OrderedSet {α κ : Type} [Ord κ] (key : α → κ) where
  items : Array α
  positions : TreeMap κ Nat
  distinct : (items.toList.map key).Nodup
  filed : positions = fileKeys ∅ (items.toList.map key)

abbrev Distinct (α : Type) [Ord α] := OrderedSet (@id α)

section Filing
variable {κ : Type} [Ord κ] [TransOrd κ] [LawfulEqOrd κ] {keys : List κ} {filed : TreeMap κ Nat}

theorem freshAfterFiling {first : κ} (n : Nat) (distinct : (first :: keys).Nodup)
    (fresh : ∀ k ∈ first :: keys, k ∉ filed) : ∀ k ∈ keys, k ∉ filed.insert first n := by
  intro k member
  simp only [TreeMap.mem_insert, Std.compare_eq_iff_eq, not_or]
  exact ⟨fun same => (List.nodup_cons.1 distinct).1 (same ▸ member),
    fresh k (List.mem_cons_of_mem _ member)⟩

omit [LawfulEqOrd κ] in
theorem sizeAfterFiling {k : κ} (n : Nat) (fresh : k ∉ filed) : (filed.insert k n).size = filed.size + 1 := by
  simp [TreeMap.size_insert, fresh]

theorem lookupFileKeys (distinct : keys.Nodup) (fresh : ∀ k ∈ keys, k ∉ filed) {k : κ} {i : Nat} :
    (fileKeys filed keys)[k]? = some i ↔
      filed[k]? = some i ∨ ∃ j, keys[j]? = some k ∧ i = filed.size + j := by
  induction keys generalizing filed with
  | nil => simp [fileKeys]
  | cons first keys ih =>
      have new : first ∉ filed := fresh first (List.mem_cons_self ..)
      rw [fileKeys, List.foldl_cons, ← fileKeys,
        ih (List.nodup_cons.1 distinct).2 (freshAfterFiling filed.size distinct fresh),
        sizeAfterFiling _ new, TreeMap.getElem?_insert]
      by_cases same : first = k
      · subst same
        simp only [Std.compare_self, if_true, Option.some.injEq, TreeMap.getElem?_eq_none new, reduceCtorEq,
          false_or]
        constructor
        · rintro (rfl | ⟨j, at_j, rfl⟩)
          · exact ⟨0, by simp, rfl⟩
          · exact ⟨j + 1, by simpa using at_j, by omega⟩
        · rintro ⟨j, at_j, rfl⟩
          cases j with
          | zero => exact .inl rfl
          | succ j => exact .inr ⟨j, by simpa using at_j, by omega⟩
      · simp only [Std.compare_eq_iff_eq, same, if_false]
        refine or_congr_right ⟨?_, ?_⟩
        · rintro ⟨j, at_j, rfl⟩
          exact ⟨j + 1, by simpa using at_j, by omega⟩
        · rintro ⟨j, at_j, rfl⟩
          cases j with
          | zero => simp [same] at at_j
          | succ j => exact ⟨j, by simpa using at_j, by omega⟩

end Filing

namespace OrderedSet

section View
variable {α κ : Type} [Ord κ] {key : α → κ}

instance : EmptyCollection (OrderedSet key) := ⟨⟨#[], ∅, List.nodup_nil, rfl⟩⟩

def toList (s : OrderedSet key) : List α := s.items.toList

def keys (s : OrderedSet key) : List κ := s.toList.map key

def size (s : OrderedSet key) : Nat := s.items.size

def isEmpty (s : OrderedSet key) : Bool := s.items.isEmpty

@[simp] theorem toListEmpty : (∅ : OrderedSet key).toList = [] := rfl

@[simp] theorem keysEmpty : (∅ : OrderedSet key).keys = [] := rfl

theorem keysNodup (s : OrderedSet key) : s.keys.Nodup := s.distinct

theorem sizeEq (s : OrderedSet key) : s.size = s.toList.length := rfl

@[ext]
theorem ext {s t : OrderedSet key} (same : s.toList = t.toList) : s = t := by
  obtain ⟨items, _, _, filed⟩ := s
  obtain ⟨items', _, _, filed'⟩ := t
  have equal : items = items' := Array.toList_inj.1 same
  subst equal
  subst filed filed'
  rfl

instance [DecidableEq α] : DecidableEq (OrderedSet key) := fun s t =>
  decidable_of_iff (s.toList = t.toList) ⟨ext, fun same => same ▸ rfl⟩

instance [Repr α] : Repr (OrderedSet key) := ⟨fun s => reprPrec s.toList⟩

@[specialize] def contains (s : OrderedSet key) (k : κ) : Bool := s.positions.contains k

@[specialize] def position? (s : OrderedSet key) (k : κ) : Option Nat := s.positions[k]?

@[specialize] def find? (s : OrderedSet key) (k : κ) : Option α := (s.position? k).bind fun i => s.items[i]?

end View

variable {α κ : Type} [Ord κ] [TransOrd κ] [LawfulEqOrd κ] {key : α → κ}

theorem positionIff {s : OrderedSet key} {k : κ} {i : Nat} :
    s.position? k = some i ↔ s.keys[i]? = some k := by
  rw [position?, s.filed, lookupFileKeys s.distinct (by simp)]
  simp only [TreeMap.getElem?_emptyc, reduceCtorEq, TreeMap.size_emptyc, Nat.zero_add, false_or]
  exact ⟨fun ⟨_, at_j, same⟩ => same ▸ at_j, fun at_i => ⟨i, at_i, rfl⟩⟩

theorem positionNone {s : OrderedSet key} {k : κ} : s.position? k = none ↔ k ∉ s.keys := by
  rw [Option.eq_none_iff_forall_ne_some, List.mem_iff_getElem?, not_exists]
  exact forall_congr' fun i => not_congr positionIff

theorem containsIff {s : OrderedSet key} {k : κ} : s.contains k = true ↔ k ∈ s.keys := by
  rw [List.mem_iff_getElem?, contains, TreeMap.contains_eq_isSome_getElem?, Option.isSome_iff_exists]
  exact exists_congr fun i => positionIff

theorem findIff {s : OrderedSet key} {k : κ} {a : α} :
    s.find? k = some a ↔ a ∈ s.toList ∧ key a = k := by
  simp only [find?, Option.bind_eq_some_iff, positionIff, keys, List.getElem?_map, Option.map_eq_some_iff]
  constructor
  · rintro ⟨i, ⟨b, at_i, same⟩, found⟩
    rw [toList, Array.getElem?_toList, found] at at_i
    cases at_i
    exact ⟨Array.mem_toList_iff.2 (Array.mem_of_getElem? found), same⟩
  · rintro ⟨member, same⟩
    obtain ⟨i, at_i⟩ := List.mem_iff_getElem?.1 member
    exact ⟨i, ⟨a, at_i, same⟩, by simpa [toList] using at_i⟩

theorem findNone {s : OrderedSet key} {k : κ} : s.find? k = none ↔ k ∉ s.keys := by
  constructor
  · intro missing present
    obtain ⟨a, member, same⟩ := List.mem_map.1 present
    simp [findIff.2 ⟨member, same⟩] at missing
  · intro absent
    refine Option.eq_none_iff_forall_ne_some.2 fun a found => absent ?_
    obtain ⟨member, same⟩ := findIff.1 found
    exact List.mem_map.2 ⟨a, member, same⟩

theorem findList [DecidableEq κ] (s : OrderedSet key) (k : κ) : s.find? k = s.toList.find? fun a => key a = k := by
  cases listed : s.toList.find? fun a => decide (key a = k) with
  | some a =>
      have named : key a = k := by simpa using List.find?_some listed
      exact findIff.2 ⟨List.mem_of_find?_eq_some listed, named⟩
  | none =>
      refine findNone.2 fun member => ?_
      obtain ⟨a, inside, same⟩ := List.mem_map.1 member
      simpa [same] using List.find?_eq_none.1 listed a inside

@[simp] theorem findEmpty {k : κ} : (∅ : OrderedSet key).find? k = none := findNone.2 (by simp)

@[simp] theorem containsEmpty {k : κ} : (∅ : OrderedSet key).contains k = false :=
  Bool.eq_false_iff.2 fun present => by simpa using containsIff.1 present

@[specialize] def insert (s : OrderedSet key) (a : α) : OrderedSet key :=
  if present : s.contains (key a) then s
  else
    have fresh : key a ∉ s.keys := fun member => present (containsIff.2 member)
    { items := s.items.push a
      positions := s.positions.insert (key a) s.positions.size
      distinct := by
        rw [Array.toList_push, List.map_append]
        refine List.nodup_append.2 ⟨s.distinct, by simp, ?_⟩
        rintro k at_k l at_l rfl
        exact fresh ((List.mem_singleton.1 at_l) ▸ at_k)
      filed := by
        rw [Array.toList_push, List.map_append, List.map_singleton, fileKeysAppend, ← s.filed] }

@[specialize] def put (s : OrderedSet key) (a : α) : OrderedSet key :=
  match found : s.position? (key a) with
  | none => s.insert a
  | some i =>
      have same : (s.items.setIfInBounds i a).toList.map key = s.items.toList.map key := by
        have at_i : (s.items.toList.map key)[i]? = some (key a) := positionIff.1 found
        rw [Array.toList_setIfInBounds, List.map_set]
        obtain ⟨below, at_i⟩ := List.getElem?_eq_some_iff.1 at_i
        rw [← at_i, List.set_getElem_self]
      { items := s.items.setIfInBounds i a
        positions := s.positions
        distinct := same ▸ s.distinct
        filed := same ▸ s.filed }

@[specialize] def insertAll (s : OrderedSet key) (values : List α) : OrderedSet key := values.foldl insert s

def ofList (key : α → κ) (values : List α) : OrderedSet key := insertAll ∅ values

theorem sameOfKey {s : OrderedSet key} {a b : α} (at_a : a ∈ s.toList) (at_b : b ∈ s.toList)
    (same : key a = key b) : a = b := by
  have found := findIff.2 ⟨at_a, same⟩
  rw [findIff.2 ⟨at_b, rfl⟩] at found
  exact (Option.some.inj found).symm

theorem insertPresent {s : OrderedSet key} {a : α} (present : key a ∈ s.keys) : s.insert a = s :=
  dif_pos (containsIff.2 present)

theorem insertFresh {s : OrderedSet key} {a : α} (fresh : key a ∉ s.keys) :
    (s.insert a).toList = s.toList ++ [a] := by
  rw [insert, dif_neg fun present => fresh (containsIff.1 present)]
  simp [toList]

theorem keysInsert {s : OrderedSet key} {a : α} {k : κ} :
    k ∈ (s.insert a).keys ↔ k ∈ s.keys ∨ k = key a := by
  by_cases h : key a ∈ s.keys
  · rw [insertPresent h]
    exact ⟨Or.inl, fun at_k => at_k.elim id (fun same => same ▸ h)⟩
  · simp only [keys, insertFresh h, List.map_append, List.map_cons, List.map_nil, List.mem_append,
      List.mem_singleton]

theorem memInsert {s : OrderedSet key} {a b : α} :
    b ∈ (s.insert a).toList ↔ b ∈ s.toList ∨ b = a ∧ key a ∉ s.keys := by
  by_cases h : key a ∈ s.keys
  · simp [insertPresent h, h]
  · simp [insertFresh h, h]

theorem putFresh {s : OrderedSet key} {a : α} (fresh : key a ∉ s.keys) : s.put a = s.insert a := by
  unfold put
  split
  · rfl
  · next i found => exact absurd (List.mem_of_getElem? (positionIff.1 found)) fresh

theorem putPresent {s : OrderedSet key} {a : α} {i : Nat} (at_i : s.keys[i]? = some (key a)) :
    (s.put a).toList = s.toList.set i a := by
  unfold put
  split
  · next missing => exact absurd (List.mem_of_getElem? at_i) (positionNone.1 missing)
  · next j found =>
    have same : j = i := Option.some.inj (found.symm.trans (positionIff.2 at_i))
    simp only [toList, same, Array.toList_setIfInBounds]

theorem memPut {s : OrderedSet key} {a b : α} :
    b ∈ (s.put a).toList ↔ b = a ∨ b ∈ s.toList ∧ key b ≠ key a := by
  by_cases known : key a ∈ s.keys
  · obtain ⟨i, at_i⟩ := List.mem_iff_getElem?.1 known
    have below : i < s.toList.length := by simpa [keys] using (List.getElem?_eq_some_iff.1 at_i).1
    have stored : a ∈ (s.put a).toList := putPresent at_i ▸ List.mem_set below a
    constructor
    · intro member
      by_cases clash : key b = key a
      · exact .inl (sameOfKey member stored clash)
      · rw [putPresent at_i] at member
        exact (List.mem_or_eq_of_mem_set member).elim (fun old => .inr ⟨old, clash⟩) .inl
    · rintro (rfl | ⟨old, differ⟩)
      · exact stored
      · obtain ⟨j, at_j⟩ := List.mem_iff_getElem?.1 old
        have apart : i ≠ j := by
          rintro rfl
          rw [keys, List.getElem?_map, at_j] at at_i
          exact differ (Option.some.inj at_i)
        rw [putPresent at_i]
        exact List.mem_of_getElem? (i := j) ((List.getElem?_set_ne apart).trans at_j)
  · rw [putFresh known]
    simp only [memInsert, known, not_false_eq_true, and_true]
    constructor
    · rintro (old | rfl)
      · exact .inr ⟨old, fun same => known (same ▸ List.mem_map.2 ⟨b, old, rfl⟩)⟩
      · exact .inl rfl
    · rintro (rfl | ⟨old, _⟩)
      · exact .inr rfl
      · exact .inl old

theorem findPut [DecidableEq κ] {s : OrderedSet key} {a : α} {k : κ} :
    (s.put a).find? k = if key a = k then some a else s.find? k := by
  apply Option.ext
  intro b
  simp only [findIff, memPut]
  split
  · next same =>
    subst same
    simp only [Option.some.injEq]
    constructor
    · rintro ⟨rfl | ⟨_, differ⟩, clash⟩
      · rfl
      · exact absurd clash differ
    · rintro rfl
      exact ⟨.inl rfl, rfl⟩
  · next differ =>
    rw [findIff]
    constructor
    · rintro ⟨rfl | ⟨old, _⟩, rfl⟩
      · exact absurd rfl differ
      · exact ⟨old, rfl⟩
    · rintro ⟨old, rfl⟩
      exact ⟨.inr ⟨old, fun same => differ same.symm⟩, rfl⟩

theorem findInsert [DecidableEq κ] {s : OrderedSet key} {a : α} {k : κ} :
    (s.insert a).find? k = (s.find? k).or (if key a = k then some a else none) := by
  apply Option.ext
  intro b
  simp only [findIff, memInsert, Option.or_eq_some_iff]
  split
  · next same =>
    subst same
    simp only [findNone, Option.some.injEq]
    constructor
    · rintro ⟨old | ⟨rfl, fresh⟩, same⟩
      · exact .inl ⟨old, same⟩
      · exact .inr ⟨fresh, rfl⟩
    · rintro (⟨old, same⟩ | ⟨fresh, rfl⟩)
      · exact ⟨.inl old, same⟩
      · exact ⟨.inr ⟨rfl, fresh⟩, rfl⟩
  · next differ =>
    simp only [reduceCtorEq, and_false, or_false]
    constructor
    · rintro ⟨old | ⟨rfl, _⟩, same⟩
      · exact ⟨old, same⟩
      · exact absurd same differ
    · exact fun ⟨old, same⟩ => ⟨.inl old, same⟩

theorem findInsertAll [DecidableEq κ] {s : OrderedSet key} {values : List α} {k : κ} :
    (s.insertAll values).find? k = (s.find? k).or (values.find? fun a => key a = k) := by
  induction values generalizing s with
  | nil => simp [insertAll]
  | cons a rest ih =>
      rw [insertAll, List.foldl_cons, ← insertAll, ih, findInsert, Option.or_assoc, List.find?_cons]
      split <;> simp_all

theorem keysInsertAll {s : OrderedSet key} {values : List α} {k : κ} :
    k ∈ (s.insertAll values).keys ↔ k ∈ s.keys ∨ k ∈ values.map key := by
  induction values generalizing s with
  | nil => simp [insertAll]
  | cons a rest ih =>
      rw [insertAll, List.foldl_cons, ← insertAll, ih, keysInsert, List.map_cons, List.mem_cons,
        or_assoc]

theorem sizeInsertAll {s : OrderedSet key} {values : List α} :
    s.size ≤ (s.insertAll values).size := by
  induction values generalizing s with
  | nil => simp [insertAll]
  | cons a rest ih =>
      rw [insertAll, List.foldl_cons, ← insertAll]
      refine Nat.le_trans ?_ ih
      by_cases h : key a ∈ s.keys
      · simp [insertPresent h]
      · simp [sizeEq, insertFresh h]

theorem keysOfList {values : List α} {k : κ} : k ∈ (ofList key values).keys ↔ k ∈ values.map key := by
  simp [ofList, keysInsertAll]

end OrderedSet

def firstOccurrences {α : Type} [Ord α] [TransOrd α] [LawfulEqOrd α] (values : List α) : List α :=
  (OrderedSet.ofList (@id α) values).toList

section FirstOccurrences
variable {α : Type} [Ord α] [TransOrd α] [LawfulEqOrd α]

theorem memFirstOccurrences {values : List α} {a : α} : a ∈ firstOccurrences values ↔ a ∈ values := by
  have h : a ∈ (OrderedSet.ofList (@id α) values).keys ↔ _ := OrderedSet.keysOfList
  simpa [OrderedSet.keys, firstOccurrences] using h

theorem firstOccurrencesNodup (values : List α) : (firstOccurrences values).Nodup := by
  simpa [firstOccurrences, OrderedSet.keys] using (OrderedSet.ofList (@id α) values).keysNodup

end FirstOccurrences
end MetadataIndex
