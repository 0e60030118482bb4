import Std.Data.TreeMap.Lemmas

/-! Values grouped by a key. The keys come in ascending order; a group holds the values of its key in
the order they were given, as a filter would. -/
namespace MetadataIndex
open Std

variable {α κ : Type} [Ord κ]

def groupBy (key : α → κ) (values : List α) : TreeMap κ (List α) :=
  values.foldr (fun a groups => groups.insert (key a) (a :: groups.getD (key a) [])) ∅

def ascending (values : List κ) : List κ := (groupBy id values).keys

variable [TransOrd κ] [LawfulEqOrd κ] {key : α → κ}

theorem groupOf [DecidableEq κ] (values : List α) (k : κ) :
    (groupBy key values).getD k [] = values.filter fun a => key a = k := by
  induction values with
  | nil => simp [groupBy]
  | cons a rest ih =>
      rw [groupBy, List.foldr_cons, ← groupBy, TreeMap.getD_insert, List.filter_cons]
      by_cases same : key a = k
      · subst same
        simp [ih]
      · simp [same, ih]

theorem memGroupBy {values : List α} {k : κ} : k ∈ groupBy key values ↔ k ∈ values.map key := by
  induction values with
  | nil => simp [groupBy]
  | cons a rest ih =>
      rw [groupBy, List.foldr_cons, ← groupBy, TreeMap.mem_insert, ih, Std.compare_eq_iff_eq, List.map_cons,
        List.mem_cons]
      exact or_congr_left eq_comm

theorem memGroups [DecidableEq κ] {values group : List α} {k : κ} :
    (k, group) ∈ (groupBy key values).toList ↔
      k ∈ values.map key ∧ group = values.filter fun a => key a = k := by
  rw [TreeMap.mem_toList_iff_getElem?_eq_some, ← groupOf, ← memGroupBy, TreeMap.getD_eq_getD_getElem?,
    TreeMap.mem_iff_isSome_getElem?]
  cases (groupBy key values)[k]? with
  | none => simp
  | some found => simp [eq_comm]

theorem eqOfAscending {keys more : List κ} (ascends : keys.Pairwise fun a b => (compare a b).isLE)
    (ascendsToo : more.Pairwise fun a b => (compare a b).isLE) (distinct : keys.Nodup) (distinctToo : more.Nodup)
    (same : ∀ k, k ∈ keys ↔ k ∈ more) : keys = more :=
  List.Perm.eq_of_pairwise (fun _ _ _ _ le ge => Std.compare_eq_iff_eq.1 (OrientedCmp.isLE_antisymm le ge)) ascends
    ascendsToo ((List.perm_ext_iff_of_nodup distinct distinctToo).2 same)

section Tables
variable {β γ : Type} {table : TreeMap κ β} {keys : List κ}

omit [LawfulEqOrd κ] in
theorem keysAscend : table.keys.Pairwise fun a b => (compare a b).isLE :=
  TreeMap.ordered_keys.imp fun {a b} before => by rw [before]; rfl

theorem keysSorted (distinct : keys.Nodup) (same : ∀ k, k ∈ keys ↔ k ∈ table) :
    keys.mergeSort (fun a b => (compare a b).isLE) = table.keys := by
  have sorted : (keys.mergeSort fun a b => (compare a b).isLE).Pairwise fun a b => (compare a b).isLE := by
    refine List.pairwise_mergeSort (fun a b c => TransCmp.isLE_trans) (fun a b => ?_) keys
    rw [show compare b a = (compare a b).swap from OrientedCmp.eq_swap]
    cases compare a b <;> rfl
  refine eqOfAscending sorted keysAscend ((List.mergeSort_perm keys _).nodup_iff.2 distinct) TreeMap.nodup_keys ?_
  intro k
  rw [List.mem_mergeSort, same, TreeMap.mem_keys]

theorem entriesOfKeys (fallback : β) : table.toList = table.keys.map fun k => (k, table.getD k fallback) := by
  rw [← TreeMap.map_fst_toList_eq_keys, List.map_map]
  refine (List.map_id _).symm.trans (List.map_congr_left fun entry member => ?_)
  obtain ⟨k, b⟩ := entry
  have found : table[k]? = some b := TreeMap.mem_toList_iff_getElem?_eq_some.1 member
  simp [TreeMap.getD_eq_getD_getElem?, found]

end Tables

end MetadataIndex
