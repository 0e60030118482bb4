import MetadataIndex.OrderedSet
import Mathlib.Data.List.Basic
import Mathlib.Data.List.Induction

/-! Values of a list kept once each. They stand in the order of their first occurrences, later values leave
the earlier ones in place, and the same values in another order are kept in another order at most. -/
namespace MetadataIndex
open Std

variable {α : Type} [Ord α] [TransOrd α] [LawfulEqOrd α] [DecidableEq α] {values : List α}

theorem firstOccurrencesSnoc (values : List α) (last : α) :
    firstOccurrences (values ++ [last]) =
      if last ∈ values then firstOccurrences values else firstOccurrences values ++ [last] := by
  have snoc : OrderedSet.ofList id (values ++ [last]) = (OrderedSet.ofList id values).insert last := by
    simp [OrderedSet.ofList, OrderedSet.insertAll]
  have keys : last ∈ (OrderedSet.ofList (@id α) values).keys ↔ last ∈ values := by
    rw [OrderedSet.keysOfList, List.map_id]
  rw [firstOccurrences, snoc]
  split
  · next old => rw [OrderedSet.insertPresent (keys.2 old), firstOccurrences]
  · next fresh => rw [OrderedSet.insertFresh fun present => fresh (keys.1 present), firstOccurrences]

theorem firstOccurrencesOrdered (values : List α) :
    (firstOccurrences values).Pairwise fun a b => values.idxOf a < values.idxOf b := by
  induction values using List.reverseRecOn with
  | nil => exact .nil
  | append_singleton values last ih =>
      have within {a : α} (kept : a ∈ firstOccurrences values) : (values ++ [last]).idxOf a = values.idxOf a :=
        List.idxOf_append_of_mem (memFirstOccurrences.1 kept)
      have ordered : (firstOccurrences values).Pairwise fun a b =>
          (values ++ [last]).idxOf a < (values ++ [last]).idxOf b := by
        refine ih.imp_of_mem fun {a b} keptA keptB before => ?_
        rw [within keptA, within keptB]
        exact before
      rw [firstOccurrencesSnoc]
      split
      · exact ordered
      · next fresh =>
        refine List.pairwise_append.2 ⟨ordered, List.pairwise_singleton _ _, fun a kept b isLast => ?_⟩
        rw [List.mem_singleton.1 isLast, within kept, List.idxOf_append_of_notMem fresh]
        exact Nat.lt_add_right _ (List.idxOf_lt_length_iff.2 (memFirstOccurrences.1 kept))

theorem firstOccurrencesPrefix (values more : List α) :
    firstOccurrences values <+: firstOccurrences (values ++ more) := by
  induction more using List.reverseRecOn with
  | nil => simp
  | append_singleton more last ih =>
      rw [← List.append_assoc, firstOccurrencesSnoc]
      split
      · exact ih
      · exact ih.trans (List.prefix_append ..)

end MetadataIndex
