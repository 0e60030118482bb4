import MetadataIndex.OrderedSet
import MetadataIndex.Total

/-! Exploring a table whose entries lead to keys of other entries. An entry is visited when its key
is first taken from the pending ones; the order decides whether the keys it leads to are taken next,
the last one first, or after all that are pending. Keys without an entry lead nowhere. The weight
left in unvisited entries bounds the work. -/
namespace MetadataIndex
open Std

inductive Order where
  | depthFirst
  | breadthFirst
  deriving DecidableEq, Repr

namespace Order
variable {κ : Type}

def enqueue (order : Order) (found pending : List κ) : List κ :=
  match order with
  | .depthFirst => found.reverse ++ pending
  | .breadthFirst => pending ++ found

theorem lengthEnqueue (order : Order) (found pending : List κ) :
    (order.enqueue found pending).length = found.length + pending.length := by
  cases order <;> simp [enqueue, Nat.add_comm]

theorem memEnqueue {order : Order} {found pending : List κ} {k : κ} :
    k ∈ order.enqueue found pending ↔ k ∈ found ∨ k ∈ pending := by
  cases order <;> simp [enqueue, or_comm]

end Order

namespace OrderedSet
variable {α κ : Type} [Ord κ] [TransOrd κ] [LawfulEqOrd κ] {key : α → κ}

def weight (table seen : OrderedSet key) (targets : α → List κ) : Nat :=
  total (fun a => if seen.contains (key a) then 0 else (targets a).length) table.toList

theorem weightPays {table seen : OrderedSet key} (targets : α → List κ) {k : κ} {a : α}
    (found : table.find? k = some a) (fresh : seen.contains k = false) :
    table.weight (seen.insert a) targets + (targets a).length ≤ table.weight seen targets := by
  obtain ⟨member, rfl⟩ := findIff.1 found
  refine totalPays member fresh (containsIff.2 (keysInsert.2 (.inr rfl))) fun b old => ?_
  exact containsIff.2 (keysInsert.2 (.inl (containsIff.1 old)))

@[specialize] def explore (table : OrderedSet key) (targets : α → List κ) (order : Order) (seen : OrderedSet key)
    (pending : List κ) : OrderedSet key :=
  match pending with
  | [] => seen
  | k :: pending =>
      if _visited : seen.contains k then table.explore targets order seen pending
      else
        match _found : table.find? k with
        | none => table.explore targets order seen pending
        | some a => table.explore targets order (seen.insert a) (order.enqueue (targets a) pending)
termination_by table.weight seen targets + pending.length
decreasing_by
  · simp
  · simp
  · have paid := weightPays targets _found (Bool.eq_false_iff.2 _visited)
    simp only [Order.lengthEnqueue, List.length_cons]
    omega

end OrderedSet
end MetadataIndex
