/-! Adding up a cost over a list, and what is saved when values leave the sum. -/
namespace MetadataIndex

def total {α : Type} (cost : α → Nat) : List α → Nat
  | [] => 0
  | a :: rest => cost a + total cost rest

theorem totalLength {α β : Type} {f : α → List β} {values : List α} :
    total (fun a => (f a).length) values = (values.flatMap f).length := by
  induction values with
  | nil => rfl
  | cons a rest ih => rw [total, ih, List.flatMap_cons, List.length_append]

theorem totalLe {α : Type} {cost bound : α → Nat} (le : ∀ a, cost a ≤ bound a) (values : List α) :
    total cost values ≤ total bound values := by
  induction values with
  | nil => exact Nat.le_refl 0
  | cons a rest ih => exact Nat.add_le_add (le a) ih

theorem totalPays {α : Type} {before after : α → Bool} {cost : α → Nat} {a : α} {values : List α}
    (member : a ∈ values) (fresh : before a = false) (visited : after a = true)
    (grows : ∀ b, before b = true → after b = true) :
    total (fun b => if after b then 0 else cost b) values + cost a ≤
      total (fun b => if before b then 0 else cost b) values := by
  have le (b : α) : (if after b then 0 else cost b) ≤ if before b then 0 else cost b := by
    cases h : before b
    · simp only [Bool.false_eq_true, if_false]
      split <;> omega
    · simp [grows b h]
  induction values with
  | nil => cases member
  | cons b rest ih =>
      simp only [total]
      rcases List.mem_cons.1 member with rfl | later
      · have := totalLe le rest
        simp only [visited, fresh, if_true, Bool.false_eq_true, if_false]
        omega
      · have := ih later
        have := le b
        omega

end MetadataIndex
