import MetadataIndex.Reference
import Std.Data.TreeMap.Lemmas

/-! The order by which references are filed: by name, then by their arguments from the left. Two
references compare as equal only when they are the same, so a tree of references loses none. -/
namespace MetadataIndex
open Std

namespace Argument

mutual
def order : (a b : Argument) → Ordering
  | .unbound, .unbound => .eq
  | .unbound, .parameter _ | .unbound, .type _ _ | .parameter _, .type _ _ => .lt
  | .parameter _, .unbound | .type _ _, .unbound | .type _ _, .parameter _ => .gt
  | .parameter p, .parameter q => compare p q
  | .type n as, .type m bs => (compare n m).then (orderAll as bs)
def orderAll : (as bs : List Argument) → Ordering
  | [], [] => .eq
  | [], _ :: _ => .lt
  | _ :: _, [] => .gt
  | a :: as, b :: bs => (order a b).then (orderAll as bs)
end

mutual
theorem orderSwap : (a b : Argument) → order a b = (order b a).swap
  | .unbound, .unbound | .unbound, .parameter _ | .unbound, .type _ _ | .parameter _, .type _ _
  | .parameter _, .unbound | .type _ _, .unbound | .type _ _, .parameter _ => by simp [order]
  | .parameter p, .parameter q => by simp only [order]; exact OrientedCmp.eq_swap
  | .type n as, .type m bs => by
      rw [order, order, Ordering.swap_then, ← orderAllSwap as bs, ← OrientedCmp.eq_swap]
theorem orderAllSwap : (as bs : List Argument) → orderAll as bs = (orderAll bs as).swap
  | [], [] | [], _ :: _ | _ :: _, [] => by simp [orderAll]
  | a :: as, b :: bs => by
      rw [orderAll, orderAll, Ordering.swap_then, ← orderAllSwap as bs, ← orderSwap a b]
end

mutual
theorem orderSelf : (a : Argument) → order a a = .eq
  | .unbound => by simp [order]
  | .parameter _ => by simp [order]
  | .type _ as => by simp [order, orderAllSelf as]
theorem orderAllSelf : (as : List Argument) → orderAll as as = .eq
  | [] => by simp [orderAll]
  | a :: as => by simp [orderAll, orderSelf a, orderAllSelf as]
end

mutual
theorem eqOfOrder : (a b : Argument) → order a b = .eq → a = b
  | .unbound, .unbound, _ => rfl
  | .unbound, .parameter _, h | .unbound, .type _ _, h | .parameter _, .type _ _, h
  | .parameter _, .unbound, h | .type _ _, .unbound, h | .type _ _, .parameter _, h => by
      simp [order] at h
  | .parameter p, .parameter q, h => by simpa [order] using h
  | .type n as, .type m bs, h => by
      simp only [order, Ordering.then_eq_eq, Std.compare_eq_iff_eq] at h
      rw [h.1, eqOfOrderAll as bs h.2]
theorem eqOfOrderAll : (as bs : List Argument) → orderAll as bs = .eq → as = bs
  | [], [], _ => rfl
  | [], _ :: _, h | _ :: _, [], h => by simp [orderAll] at h
  | a :: as, b :: bs, h => by
      simp only [orderAll, Ordering.then_eq_eq] at h
      rw [eqOfOrder a b h.1, eqOfOrderAll as bs h.2]
end

theorem thenTrans {ab bc ac : Ordering} {ab' bc' ac' : Ordering}
    (lt : ab = .lt → bc.isLE → ac = .lt) (lt' : ab.isLE → bc = .lt → ac = .lt)
    (eq : ab = .eq → bc = .eq → ac = .eq) (rest : ab'.isLE → bc'.isLE → ac'.isLE) :
    (ab.then ab').isLE → (bc.then bc').isLE → (ac.then ac').isLE := by
  cases ab <;> cases bc <;> simp_all

mutual
theorem orderTrans : (a b c : Argument) → (order a b).isLE → (order b c).isLE → (order a c).isLE
  | .unbound, _, c, _, _ => by cases c <;> simp [order]
  | .parameter _, .unbound, _, h, _ | .type _ _, .unbound, _, h, _
  | .type _ _, .parameter _, _, h, _ => by simp [order] at h
  | .parameter _, .parameter _, .unbound, _, h | .parameter _, .type _ _, .unbound, _, h
  | .parameter _, .type _ _, .parameter _, _, h | .type _ _, .type _ _, .unbound, _, h
  | .type _ _, .type _ _, .parameter _, _, h => by simp [order] at h
  | .parameter _, .parameter _, .type _ _, _, _ | .parameter _, .type _ _, .type _ _, _, _ => by
      simp [order]
  | .parameter p, .parameter q, .parameter r, h, k => by
      simp only [order] at h k ⊢
      exact TransCmp.isLE_trans h k
  | .type n as, .type m bs, .type l cs, h, k => by
      simp only [order] at h k ⊢
      exact thenTrans TransCmp.lt_of_lt_of_isLE TransCmp.lt_of_isLE_of_lt TransCmp.eq_trans
        (orderAllTrans as bs cs) h k
theorem orderAllTrans :
    (as bs cs : List Argument) → (orderAll as bs).isLE → (orderAll bs cs).isLE → (orderAll as cs).isLE
  | [], _, cs, _, _ => by cases cs <;> simp [orderAll]
  | _ :: _, [], _, h, _ => by simp [orderAll] at h
  | _ :: _, _ :: _, [], _, h => by simp [orderAll] at h
  | a :: as, b :: bs, c :: cs, h, k => by
      simp only [orderAll] at h k ⊢
      have le := orderTrans a b c
      refine thenTrans (fun below h => ?_) (fun h below => ?_) (fun same same' => ?_)
        (orderAllTrans as bs cs) h k
      · match at_ac : order a c with
        | .lt => rfl
        | .eq => simp [← eqOfOrder a c at_ac, orderSwap b a, below] at h
        | .gt => simp [below, h, at_ac] at le
      · match at_ac : order a c with
        | .lt => rfl
        | .eq => simp [eqOfOrder a c at_ac, orderSwap c b, below] at h
        | .gt => simp [below, h, at_ac] at le
      · rw [eqOfOrder a b same]
        exact same'
end

instance : Ord Argument := ⟨order⟩

instance : TransOrd Argument where
  eq_swap := orderSwap _ _
  isLE_trans := orderTrans _ _ _

instance : LawfulEqOrd Argument where
  compare_self := orderSelf _
  eq_of_compare := eqOfOrder _ _

end Argument

namespace TypeRef

instance : Ord TypeRef := ⟨compareLex (compareOn name) (compareOn arguments)⟩

instance : TransOrd TypeRef :=
  inferInstanceAs (TransCmp (compareLex (compareOn name) (compareOn arguments)))

instance : LawfulEqOrd TypeRef where
  compare_self := Std.compare_self
  eq_of_compare {a b} h := by
    obtain ⟨same, sameArguments⟩ := compareLex_eq_eq.1 h
    cases a
    cases b
    simp_all [compareOn]

end TypeRef
end MetadataIndex
