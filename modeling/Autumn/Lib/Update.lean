/-
# One member of a family changes

A step changes the state of one thread, or one account, and leaves the others.
Of a quantity that each member has, the new total and the old amount of that
member make up the old total and its new amount, whether the family is a
function (`sum_update`) or a list (`sum_map_set`). The number of the members
with a property is such a total (`card_filter_update`).

Key theorems: `sum_update`, `sum_map_set`, `card_filter_update`.
-/
import Mathlib.Algebra.BigOperators.Group.Finset.Piecewise
import Mathlib.Algebra.BigOperators.Group.List.Basic

namespace Autumn

variable {ι β M : Type*} [AddCommMonoid M]

section Functions

variable [Fintype ι] [DecidableEq ι]

theorem sum_update (g : β → M) (f : ι → β) (i : ι) (x : β) :
    ∑ k, g (Function.update f i x k) + g (f i) = ∑ k, g (f k) + g x := by
  have hrest : ∑ k ∈ Finset.univ.erase i, g (Function.update f i x k) = ∑ k ∈ Finset.univ.erase i, g (f k) := by
    apply Finset.sum_congr rfl
    intro k hk
    rw [Function.update_of_ne (Finset.ne_of_mem_erase hk)]
  calc ∑ k, g (Function.update f i x k) + g (f i)
      = g x + ∑ k ∈ Finset.univ.erase i, g (f k) + g (f i) := by
        rw [← Finset.add_sum_erase _ _ (Finset.mem_univ i), Function.update_self, hrest]
    _ = g (f i) + ∑ k ∈ Finset.univ.erase i, g (f k) + g x := by
        rw [add_right_comm, add_comm (g x), add_right_comm]
    _ = ∑ k, g (f k) + g x := by rw [Finset.add_sum_erase _ (fun k => g (f k)) (Finset.mem_univ i)]

variable (f : ι → β) (p : β → Prop) [DecidablePred p] (i : ι) {x : β}

theorem card_filter_update (x : β) :
    (Finset.univ.filter fun k => p (Function.update f i x k)).card + (if p (f i) then 1 else 0) =
      (Finset.univ.filter fun k => p (f k)).card + if p x then 1 else 0 := by
  rw [Finset.card_filter, Finset.card_filter]
  exact sum_update (fun y => if p y then 1 else 0) f i x

theorem card_filter_update_succ (hold : ¬ p (f i)) (hnew : p x) :
    (Finset.univ.filter fun k => p (Function.update f i x k)).card = (Finset.univ.filter fun k => p (f k)).card + 1 := by
  have h := card_filter_update f p i x
  rwa [if_neg hold, if_pos hnew, Nat.add_zero] at h

theorem card_filter_update_of_iff (h : p x ↔ p (f i)) :
    (Finset.univ.filter fun k => p (Function.update f i x k)).card = (Finset.univ.filter fun k => p (f k)).card := by
  have hcard := card_filter_update f p i x
  rw [if_congr h rfl rfl] at hcard
  exact Nat.add_right_cancel hcard

end Functions

theorem sum_map_set (g : β → M) {x y : β} : ∀ {l : List β} {k : ℕ}, l[k]? = some x →
    ((l.set k y).map g).sum + g x = (l.map g).sum + g y
  | z :: l, 0, h => by
    obtain rfl : z = x := Option.some.inj h
    rw [List.set_cons_zero, List.map_cons, List.map_cons, List.sum_cons, List.sum_cons, add_right_comm,
      add_comm (g y), add_right_comm]
  | z :: l, k + 1, h => by
    rw [List.getElem?_cons_succ] at h
    rw [List.set_cons_succ, List.map_cons, List.map_cons, List.sum_cons, List.sum_cons, add_assoc, add_assoc,
      sum_map_set g h]

end Autumn
