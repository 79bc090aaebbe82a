/-
# One's-complement sums

Words are numbers below a base `B` (65536 for an Internet checksum). Their
one's-complement sum adds with end-around carry: a carry out of the word is
added back in at once (`ocAdd`). `rep n` is the word that stands for `n` modulo
`B - 1`, where `0` stands for `0` alone and `B - 1` for the other multiples.
The sum of any number of words, in any order, is `rep` of their plain sum
(`ocSum_eq_rep`); and folding the carries of a plain sum back in gives it as
soon as the result is a word (`fold_eq_rep`).

Key definitions: `ocAdd`, `ocSum`, `rep`, `fold`.
Key theorems: `ocSum_eq_rep`, `fold_eq_rep`, `rep_eq_iff`.
-/
import Mathlib.Algebra.BigOperators.Group.List.Basic
import Mathlib.Data.Nat.ModEq
import Mathlib.Tactic.Ring

namespace Autumn
namespace OnesComplement

variable (B : ℕ)

/-- Addition with end-around carry. -/
def ocAdd (a b : ℕ) : ℕ := if a + b < B then a + b else a + b - B + 1

def ocSum (l : List ℕ) : ℕ := l.foldl (ocAdd B) 0

/-- The word that stands for `n` modulo `B - 1`. -/
def rep (n : ℕ) : ℕ := if n = 0 then 0 else (n - 1) % (B - 1) + 1

/-- The carries of `n`, folded back in once. -/
def fold (n : ℕ) : ℕ := n % B + n / B

variable {B}

theorem rep_lt (hB : 2 ≤ B) (n : ℕ) : rep B n < B := by
  have := Nat.mod_lt (n - 1) (show 0 < B - 1 by omega)
  unfold rep
  split <;> omega

theorem rep_of_lt {n : ℕ} (h : n < B) : rep B n = n := by
  unfold rep
  split
  · omega
  · rw [Nat.mod_eq_of_lt (by omega)]
    omega

theorem rep_add_mul {n : ℕ} (hn : n ≠ 0) (q : ℕ) : rep B (n + q * (B - 1)) = rep B n := by
  rw [rep, rep, if_neg hn, if_neg (by omega), show n + q * (B - 1) - 1 = n - 1 + q * (B - 1) by omega,
    Nat.add_mul_mod_self_right]

/-- `B - 1` stands for the multiples of `B - 1` other than `0`. -/
theorem rep_eq_iff (hB : 2 ≤ B) {n : ℕ} (hn : n ≠ 0) : rep B n = B - 1 ↔ (B - 1) ∣ n := by
  unfold rep
  rw [if_neg hn]
  have hlt := Nat.mod_lt (n - 1) (show 0 < B - 1 by omega)
  have hdiv := Nat.mod_add_div (n - 1) (B - 1)
  constructor
  · intro h
    refine ⟨(n - 1) / (B - 1) + 1, ?_⟩
    rw [Nat.mul_add_one]
    omega
  · rintro ⟨k, hk⟩
    obtain ⟨k, rfl⟩ : ∃ j, k = j + 1 := ⟨k - 1, by cases k <;> omega⟩
    rw [Nat.mul_add_one] at hk
    rw [show n - 1 = B - 1 - 1 + (B - 1) * k by omega, Nat.add_mul_mod_self_left, Nat.mod_eq_of_lt (by omega)]
    omega

theorem ocAdd_rep (hB : 2 ≤ B) (n : ℕ) {a : ℕ} (ha : a < B) : ocAdd B (rep B n) a = rep B (n + a) := by
  by_cases hn : n = 0
  · subst hn
    rw [rep_of_lt (show 0 < B by omega), ocAdd, Nat.zero_add, if_pos ha, rep_of_lt ha]
  have hr := rep_lt hB n
  have hpos : rep B n ≠ 0 := by simp [rep, hn]
  have hq : n = rep B n + (n - 1) / (B - 1) * (B - 1) := by
    have := Nat.mod_add_div (n - 1) (B - 1)
    rw [Nat.mul_comm] at this
    unfold rep
    rw [if_neg hn]
    omega
  have hsum : rep B (n + a) = rep B (rep B n + a) := by
    calc rep B (n + a) = rep B (rep B n + a + (n - 1) / (B - 1) * (B - 1)) := by congr 1; omega
      _ = rep B (rep B n + a) := rep_add_mul (by omega) _
  rw [hsum, ocAdd]
  split
  · rename_i h
    rw [rep_of_lt h]
  · rename_i h
    rw [← rep_of_lt (show rep B n + a - B + 1 < B by omega), ← rep_add_mul (Nat.succ_ne_zero _) 1]
    congr 1
    omega

/-- **The sum depends on the plain sum only**, not on the order of the words. -/
theorem ocSum_eq_rep (hB : 2 ≤ B) {l : List ℕ} (hl : ∀ a ∈ l, a < B) : ocSum B l = rep B l.sum := by
  have h : ∀ (l : List ℕ) (n : ℕ), (∀ a ∈ l, a < B) → l.foldl (ocAdd B) (rep B n) = rep B (n + l.sum) := by
    intro l
    induction l with
    | nil => intro n _; rfl
    | cons a l ih =>
      intro n hl
      rw [List.foldl_cons, ocAdd_rep hB n (hl a List.mem_cons_self), ih _ fun b hb => hl b (List.mem_cons_of_mem a hb),
        List.sum_cons, Nat.add_assoc]
  have h0 := h l 0 hl
  rwa [Nat.zero_add] at h0

theorem fold_ne_zero {n : ℕ} (hn : n ≠ 0) : fold B n ≠ 0 := by
  intro h
  have := Nat.mod_add_div n B
  unfold fold at h
  rw [Nat.add_eq_zero_iff] at h
  rw [h.1, h.2] at this
  omega

theorem fold_add_mul (hB : 2 ≤ B) (n : ℕ) : n = fold B n + n / B * (B - 1) := by
  have h1 := Nat.mod_add_div n B
  have h2 : n / B * (B - 1) + n / B = B * (n / B) := by
    rw [← Nat.mul_succ, Nat.succ_eq_add_one, Nat.sub_add_cancel (by omega), Nat.mul_comm]
  unfold fold
  omega

theorem fold_eq_rep (hB : 2 ≤ B) {n : ℕ} (h : fold B n < B) : fold B n = rep B n := by
  by_cases hn : n = 0
  · subst hn
    rw [rep_of_lt (show 0 < B by omega), fold, Nat.zero_mod, Nat.zero_div]
  · calc fold B n = rep B (fold B n) := (rep_of_lt h).symm
      _ = rep B (fold B n + n / B * (B - 1)) := (rep_add_mul (fold_ne_zero hn) _).symm
      _ = rep B n := by rw [← fold_add_mul hB n]

end OnesComplement
end Autumn
