/-
# Counted loops that may fail

`for (i = 0; i < n; i++)` over a state that an iteration can fail to produce is
a fold in `Option` over `List.range n`. The rule for it: an invariant of the
index and the state that every iteration re-establishes for the next index
holds with index `n` at the end, and the loop does not fail. A loop with an
iteration that fails in every state fails.

Key theorems: `foldlM_range`, `foldlM_range_eq_none`.
-/
import Mathlib.Data.List.Range

namespace Autumn

variable {σ : Type*}

/-- The rule for counted loops. -/
theorem foldlM_range {f : σ → ℕ → Option σ} (P : ℕ → σ → Prop) : ∀ {n : ℕ} {s : σ}, P 0 s →
    (∀ i s, i < n → P i s → ∃ s', f s i = some s' ∧ P (i + 1) s') →
    ∃ s', (List.range n).foldlM f s = some s' ∧ P n s'
  | 0, s, h0, _ => ⟨s, rfl, h0⟩
  | n + 1, s, h0, hstep => by
    obtain ⟨s1, h1, hP1⟩ := foldlM_range P (n := n) h0 fun i t hi => hstep i t (by omega)
    obtain ⟨s2, h2, hP2⟩ := hstep n s1 (by omega) hP1
    refine ⟨s2, ?_, hP2⟩
    rw [List.range_succ, List.foldlM_append, h1]
    simpa using h2

theorem foldlM_range_eq_none {f : σ → ℕ → Option σ} {i : ℕ} (h : ∀ s, f s i = none) : ∀ {n : ℕ} (s : σ), i < n →
    (List.range n).foldlM f s = none
  | n + 1, s, hi => by
    rw [List.range_succ, List.foldlM_append]
    rcases Nat.lt_succ_iff_lt_or_eq.mp hi with hlt | rfl
    · rw [foldlM_range_eq_none h s hlt]
      rfl
    · cases (List.range i).foldlM f s with
      | none => rfl
      | some t => simp [h]

theorem foldlM_range_congr {f g : σ → ℕ → Option σ} : ∀ {n : ℕ} (s : σ), (∀ i s, i < n → f s i = g s i) →
    (List.range n).foldlM f s = (List.range n).foldlM g s
  | 0, _, _ => rfl
  | n + 1, s, h => by
    have ih := foldlM_range_congr s fun i t hi => h i t (Nat.lt_succ_of_lt hi)
    have hlast : ∀ t, f t n = g t n := fun t => h n t n.lt_succ_self
    simp only [List.range_succ, List.foldlM_append, ih, List.foldlM_cons, List.foldlM_nil, hlast]

end Autumn
