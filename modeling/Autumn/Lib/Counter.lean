/-
# A counter that threads increment by a read and a write

Each thread increments the counter once: it reads it, and writes what it has
read plus one later. Nothing keeps another thread away in between.

While every thread reads when no other one is between its read and its write,
the counter is the number of threads that have written, and the one value that
has been read is the counter's (`Exact`). If a thread reads while another one is
in between, both write the same: from then on every value that is still to be
written, and in the end the counter, falls short of the number of threads that
have begun (`Short`), for good.

Key definitions: `Phase`, `Counter`, `Counter.read`, `Counter.write`, `Exact`,
`Short`.
Key theorems: `Exact.read`, `Exact.write`, `Exact.short`, `Short.read`,
`Short.write`.
-/
import Mathlib.Data.Fintype.Card
import Mathlib.Data.Int.Order.Basic
import Mathlib.Tactic.Common
import Autumn.Lib.Update

namespace Autumn

/-- Where a thread is: before its read, between this and its write, or through. -/
inductive Phase
  | before
  | between (v : ℤ)
  | through
  deriving DecidableEq, Repr

/-- The counter and the threads. -/
@[ext] structure Counter (ι : Type*) where
  value : ℤ
  phase : ι → Phase

namespace Counter

variable {ι : Type*}

/-- No thread is between its read and its write. -/
def Quiet (c : Counter ι) : Prop := ∀ i v, c.phase i ≠ .between v

section Threads

variable [DecidableEq ι]

/-- Thread `i` reads the counter. -/
def read (c : Counter ι) (i : ι) : Counter ι :=
  { c with phase := Function.update c.phase i (.between c.value) }

/-- Thread `i` writes, when it has read `v`. -/
def write (c : Counter ι) (i : ι) (v : ℤ) : Counter ι where
  value := v + 1
  phase := Function.update c.phase i .through

variable {c : Counter ι} {i : ι} {v : ℤ}

theorem between_read {P : ι → ℤ → Prop} (hi : P i c.value) (h : ∀ k u, c.phase k = .between u → P k u) (k : ι) (u : ℤ)
    (hk : (c.read i).phase k = .between u) : P k u := by
  change Function.update c.phase i (.between c.value) k = _ at hk
  by_cases hki : k = i
  · rw [hki, Function.update_self, Phase.between.injEq] at hk
    rwa [hki, ← hk]
  · rw [Function.update_of_ne hki] at hk
    exact h k u hk

theorem between_write {k : ι} {u : ℤ} (hk : (c.write i v).phase k = .between u) : k ≠ i ∧ c.phase k = .between u := by
  change Function.update c.phase i .through k = _ at hk
  by_cases hki : k = i
  · rw [hki, Function.update_self] at hk
    cases hk
  · rw [Function.update_of_ne hki] at hk
    exact ⟨hki, hk⟩

end Threads

variable [Fintype ι]

/-- How many threads have written. -/
def written (c : Counter ι) : ℕ := (Finset.univ.filter fun i => c.phase i = .through).card

/-- How many threads have read. -/
def begun (c : Counter ι) : ℕ := (Finset.univ.filter fun i => c.phase i ≠ .before).card

/-- Every increment has counted: a thread in between has the counter's value,
and is the only one. -/
structure Exact (c : Counter ι) : Prop where
  value : c.value = c.written
  between : ∀ i v, c.phase i = .between v → v = c.value ∧ ∀ k u, c.phase k = .between u → k = i

/-- An increment is lost, whatever is written yet. -/
structure Short (c : Counter ι) : Prop where
  value : c.value < c.begun
  between : ∀ i v, c.phase i = .between v → v + 1 < c.begun

variable {c : Counter ι} {i : ι} {v : ℤ}

/-! ### Counting threads -/

theorem written_le_begun (c : Counter ι) : c.written ≤ c.begun := by
  apply Finset.card_le_card
  intro k hk
  rw [Finset.mem_filter_univ] at hk ⊢
  simp [hk]

theorem begun_eq_written (h : c.Quiet) : c.begun = c.written := by
  unfold begun written
  congr 1
  ext k
  rw [Finset.mem_filter_univ, Finset.mem_filter_univ]
  cases hk : c.phase k with
  | before => simp
  | between v => exact absurd hk (h k v)
  | through => simp

theorem Short.value_lt (h : c.Short) (hq : c.Quiet) : c.value < c.written := begun_eq_written hq ▸ h.value

theorem begun_le_card (c : Counter ι) : c.begun ≤ Fintype.card ι := Finset.card_le_univ _

theorem written_eq_card_iff : c.written = Fintype.card ι ↔ ∀ i, c.phase i = .through := by
  rw [written, Fintype.card, Finset.card_filter_eq_iff]
  simp

theorem through_of_card_le (h : Fintype.card ι ≤ c.written) : ∀ i, c.phase i = .through :=
  written_eq_card_iff.mp (le_antisymm (Finset.card_le_univ _) h)

variable [DecidableEq ι]

theorem begun_read (h : c.phase i = .before) : (c.read i).begun = c.begun + 1 :=
  card_filter_update_succ c.phase (· ≠ .before) i (not_not.mpr h) (by simp)

theorem written_read (h : c.phase i = .before) : (c.read i).written = c.written :=
  card_filter_update_of_iff c.phase (· = .through) i (by simp [h])

theorem begun_write (h : c.phase i = .between v) : (c.write i v).begun = c.begun :=
  card_filter_update_of_iff c.phase (· ≠ .before) i (by simp [h])

theorem written_write (h : c.phase i = .between v) : (c.write i v).written = c.written + 1 :=
  card_filter_update_succ c.phase (· = .through) i (by simp [h]) rfl

theorem written_lt_begun (h : c.phase i = .between v) : c.written < c.begun := by
  have hwritten := written_write h
  have hbegun := begun_write h
  have hle := (c.write i v).written_le_begun
  omega

/-! ### Reads and writes -/

/-- **A read on its own** loses nothing. -/
theorem Exact.read (h : c.Exact) (hi : c.phase i = .before) (hq : c.Quiet) : (c.read i).Exact where
  value := by rw [written_read hi]; exact h.value
  between := by
    have honly : ∀ k u, (c.read i).phase k = .between u → k = i :=
      between_read rfl fun k u hk => absurd hk (hq k u)
    intro k u hk
    refine ⟨?_, fun k' u' hk' => (honly k' u' hk').trans (honly k u hk).symm⟩
    exact between_read (P := fun _ u => u = c.value) rfl (fun k u hk => absurd hk (hq k u)) k u hk

/-- **A write** counts, if nothing is lost yet. -/
theorem Exact.write (h : c.Exact) (hi : c.phase i = .between v) : (c.write i v).Exact where
  value := by
    have hv := (h.between i v hi).1
    have hvalue := h.value
    have hwritten := written_write hi
    show v + 1 = ((c.write i v).written : ℤ)
    omega
  between := by
    intro k u hk
    obtain ⟨hki, hk⟩ := between_write hk
    exact absurd ((h.between i v hi).2 k u hk) hki

/-- **A read while another thread is in between** loses an increment. -/
theorem Exact.short (h : c.Exact) (hi : c.phase i = .before) (hq : ¬ c.Quiet) : (c.read i).Short := by
  obtain ⟨j, v, hj⟩ : ∃ j v, c.phase j = .between v := by
    unfold Quiet at hq
    push Not at hq
    exact hq
  have hlt := written_lt_begun hj
  have hvalue := h.value
  have hbegun : c.value + 1 < (c.read i).begun := by
    rw [begun_read hi]
    omega
  refine ⟨?_, between_read hbegun fun k u hk => ?_⟩
  · show c.value < _
    omega
  · rw [(h.between k u hk).1]
    exact hbegun

theorem Short.read (h : c.Short) (hi : c.phase i = .before) : (c.read i).Short := by
  have hvalue := h.value
  have hbegun := begun_read hi
  refine ⟨?_, between_read (by omega) fun k u hk => ?_⟩
  · show c.value < _
    omega
  · have := h.between k u hk
    omega

theorem Short.write (h : c.Short) (hi : c.phase i = .between v) : (c.write i v).Short where
  value := by
    rw [begun_write hi]
    exact h.between i v hi
  between := by
    intro k u hk
    rw [begun_write hi]
    exact h.between k u (between_write hk).2

end Counter
end Autumn
