/-
# Descriptor tables

A process's descriptor table gives each number below a limit at most one open
object. `lowestFree` is the number that `open`, `accept` and `pipe` return: the
least one not in use. All numbers below it are in use, so it is at most their
number (`lowestFree_le`): a bound on the open descriptors is a bound on every
descriptor's value.

Key definitions: `Fds`, `Fds.lowestFree`, `Fds.put`, `Fds.close`,
`Fds.dup2`.
Key theorems: `lowestFree_spec`, `lowestFree_le`, `exists_lowestFree`.
-/
import Mathlib.Data.Finset.Card
import Mathlib.Data.Finset.Range

namespace Autumn

/-- The open objects by descriptor. -/
def Fds (δ : Type*) := ℕ → Option δ

namespace Fds

variable {δ : Type*}

/-- The least descriptor below the limit that is not in use. -/
def lowestFree (max : ℕ) (t : Fds δ) : Option ℕ := (List.range max).find? fun n => (t n).isNone

/-- Descriptor `n` now refers to `d`. -/
def put (t : Fds δ) (n : ℕ) (d : δ) : Fds δ := fun m => if m = n then some d else t m

/-- `close(n)`. -/
def close (t : Fds δ) (n : ℕ) : Fds δ := fun m => if m = n then none else t m

/-- `dup2(old, new)`; it fails, changing nothing, if `old` is closed. -/
def dup2 (t : Fds δ) (old new : ℕ) : Fds δ :=
  match t old with
  | some d => t.put new d
  | none => t

@[simp] theorem put_self (t : Fds δ) (n : ℕ) (d : δ) : t.put n d n = some d := if_pos rfl

theorem put_ne (t : Fds δ) {n m : ℕ} (d : δ) (h : m ≠ n) : t.put n d m = t m :=
  if_neg h

@[simp] theorem close_self (t : Fds δ) (n : ℕ) : t.close n n = none := if_pos rfl

theorem close_ne (t : Fds δ) {n m : ℕ} (h : m ≠ n) : t.close n m = t m := if_neg h

theorem dup2_eq {t : Fds δ} {old : ℕ} {d : δ} (h : t old = some d) (new : ℕ) :
    t.dup2 old new = t.put new d := by
  rw [dup2, h]

theorem lowestFree_spec {max n : ℕ} {t : Fds δ} :
    t.lowestFree max = some n ↔ n < max ∧ t n = none ∧ ∀ m < n, t m ≠ none := by
  rw [lowestFree, List.find?_range_eq_some, List.mem_range]
  simp only [Option.isNone_iff_eq_none, Bool.not_eq_true', Option.isNone_eq_false_iff,
    Option.isSome_iff_ne_none]
  tauto

theorem lowestFree_eq_none_iff {max : ℕ} {t : Fds δ} : t.lowestFree max = none ↔ ∀ n < max, t n ≠ none := by
  rw [lowestFree, List.find?_range_eq_none]
  simp only [Bool.not_eq_true', Option.isNone_eq_false_iff, Option.isSome_iff_ne_none]

theorem lowestFree_le {max n : ℕ} {t : Fds δ} (h : t.lowestFree max = some n) {used : Finset ℕ}
    (hu : ∀ m, t m ≠ none → m ∈ used) : n ≤ used.card := by
  obtain ⟨-, -, hlt⟩ := lowestFree_spec.mp h
  have hsub : Finset.range n ⊆ used := fun m hm => hu m (hlt m (Finset.mem_range.mp hm))
  simpa using Finset.card_le_card hsub

theorem exists_lowestFree {max : ℕ} {t : Fds δ} (used : Finset ℕ) (hu : ∀ m, t m ≠ none → m ∈ used)
    (h : used.card < max) : ∃ n, t.lowestFree max = some n := by
  apply Option.isSome_iff_exists.mp
  rw [lowestFree, List.find?_isSome]
  by_contra hall
  have hsub : Finset.range max ⊆ used := by
    intro m hm
    apply hu
    intro h0
    exact hall ⟨m, List.mem_range.mpr (Finset.mem_range.mp hm), by simp [h0]⟩
  have := Finset.card_le_card hsub
  rw [Finset.card_range] at this
  omega

end Fds
end Autumn
