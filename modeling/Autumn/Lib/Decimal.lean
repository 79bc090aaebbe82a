/-
# Numerals

A numeral is a prefix of another one exactly if its number is the other's with
its last digits dropped (`toDigits_prefix_iff`). Where fields are separated by a
character that is in none of them, a prefix agrees in every field it has to the
end (`prefix_separated_iff`). `decimal` is the decimal numeral in ASCII.

Key definitions: `decimal`.
Key theorems: `toDigits_injective`, `toDigits_prefix_iff`, `prefix_separated_iff`,
`decimal_injective`, `decimal_prefix_iff`, `foldl_decimal`.
-/
import Mathlib.Data.List.Infix
import Mathlib.Data.UInt
import Mathlib.Tactic.Common

namespace Autumn

section Digits

variable {b : ℕ} (hb : 1 < b) (hb' : b ≤ 10)
include hb hb'

theorem toDigits_injective : Function.Injective (Nat.toDigits b) := fun m n h => by
  calc m = Nat.ofDigitChars b (Nat.toDigits b m) 0 := (Nat.ofDigitChars_toDigits hb hb').symm
    _ = Nat.ofDigitChars b (Nat.toDigits b n) 0 := by rw [h]
    _ = n := Nat.ofDigitChars_toDigits hb hb'

/-- **A numeral that starts another one** is that one without its last digits.
The numeral `0` starts itself only. -/
theorem toDigits_prefix_iff (m n : ℕ) :
    Nat.toDigits b m <+: Nat.toDigits b n ↔ ∃ k, m = n / b ^ k ∧ (m = 0 → n = 0) := by
  induction n using Nat.strongRecOn with
  | ind n ih =>
    by_cases hlt : n < b
    · -- one digit
      rw [Nat.toDigits_of_lt_base hlt]
      constructor
      · intro h
        have heq : Nat.toDigits b m = Nat.toDigits b n := by
          rw [Nat.toDigits_of_lt_base hlt]
          exact (List.prefix_concat_iff.mp (show _ <+: [] ++ [_] from h)).resolve_right fun h0 =>
            Nat.toDigits_ne_nil (List.prefix_nil.mp h0)
        obtain rfl := toDigits_injective hb hb' heq
        exact ⟨0, by simp, id⟩
      · rintro ⟨k, rfl, h0⟩
        suffices h : n / b ^ k = n by rw [h, Nat.toDigits_of_lt_base hlt]
        cases k with
        | zero => simp
        | succ k =>
          have hz : n / b ^ (k + 1) = 0 :=
            Nat.div_eq_of_lt (hlt.trans_le (Nat.le_self_pow (Nat.succ_ne_zero k) b))
          rw [hz, h0 hz]
    · -- the last digit, and those before it
      have hle : b ≤ n := Nat.le_of_not_lt hlt
      have hq : n / b ≠ 0 := (Nat.div_pos hle (by omega)).ne'
      rw [Nat.toDigits_of_base_le hb hle, List.prefix_concat_iff, ← Nat.toDigits_of_base_le hb hle,
        (toDigits_injective hb hb').eq_iff, ih (n / b) (Nat.div_lt_self (by omega) hb)]
      constructor
      · rintro (rfl | ⟨k, rfl, h0⟩)
        · exact ⟨0, by simp, id⟩
        · exact ⟨k + 1, by rw [Nat.div_div_eq_div_mul, Nat.pow_succ'], fun h => absurd (h0 h) hq⟩
      · rintro ⟨k, rfl, h0⟩
        cases k with
        | zero => exact .inl (by simp)
        | succ k =>
          refine .inr ⟨k, by rw [Nat.div_div_eq_div_mul, Nat.pow_succ'], fun h => ?_⟩
          rw [h0 h, Nat.zero_div]

end Digits

variable {α : Type*}

/-- Behind a field that ends with `sep` the comparison goes on. -/
theorem prefix_separated_iff {sep : α} {a b : List α} (ha : sep ∉ a) (hb : sep ∉ b) (s t : List α) :
    a ++ sep :: s <+: b ++ sep :: t ↔ a = b ∧ s <+: t := by
  induction a generalizing b with
  | nil =>
    cases b with
    | nil => simp [List.cons_prefix_cons]
    | cons c b =>
      have hc : sep ≠ c := fun h => hb (by simp [h])
      simp [List.cons_prefix_cons, hc]
  | cons x a ih =>
    have hx : x ≠ sep := fun h => ha (by simp [h])
    have ha' : sep ∉ a := fun h => ha (List.mem_cons_of_mem x h)
    cases b with
    | nil => simp [List.cons_prefix_cons, hx]
    | cons c b =>
      have hb' : sep ∉ b := fun h => hb (List.mem_cons_of_mem c h)
      rw [List.cons_append, List.cons_append, List.cons_prefix_cons, ih ha' hb', List.cons.injEq, and_assoc]

/-! ### In ASCII -/

/-- The number in decimal. -/
def decimal (n : ℕ) : List UInt8 := (Nat.toDigits 10 n).map fun c => c.toNat.toUInt8

theorem toNat_digit {c : Char} (h : c.isDigit = true) :
    c.toNat.toUInt8.toNat = c.toNat ∧ 48 ≤ c.toNat ∧ c.toNat ≤ 57 := by
  have hd : 48 ≤ c.toNat ∧ c.toNat ≤ 57 := by simpa [Char.isDigit, UInt32.le_iff_toNat_le] using h
  exact ⟨Nat.mod_eq_of_lt (show c.toNat < 2 ^ 8 by omega), hd⟩

theorem isDigit_of_mem_toDigits {n : ℕ} {c : Char} (hc : c ∈ Nat.toDigits 10 n) : c.isDigit = true :=
  Nat.isDigit_of_mem_toDigits (by decide) (by decide) hc

theorem mem_decimal {n : ℕ} {x : UInt8} (hx : x ∈ decimal n) : 48 ≤ x.toNat ∧ x.toNat ≤ 57 := by
  obtain ⟨c, hc, rfl⟩ := List.mem_map.mp hx
  obtain ⟨hd, hle⟩ := toNat_digit (isDigit_of_mem_toDigits hc)
  rw [hd]
  exact hle

theorem decimal_ne_nil (n : ℕ) : decimal n ≠ [] := fun h => Nat.toDigits_ne_nil (List.map_eq_nil_iff.mp h)

theorem map_decimal (n : ℕ) : (decimal n).map (fun x => Char.ofNat x.toNat) = Nat.toDigits 10 n := by
  have hback : ∀ c ∈ Nat.toDigits 10 n, Char.ofNat c.toNat.toUInt8.toNat = c := fun c hc => by
    rw [(toNat_digit (isDigit_of_mem_toDigits hc)).1, Char.ofNat_toNat]
  rw [decimal, List.map_map]
  exact (List.map_congr_left hback).trans (List.map_id _)

theorem decimal_injective : Function.Injective decimal := fun m n h => by
  have hmap := congrArg (List.map fun x => Char.ofNat x.toNat) h
  rw [map_decimal, map_decimal] at hmap
  exact toDigits_injective (by decide) (by decide) hmap

theorem decimal_prefix_iff (m n : ℕ) : decimal m <+: decimal n ↔ ∃ k, m = n / 10 ^ k ∧ (m = 0 → n = 0) := by
  rw [← toDigits_prefix_iff (by decide) (by decide)]
  constructor
  · intro h
    have hmap := h.map fun x => Char.ofNat x.toNat
    rwa [map_decimal, map_decimal] at hmap
  · exact fun h => h.map _

/-- Reading a numeral digit by digit. -/
theorem foldl_decimal (n : ℕ) : (decimal n).foldl (fun m x => 10 * m + (x.toNat - 48)) 0 = n := by
  have hdigit : ∀ l : List Char, (∀ c ∈ l, c.isDigit = true) → ∀ m, (l.map fun c => c.toNat.toUInt8).foldl
      (fun m x => 10 * m + (x.toNat - 48)) m = Nat.ofDigitChars 10 l m := by
    intro l
    induction l with
    | nil => exact fun _ _ => rfl
    | cons c l ih =>
      intro hl m
      rw [List.map_cons, List.foldl_cons, (toNat_digit (hl c List.mem_cons_self)).1,
        ih (fun c' hc' => hl c' (List.mem_cons_of_mem c hc')), Nat.ofDigitChars_cons]
      rfl
  rw [decimal, hdigit _ (fun c hc => isDigit_of_mem_toDigits hc), Nat.ofDigitChars_ten_toDigits]

end Autumn
