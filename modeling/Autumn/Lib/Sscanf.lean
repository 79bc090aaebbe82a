/-
# What the kernel's `sscanf` finds

A number for `%d` and a word for `%s`, behind the white space. Every number is
found again in its own text (`scan_d_text`).

Key definitions: `isspace`, `scan_d`, `scan_s`, `text`.
Key theorems: `scan_digits_decimal`, `scan_d_text`, `text_injective`.
-/
import Mathlib.Data.Int.Order.Basic
import Autumn.Lib.CString
import Autumn.Lib.Decimal

namespace Autumn
namespace Sscanf

/-- `isspace` of the kernel. -/
def isspace (c : UInt8) : Bool := (9 ≤ c && c ≤ 13) || c == 32 || c == 160

def isdigit (c : UInt8) : Bool := 48 ≤ c && c ≤ 57

/-- The digits at the start, as a number, if there is one. -/
def scan_digits (s : List UInt8) : Option ℕ :=
  if s.takeWhile isdigit = [] then none
  else some ((s.takeWhile isdigit).foldl (fun m c => 10 * m + (c.toNat - 48)) 0)

/-- The number found for `%d`. -/
def scan_d (buf : List UInt8) : Option ℤ :=
  let s := buf.dropWhile isspace
  -- a minus sign
  if s.head? = some 45 then (scan_digits s.tail).map fun m : ℕ => -(m : ℤ)
  else (scan_digits s).map fun m : ℕ => (m : ℤ)

/-- The word found for `%s` in the string at the start of `buf`. -/
def scan_s (buf : List UInt8) : List UInt8 := ((cstr buf).dropWhile isspace).takeWhile fun c => !isspace c

/-- The number as one writes it. -/
def text (z : ℤ) : List UInt8 := if z < 0 then 45 :: decimal z.natAbs else decimal z.natAbs

theorem scan_digits_decimal (n : ℕ) {r : List UInt8} (hr : ∀ c ∈ r.head?, isdigit c = false) :
    scan_digits (decimal n ++ r) = some n := by
  have hall : ∀ c ∈ decimal n, isdigit c = true := fun c hc => by
    have hd := mem_decimal hc
    simpa [isdigit, UInt8.le_iff_toNat_le] using hd
  have hend : r.takeWhile isdigit = [] := by
    cases r with
    | nil => rfl
    | cons c r => rw [List.takeWhile_cons_of_neg (by simp [hr c rfl])]
  rw [scan_digits, List.takeWhile_append_of_pos hall, hend, List.append_nil, if_neg (decimal_ne_nil n),
    foldl_decimal]

theorem not_space_of_digit {c : UInt8} (hc : 48 ≤ c.toNat ∧ c.toNat ≤ 57) : isspace c = false ∧ c ≠ 45 := by
  simp [isspace, UInt8.le_iff_toNat_le, ← UInt8.toNat_inj]
  omega

/-- **Every number is found** where it is written out with a newline behind it. -/
theorem scan_d_text (z : ℤ) : scan_d (text z ++ [10]) = some z := by
  have hnl : ∀ c ∈ [(10 : UInt8)].head?, isdigit c = false := fun c hc => by
    obtain rfl : 10 = c := Option.some.inj hc
    rfl
  unfold text
  by_cases hz : z < 0
  · rw [if_pos hz, List.cons_append, scan_d, List.dropWhile_cons_of_neg (by decide), List.head?_cons, if_pos rfl,
      List.tail_cons, scan_digits_decimal _ hnl, Option.map_some]
    congr 1
    omega
  · obtain ⟨c, s, hcs⟩ := List.exists_cons_of_ne_nil (decimal_ne_nil z.natAbs)
    have hc := mem_decimal (n := z.natAbs) (x := c) (by rw [hcs]; simp)
    obtain ⟨hspace, hminus⟩ := not_space_of_digit hc
    have hdigits : scan_digits (c :: (s ++ [10])) = some z.natAbs := by
      rw [← List.cons_append, ← hcs]
      exact scan_digits_decimal _ hnl
    rw [if_neg hz, hcs, List.cons_append, scan_d, List.dropWhile_cons_of_neg (by simp [hspace]), List.head?_cons,
      if_neg (by simpa using hminus), hdigits, Option.map_some]
    congr 1
    omega

theorem text_injective {z z' : ℤ} (h : text z = text z') : z = z' := by
  have hscan := scan_d_text z
  rw [h, scan_d_text, Option.some.injEq] at hscan
  exact hscan.symm

end Sscanf
end Autumn
