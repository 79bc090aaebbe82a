/-
# What precedes the last component (`dirname & basename/dirn.c`)

`dirn` cuts the normal form off at its last slash. Its second test assigns 0 to
`amount` where a comparison was meant; what is left of the test is
`slash == 0`, and that is the test that is needed (`dirn_holds`).

Key definitions: `dirn`, `Memory.ZeroBuf`.
Key theorems: `dirn_holds`, `dirn_spec`, `dirn_dirname`.
-/
import Autumn.Paths.Basen

namespace Autumn
namespace Paths

open Pathname

def dirn (C : Strcmp) (m : Memory) (pathname : List UInt8) : Option Block := do
  let (string, _, k) ← normalise C m pathname
  let root ← string.strcmp C [slash]
  let c ← string.read 0
  if root = 0 ∨ (k = 1 ∧ c = slash) then string.strcpy [slash, 0]
  else
    -- `(amount = 0)` is an assignment, and false
    let amount := 0
    if amount ≠ 0 ∨ k = 0 ∨ (amount > 0 ∧ k = 1) then string.strcpy [period, 0]
    else do
      let dots ← string.strcmp C [period, period]
      if dots = 0 then string.strcpy [period, 0]
      else do
        let i ← nthSlash string.chars.chars 0 k
        string.clear i

/-- What `dirn` is assumed to find: no slash before the block, and a zero in the
scratch buffer behind what it writes. -/
structure Memory.ZeroBuf (m : Memory) (p : List UInt8) : Prop where
  before : m.string.before ≠ slash
  heap : m.heap (collapse slash p).length = 0

theorem Memory.ZeroBehind.zeroBuf {m : Memory} {p : List UInt8} (h : m.ZeroBehind p) : m.ZeroBuf p :=
  ⟨h.before, h.heap⟩

/-- Whatever string is cut, the block holds what precedes its last component. -/
theorem dirn_holds (C : Strcmp) (m : Memory) {p q : List UInt8} {s : Block} {n : ℕ}
    (hs : normalise C m p = some (s, n, q.count slash)) (hholds : s.Holds q) :
    ∃ t, dirn C m p = some t ∧ t.Holds (dirname slash period q) ∧ t.before = s.before := by
  have hread : ∃ c, s.read 0 = some c ∧ (q.head? = some slash ↔ c = slash) := by
    obtain ⟨r, hr⟩ := hholds.eq_append
    unfold Block.read
    rw [hr]
    cases q with
    | nil => exact ⟨0, rfl, iff_of_false (by simp) (by decide)⟩
    | cons a q => exact ⟨a, rfl, by simp⟩
  obtain ⟨c0, hc0, hhead⟩ := hread
  unfold dirn
  rw [hs]
  simp only [Option.bind_eq_bind, Option.bind_some, hc0, hholds.strcmp, C.eq_zero, ← hhead, ne_eq, not_true_eq_false,
    gt_iff_lt, lt_irrefl, false_and, or_false, false_or]
  obtain ⟨root, hroot, hR, hRb⟩ := s.strcpy_literal (w := [slash]) (by decide) (by decide)
  obtain ⟨dot, hdot, hD, hDb⟩ := s.strcpy_literal (w := [period]) (by decide) (by decide)
  by_cases hmem : slash ∈ q
  · obtain ⟨d, c, rfl, hc⟩ := exists_split hmem
    by_cases hlone : d = [] ∧ c = []
    · obtain ⟨rfl, rfl⟩ := hlone
      rw [if_pos (.inl rfl)]
      exact ⟨root, hroot, hR, hRb⟩
    · have hne : d ≠ [] ∨ c ≠ [] := not_and_or.mp hlone
      rw [dirname_of_split hc hne]
      simp only [split_ne_root hne, false_or, and_comm (a := List.count slash _ = 1), head_split_iff hc]
      by_cases hd : d = []
      · rw [if_pos hd, if_pos hd]
        exact ⟨root, hroot, hR, hRb⟩
      · obtain ⟨t, ht, hT, htb⟩ := hholds.clear
        rw [if_neg hd, if_neg (by rw [count_split hc]; omega), if_neg (split_ne (by decide)), hholds.nthSlash hc,
          Option.bind_some, if_neg hd]
        exact ⟨t, ht, hT, htb⟩
  · have hk : q.count slash = 0 := List.count_eq_zero_of_not_mem hmem
    have hroot' : q ≠ [slash] := fun h => hmem (h ▸ List.mem_singleton_self slash)
    rw [if_neg (by rw [hk]; exact not_or.mpr ⟨hroot', fun h => absurd h.1 (by decide)⟩), if_pos hk,
      dirname_of_not_mem hmem]
    exact ⟨dot, hdot, hD, hDb⟩

/-- **The block holds what precedes the last component.** -/
theorem dirn_spec (C : Strcmp) (m : Memory) {p : List UInt8} (hp : (0 : UInt8) ∉ p) (hlen : p.length ≤ 4095)
    (hm : m.ZeroBuf p) :
    ∃ t, dirn C m p = some t ∧ t.Holds (dirname slash period (normal slash p)) ∧ t.before = m.string.before := by
  obtain ⟨s, hs, hholds, hsb⟩ := normalise_spec C m hp hlen hm.before hm.heap
  rw [← hsb]
  exact dirn_holds C m hs hholds

/-- **`dirn` returns the POSIX dirname of the collapsed path.** -/
theorem dirn_dirname (C : Strcmp) (m : Memory) (p : List UInt8) (hp : (0 : UInt8) ∉ p) (hlen : p.length ≤ 4095)
    (hm : m.ZeroBuf p) : returned (dirn C m p) = some (dirname slash period (normal slash p)) := by
  obtain ⟨t, ht, hT, -⟩ := dirn_spec C m hp hlen hm
  rw [ht, hT.returned]

theorem dirn_dirname_slashes : dirname slash period (normal slash slashes) = [47, 97] ∧
    returned (dirn Strcmp.sign Memory.zeros slashes) = some (dirname slash period (normal slash slashes)) :=
  ⟨by decide, dirn_dirname Strcmp.sign Memory.zeros slashes (by decide) (by decide) ⟨by decide, rfl⟩⟩

end Paths
end Autumn
