/-
# Where the accesses are (`dirname & basename`)

The block has room for every path of 4095 characters, and `buf` for what is
collapsed of one. Three accesses are outside all the same. `string[-1]` is read
if the path begins with a slash, and, after the collapsing, if it is empty. The
copy back reads on behind `buf`, which is never terminated, unless `malloc`
returned a zero behind the collapsed path. And `filename` has the size of the
longest name without its NUL, and is not terminated either: the copy from it
reads on behind it unless it holds a zero behind the name, and a longer name is
written beyond it (`inside_iff`).

Where the model of `basen` and `dirn` reads the byte before the block, the
functions here are undefined.

Key definitions: `normaliseIn`, `Inside`, `Memory.Copies`, `Memory.NameEnds`.
Key theorems: `normaliseIn_eq`, `normaliseIn_eq_none`, `basen_eq_some_iff`,
`basen_long`, `inside_iff`.
-/
import Autumn.Paths.Dirn

namespace Autumn
namespace Paths

open Pathname

/-! ### Without the byte before the block -/

/-- `squeezeStep`, which reads `string[i - 1]` behind a slash only. -/
def squeezeStepIn (string : Block) {n : ℕ} (st : Buf UInt8 n × ℕ) (i : ℕ) : Option (Buf UInt8 n × ℕ) := do
  let c ← string.read i
  if c = slash ∧ i = 0 then none else squeezeStep string st i

def collapseRunsIn (string : Block) (heap : ℕ → UInt8) (amount : ℕ) : Option Block := do
  let (buf, _) ← (List.range amount).foldlM (squeezeStepIn string) (malloc heap (amount + 1), 0)
  string.strcpy buf.chars

def trimSlashIn (string : Block) (amount : ℕ) : Option (Block × ℕ) :=
  if amount = 0 then none else trimSlash string amount

def trimAgainIn (C : Strcmp) (string : Block) (amount k : ℕ) : Option (Block × ℕ × ℕ) :=
  if amount = 0 then none else trimAgain C string amount k

/-- The statements of `normalise`. -/
def normaliseIn (C : Strcmp) (m : Memory) (pathname : List UInt8) : Option (Block × ℕ × ℕ) := do
  let string ← m.string.strcpy (pathname ++ [0])
  let amount ← string.strlen
  let string ← collapseRunsIn string m.heap amount
  let amount ← string.strlen
  let (string, amount) ← trimSlashIn string amount
  let k ← countSlashes string amount
  trimAgainIn C string amount k

/-- Every access of a call that ends with `r` is inside its array: those of the
model, and `string[i - 1]`, which no statement behind `normalise` reads. -/
def Inside (C : Strcmp) (m : Memory) (p : List UInt8) (r : Option Block) : Prop :=
  ∃ s t, normaliseIn C m p = some s ∧ r = some t

/-! ### The condition -/

/-- What is copied back, if `buf` holds a zero. -/
def copied (m : Memory) (p : List UInt8) : List UInt8 := cstr (scratch m.heap p (collapse slash p))

/-- The path is not empty and does not begin with a slash, and `buf` holds a
zero. -/
structure Memory.Copies (m : Memory) (p : List UInt8) : Prop where
  relative : Relative slash p
  ends : (0 : UInt8) ∈ scratch m.heap p (collapse slash p)

/-- `filename` holds a zero behind as many characters as follow the last slash,
if there is a slash. -/
def Memory.NameEnds (C : Strcmp) (m : Memory) (p : List UInt8) : Prop :=
  ∀ d c, ended C (copied m p) = d ++ slash :: c → slash ∉ c → (0 : UInt8) ∈ m.filename.chars.drop c.length

theorem relative_copied {m : Memory} {p : List UInt8} (hp : (0 : UInt8) ∉ p) (h : Relative slash p) :
    Relative slash (copied m p) := by
  have hnz : (0 : UInt8) ∉ collapse slash p := fun hm => hp (mem_of_mem_squeeze (h.squeeze_eq 0 ▸ hm))
  unfold copied scratch
  rw [cstr_append hnz]
  exact h.collapse.append _

theorem relative_ended (C : Strcmp) {w : List UInt8} (h : Relative slash w) : Relative slash (ended C w) := by
  unfold ended cutEnd
  split
  · rename_i hc
    exact h.trim.dropLast hc.1
  · exact h.trim

/-! ### Up to the last loop -/

theorem collapseRunsIn_eq {s : Block} {p : List UInt8} (h : s.Holds p) (hrel : Relative slash p)
    (heap : ℕ → UInt8) : collapseRunsIn s heap p.length = collapseRuns s heap p.length := by
  have hstep : ∀ i (st : Buf UInt8 (p.length + 1) × ℕ), i < p.length → squeezeStepIn s st i = squeezeStep s st i := by
    intro i st hi
    unfold squeezeStepIn
    rw [h.read hi]
    have hc : ¬ (p[i] = slash ∧ i = 0) := by
      rintro ⟨hc, rfl⟩
      obtain ⟨c, l, rfl, hne⟩ := hrel
      exact hne hc
    exact if_neg hc
  unfold collapseRunsIn collapseRuns
  rw [foldlM_range_congr _ hstep]

/-- The first iteration reads `string[-1]`. -/
theorem collapseRunsIn_slash {s : Block} {l : List UInt8} (h : s.Holds (slash :: l)) (heap : ℕ → UInt8) :
    collapseRunsIn s heap (slash :: l).length = none := by
  have hpos : 0 < (slash :: l).length := List.length_pos_iff.mpr (List.cons_ne_nil _ _)
  have hfirst : ∀ st : Buf UInt8 ((slash :: l).length + 1) × ℕ, squeezeStepIn s st 0 = none := by
    intro st
    unfold squeezeStepIn
    rw [h.read hpos]
    show (if slash = slash ∧ 0 = 0 then none else squeezeStep s st 0) = none
    rw [if_pos ⟨rfl, rfl⟩]
  unfold collapseRunsIn
  rw [foldlM_range_eq_none hfirst _ hpos]
  rfl

/-- A relative path keeps both functions off `string[-1]`. -/
theorem normaliseIn_eq (C : Strcmp) (m : Memory) {p : List UInt8} (hp : (0 : UInt8) ∉ p) (hlen : p.length ≤ 4095)
    (hrel : Relative slash p) : normaliseIn C m p = normalise C m p := by
  obtain ⟨s1, h1, hs1, -⟩ := m.string.strcpy_literal hp (by omega)
  unfold normaliseIn normalise
  rw [h1]
  simp only [Option.bind_eq_bind, Option.bind_some, hs1.strlen, collapseRunsIn_eq hs1 hrel]
  have hsq := hrel.squeeze_eq s1.before
  by_cases h0 : (0 : UInt8) ∈ scratch m.heap p (squeeze slash s1.before p)
  · obtain ⟨s2, h2, hs2, -⟩ := collapseRuns_spec hs1 h0
    rw [hsq] at hs2
    have hne : copied m p ≠ [] := (relative_copied hp hrel).ne_nil
    obtain ⟨s3, h3, hs3, -⟩ := trimSlash_spec hs2 (.inr hne)
    have htrim : trim slash (copied m p) ≠ [] := trim_ne_nil hne
    have h3' : trimSlashIn s2 (copied m p).length = trimSlash s2 (copied m p).length :=
      if_neg (mt List.length_eq_zero_iff.mp hne)
    rw [h2]
    simp only [Option.bind_some, hs2.strlen]
    show (trimSlashIn s2 (copied m p).length).bind _ = (trimSlash s2 (copied m p).length).bind _
    rw [h3', show trimSlash s2 (copied m p).length = _ from h3]
    simp only [Option.bind_some]
    congr 1
    funext k
    exact if_neg (mt List.length_eq_zero_iff.mp htrim)
  · rw [collapseRuns_undefined hs1 h0]
    rfl

theorem normaliseIn_eq_none (C : Strcmp) (m : Memory) {p : List UInt8} (hp : (0 : UInt8) ∉ p)
    (hlen : p.length ≤ 4095) (hrel : ¬ Relative slash p) : normaliseIn C m p = none := by
  obtain ⟨s1, h1, hs1, -⟩ := m.string.strcpy_literal hp (by omega)
  unfold normaliseIn
  rw [h1]
  simp only [Option.bind_eq_bind, Option.bind_some, hs1.strlen]
  rcases not_relative hrel with rfl | ⟨l, rfl⟩
  · show (collapseRuns s1 m.heap ([] : List UInt8).length).bind _ = none
    by_cases h0 : (0 : UInt8) ∈ scratch m.heap [] (squeeze slash s1.before [])
    · obtain ⟨s2, h2, hs2, -⟩ := collapseRuns_spec hs1 h0
      -- `buf` has one character, the zero
      have hlt := length_cstr_lt h0
      rw [length_scratch m.heap (length_squeeze_le slash s1.before []), List.length_nil, Nat.lt_one_iff] at hlt
      rw [h2, Option.bind_some, hs2.strlen, Option.bind_some, hlt]
      rfl
    · rw [collapseRuns_undefined hs1 h0]
      rfl
  · rw [collapseRunsIn_slash hs1]
    rfl

theorem Memory.Copies.normalise {m : Memory} {p : List UInt8} (h : m.Copies p) (C : Strcmp) (hp : (0 : UInt8) ∉ p)
    (hlen : p.length ≤ 4095) :
    ∃ s, normalise C m p = some (s, (ended C (copied m p)).length, (ended C (copied m p)).count slash) ∧
      s.Holds (ended C (copied m p)) := by
  have hsq := h.relative.squeeze_eq m.string.before
  obtain ⟨s, hs, hholds, -⟩ := normalise_ended C m hp hlen (w := copied m p) (by rw [hsq]; rfl)
    (by rw [hsq]; exact h.ends) (.inr (relative_copied hp h.relative).ne_nil)
  exact ⟨s, hs, hholds⟩

theorem normaliseIn_isSome_iff (C : Strcmp) (m : Memory) {p : List UInt8} (hp : (0 : UInt8) ∉ p)
    (hlen : p.length ≤ 4095) : (∃ s, normaliseIn C m p = some s) ↔ m.Copies p := by
  constructor
  · rintro ⟨s, hs⟩
    have hrel : Relative slash p := by
      by_contra hrel
      rw [normaliseIn_eq_none C m hp hlen hrel] at hs
      cases hs
    refine ⟨hrel, ?_⟩
    by_contra h0
    rw [normaliseIn_eq C m hp hlen hrel,
      normalise_undefined C m hp hlen (by rwa [hrel.squeeze_eq])] at hs
    cases hs
  · intro h
    obtain ⟨s, hs, -⟩ := h.normalise C hp hlen
    exact ⟨_, (normaliseIn_eq C m hp hlen h.relative).trans hs⟩

/-! ### The last loops -/

theorem basen_eq_some_iff (C : Strcmp) {m : Memory} {p : List UInt8} (hp : (0 : UInt8) ∉ p) (hlen : p.length ≤ 4095)
    (h : m.Copies p) : (∃ t, basen C m p = some t) ↔ m.NameEnds C p := by
  obtain ⟨s, hs, hholds⟩ := h.normalise C hp hlen
  have hrel := relative_ended C (relative_copied (m := m) hp h.relative)
  by_cases hmem : slash ∈ ended C (copied m p)
  · -- with any cut at the last slash, the name is what is copied
    have hcut : ∀ d c, ended C (copied m p) = d ++ slash :: c → slash ∉ c →
        ((∃ t, basen C m p = some t) ↔ (0 : UInt8) ∈ m.filename.chars.drop c.length) := by
      intro d c hq hc
      rw [hq] at hs hholds hrel
      rw [basen_copies C m hs hholds hc (.inl hrel.of_split)]
      exact copyBack_iff hholds m.filename
    constructor
    · intro ht d c hq hc
      exact (hcut d c hq hc).mp ht
    · intro hends
      obtain ⟨d, c, hq, hc⟩ := exists_split hmem
      exact (hcut d c hq hc).mpr (hends d c hq hc)
  · apply iff_of_true
    · exact ⟨s, basen_component C m hs hrel.ne_nil hmem⟩
    · intro d c hq _
      exact absurd (hq ▸ mem_split d c) hmem

/-- A name of 255 characters or more leaves `filename`, whatever that holds. -/
theorem basen_long (C : Strcmp) (m : Memory) {p d c : List UInt8} (hp : (0 : UInt8) ∉ p) (hlen : p.length ≤ 4095)
    (hb : m.string.before ≠ slash) (h0 : m.heap (collapse slash p).length = 0)
    (hq : normal slash p = d ++ slash :: c) (hc : slash ∉ c) (hlong : 255 ≤ c.length) : basen C m p = none := by
  obtain ⟨s, hs, hholds, -⟩ := normalise_spec C m hp hlen hb h0
  rw [hq] at hs hholds
  have hne : c ≠ [] := List.length_pos_iff.mp (by omega)
  have hdrop : m.filename.chars.drop c.length = [] := List.drop_eq_nil_of_le (by rwa [Buf.size])
  apply basen_undefined C m hs hholds ⟨mem_split d c, split_ne_root (.inr hne)⟩
  rw [lastPart_split d hc, hdrop]
  exact List.not_mem_nil

/-! ### Every path -/

theorem inside_iff_copies (C : Strcmp) (m : Memory) {p : List UInt8} (hp : (0 : UInt8) ∉ p) (hlen : p.length ≤ 4095)
    (r : Option Block) : Inside C m p r ↔ m.Copies p ∧ ∃ t, r = some t := by
  unfold Inside
  rw [← normaliseIn_isSome_iff C m hp hlen]
  exact ⟨fun ⟨s, t, hs, ht⟩ => ⟨⟨s, hs⟩, t, ht⟩, fun ⟨⟨s, hs⟩, t, ht⟩ => ⟨s, t, hs, ht⟩⟩

/-- **The accesses are inside the arrays exactly if** the path is relative and
`buf` and, for `basen`, `filename` hold zeros behind what is written. -/
theorem inside_iff (C : Strcmp) (m : Memory) (p : List UInt8) (hp : (0 : UInt8) ∉ p) (hlen : p.length ≤ 4095) :
    (Inside C m p (basen C m p) ↔ m.Copies p ∧ m.NameEnds C p) ∧ (Inside C m p (dirn C m p) ↔ m.Copies p) := by
  refine ⟨?_, ?_⟩
  · calc Inside C m p (basen C m p)
        ↔ m.Copies p ∧ ∃ t, basen C m p = some t := inside_iff_copies C m hp hlen _
      _ ↔ m.Copies p ∧ m.NameEnds C p := and_congr_right fun h => basen_eq_some_iff C hp hlen h
  · have hdirn : m.Copies p → ∃ t, dirn C m p = some t := by
      intro h
      obtain ⟨s, hs, hholds⟩ := h.normalise C hp hlen
      obtain ⟨t, ht, -⟩ := dirn_holds C m hs hholds
      exact ⟨t, ht⟩
    calc Inside C m p (dirn C m p)
        ↔ m.Copies p ∧ ∃ t, dirn C m p = some t := inside_iff_copies C m hp hlen _
      _ ↔ m.Copies p := and_iff_left_of_imp hdirn

/-- `a/b`, in memory that is all zeros. -/
theorem inside_ab : Inside Strcmp.sign Memory.zeros [97, 47, 98] (basen Strcmp.sign Memory.zeros [97, 47, 98]) ∧
    Inside Strcmp.sign Memory.zeros [97, 47, 98] (dirn Strcmp.sign Memory.zeros [97, 47, 98]) := by
  obtain ⟨hbasen, hdirn⟩ := inside_iff Strcmp.sign Memory.zeros [97, 47, 98] (by decide) (by decide)
  have hcopies : Memory.zeros.Copies [97, 47, 98] := ⟨⟨97, [47, 98], rfl, by decide⟩, by decide⟩
  have hends : Memory.zeros.NameEnds Strcmp.sign [97, 47, 98] := by
    intro d c hq _
    have hended : ended Strcmp.sign (copied Memory.zeros [97, 47, 98]) = [97, 47, 98] := by decide
    have hlen := congrArg List.length (hended.symm.trans hq)
    rw [List.length_append, List.length_cons] at hlen
    simp only [List.length_cons, List.length_nil] at hlen
    show (0 : UInt8) ∈ (List.replicate 255 0).drop c.length
    rw [List.drop_replicate, List.mem_replicate]
    exact ⟨by omega, rfl⟩
  exact ⟨hbasen.mpr ⟨hcopies, hends⟩, hdirn.mpr hcopies⟩

/-- `a/`, and a name of `n` characters. -/
def aSlash (n : ℕ) : List UInt8 := [97, 47] ++ List.replicate n 98

theorem not_mem_name {a : UInt8} (h : a ≠ 98) (n : ℕ) : a ∉ List.replicate n (98 : UInt8) :=
  fun hm => h (List.eq_of_mem_replicate hm)

theorem zero_not_mem_aSlash (n : ℕ) : (0 : UInt8) ∉ aSlash n := by
  unfold aSlash
  rw [List.mem_append, not_or]
  exact ⟨by decide, not_mem_name (by decide) n⟩

theorem normal_aSlash {n : ℕ} (hn : n ≠ 0) : normal slash (aSlash n) = [97] ++ slash :: List.replicate n 98 := by
  have hne : List.replicate n (98 : UInt8) ≠ [] := mt (List.replicate_eq_nil_iff 98).mp hn
  have hcomp := normal_components (l := [97, 47]) hne (not_mem_name (show slash ≠ 98 by decide) n) 0
  rwa [List.replicate_zero, List.append_nil] at hcomp

/-- A name of 255 characters fills `filename`, and the copy back does not end in
it. -/
theorem not_inside_aSlash : ¬ ∀ (C : Strcmp) (m : Memory) (p : List UInt8), (0 : UInt8) ∉ p → p.length ≤ 4095 →
    Inside C m p (basen C m p) ∧ Inside C m p (dirn C m p) := by
  intro h
  have hlen : (aSlash 255).length ≤ 4095 := by
    unfold aSlash
    rw [List.length_append, List.length_replicate]
    decide
  have hb : slash ∉ List.replicate 255 (98 : UInt8) := not_mem_name (by decide) 255
  obtain ⟨⟨s, t, -, ht⟩, -⟩ := h Strcmp.sign Memory.zeros (aSlash 255) (zero_not_mem_aSlash 255) hlen
  rw [basen_long Strcmp.sign Memory.zeros (zero_not_mem_aSlash 255) hlen (by decide) rfl (normal_aSlash (by decide))
    hb List.length_replicate.ge] at ht
  cases ht

end Paths
end Autumn
