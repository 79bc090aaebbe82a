/-
# The last component (`dirname & basename/basen.c`)

`basen` copies what follows the last slash of the normal form into the local
array `filename`, without a NUL, and from there back to the block. With a zero
behind what it has copied the block holds the last component (`basen_spec`);
otherwise what `filename` holds there comes with it (`basen_holds`).

Key definitions: `basen`, `ShortComponents`, `Memory.ZeroBehind`, `nameOf`.
Key theorems: `copyOut_spec`, `copyBack_spec`, `copyBack_iff`, `basen_copies`,
`basen_holds`, `basen_undefined`, `nameOf_normal`, `basen_spec`, `basen_basename`.
-/
import Autumn.Paths.Normalise

namespace Autumn
namespace Paths

open Pathname

/-! ### The program -/

/-- The body of `while (i < amount)`, `i` being `j` behind where it starts. -/
def copyStep (string : Block) (i : ℕ) (filename : Buf UInt8 255) (j : ℕ) : Option (Buf UInt8 255) := do
  let c ← string.read (i + j)
  filename.store j [c]

/-- From `j = 0` on, with `i` at the character behind the slash. -/
def copyOut (string : Block) (filename : Buf UInt8 255) (i amount : ℕ) : Option (Buf UInt8 255) :=
  (List.range (amount - i)).foldlM (copyStep string i) filename

def basen (C : Strcmp) (m : Memory) (pathname : List UInt8) : Option Block := do
  let (string, amount, k) ← normalise C m pathname
  if amount = 0 then string.strcpy [period, 0]
  else if k = 0 then some string
  else do
    let root ← string.strcmp C [slash]
    let dot ← string.strcmp C [period]
    let dots ← string.strcmp C [period, period]
    if root = 0 then some string
    else if dot = 0 then some string
    else if dots = 0 then some string
    else do
      let i ← nthSlash string.chars.chars 0 k
      let filename ← copyOut string m.filename (i + 1) amount
      string.strcpy filename.chars

/-- The characters behind the last slash. -/
def lastPart (q : List UInt8) : List UInt8 := q.rtakeWhile (· ≠ slash)

/-- These are copied out and back. -/
def Copied (q : List UInt8) : Prop := slash ∈ q ∧ q ≠ [slash]

instance (q : List UInt8) : Decidable (Copied q) := inferInstanceAs (Decidable (_ ∧ _))

/-- Every component is shorter than `filename`. -/
def ShortComponents (p : List UInt8) : Prop := ∀ c, c <:+: p → slash ∉ c → c.length < 255

/-- What is assumed of memory: no slash is before the block, and the first byte
of the scratch buffer and the first of `filename` that the call does not write
are zero. -/
structure Memory.ZeroBehind (m : Memory) (p : List UInt8) : Prop where
  before : m.string.before ≠ slash
  heap : m.heap (collapse slash p).length = 0
  filename : m.filename.chars[(basename slash period p).length]? = some 0

/-! ### The copy -/

theorem copyOut_spec {s : Block} {d w : List UInt8} (h : s.Holds (d ++ slash :: w)) (filename : Buf UInt8 255)
    (hw : w.length ≤ 255) :
    ∃ b, copyOut s filename (d.length + 1) (d ++ slash :: w).length = some b ∧
      b.chars = w ++ filename.chars.drop w.length := by
  have hstep : ∀ j (b : Buf UInt8 255), j < w.length →
      b.chars = w.take j ++ filename.chars.drop (w.take j).length → ∃ b', copyStep s (d.length + 1) b j = some b' ∧
        b'.chars = w.take (j + 1) ++ filename.chars.drop (w.take (j + 1)).length := by
    intro j b hj hb
    have hlen : (w.take j).length = j := List.length_take_of_le hj.le
    have hread := h.read (i := d.length + 1 + j) (by rw [List.length_append, List.length_cons]; omega)
    rw [List.getElem_append_right (by omega)] at hread
    simp only [Nat.add_assoc, Nat.add_sub_cancel_left, Nat.add_comm 1 j, List.getElem_cons_succ] at hread
    obtain ⟨b', hst, hb'⟩ := Buf.store_next hb (by omega) w[j]
    rw [← take_succ_eq hj] at hb'
    rw [hlen] at hst
    exact ⟨b', by rw [copyStep, Nat.add_assoc, Nat.add_comm 1 j, hread]; exact hst, hb'⟩
  obtain ⟨b, hfold, hb⟩ := foldlM_range
    (fun j (b : Buf UInt8 255) => b.chars = w.take j ++ filename.chars.drop (w.take j).length) rfl hstep
  rw [List.take_length] at hb
  refine ⟨b, ?_, hb⟩
  unfold copyOut
  rw [List.length_append, List.length_cons, Nat.add_comm w.length, ← Nat.add_assoc, Nat.add_sub_cancel_left]
  exact hfold

theorem copyOut_eq_none (s : Block) (filename : Buf UInt8 255) {i amount : ℕ} (h : 255 < amount - i) :
    copyOut s filename i amount = none := by
  have hlast : ∀ b : Buf UInt8 255, copyStep s i b 255 = none := by
    intro b
    unfold copyStep
    cases s.read (i + 255) with
    | none => rfl
    | some c =>
      have hroom : ¬ 255 + [c].length ≤ 255 := by
        rw [List.length_singleton]
        omega
      show b.store 255 [c] = none
      exact dif_neg hroom
  exact foldlM_range_eq_none hlast filename h

/-! ### The function -/

/-- A name between slashes is copied out and back. -/
theorem basen_copies (C : Strcmp) (m : Memory) {p d c : List UInt8} {s : Block}
    (hs : normalise C m p = some (s, (d ++ slash :: c).length, (d ++ slash :: c).count slash))
    (hholds : s.Holds (d ++ slash :: c)) (hc : slash ∉ c) (hne : d ≠ [] ∨ c ≠ []) :
    basen C m p = (copyOut s m.filename (d.length + 1) (d ++ slash :: c).length).bind fun b => s.strcpy b.chars := by
  unfold basen
  rw [hs]
  simp only [Option.bind_eq_bind, Option.bind_some, hholds.strcmp]
  rw [if_neg (by simp), if_neg (by rw [count_split hc]; omega), if_neg (C.ne_zero (split_ne_root hne)),
    if_neg (C.ne_zero (split_ne (by decide))), if_neg (C.ne_zero (split_ne (by decide))), hholds.nthSlash hc,
    Option.bind_some]

theorem basen_component (C : Strcmp) (m : Memory) {p q : List UInt8} {s : Block}
    (hs : normalise C m p = some (s, q.length, q.count slash)) (hne : q ≠ []) (hmem : slash ∉ q) :
    basen C m p = some s := by
  unfold basen
  rw [hs]
  simp only [Option.bind_eq_bind, Option.bind_some]
  rw [if_neg (mt List.length_eq_zero_iff.mp hne), if_pos (List.count_eq_zero_of_not_mem hmem)]

theorem copyBack_spec {s : Block} {d c : List UInt8} (h : s.Holds (d ++ slash :: c)) {filename : Buf UInt8 255}
    (hz : (0 : UInt8) ∈ filename.chars.drop c.length) :
    ∃ t, ((copyOut s filename (d.length + 1) (d ++ slash :: c).length).bind fun b => s.strcpy b.chars) = some t ∧
      t.Holds (c ++ cstr (filename.chars.drop c.length)) ∧ t.before = s.before := by
  have hlt := List.length_pos_of_mem hz
  rw [List.length_drop, Buf.size] at hlt
  obtain ⟨b, hcopy, hchars⟩ := copyOut_spec h filename (by omega)
  have hnz : (0 : UInt8) ∉ c := fun hm => h.nz (List.mem_append_right d (List.mem_cons_of_mem slash hm))
  have hstr : cstr b.chars = c ++ cstr (filename.chars.drop c.length) := by rw [hchars, cstr_append hnz]
  have hfit : (cstr b.chars).length ≤ 255 := (length_cstr_le b.chars).trans_eq b.size
  have hterm : (0 : UInt8) ∈ b.chars := by
    rw [hchars]
    exact List.mem_append_right c hz
  have hcpy := s.strcpy_spec b.chars hterm (by omega)
  rw [hstr] at hcpy
  rw [hcopy]
  exact hcpy

/-- The name is copied out and back exactly if `filename` holds a zero behind
it. -/
theorem copyBack_iff {s : Block} {d c : List UInt8} (h : s.Holds (d ++ slash :: c)) (filename : Buf UInt8 255) :
    (∃ t, ((copyOut s filename (d.length + 1) (d ++ slash :: c).length).bind fun b => s.strcpy b.chars) = some t) ↔
      (0 : UInt8) ∈ filename.chars.drop c.length := by
  have hnz : (0 : UInt8) ∉ c := fun hm => h.nz (List.mem_append_right d (List.mem_cons_of_mem slash hm))
  constructor
  · rintro ⟨t, ht⟩
    by_contra h0
    by_cases hlong : c.length ≤ 255
    · obtain ⟨b, hcopy, hchars⟩ := copyOut_spec h filename hlong
      have hb : (0 : UInt8) ∉ b.chars := by
        rw [hchars, List.mem_append, not_or]
        exact ⟨hnz, h0⟩
      rw [hcopy, Option.bind_some, s.strcpy_eq_none hb] at ht
      cases ht
    · have hnone : copyOut s filename (d.length + 1) (d ++ slash :: c).length = none := by
        apply copyOut_eq_none
        rw [List.length_append, List.length_cons]
        omega
      rw [hnone] at ht
      cases ht
  · intro h0
    obtain ⟨t, ht, -⟩ := copyBack_spec h h0
    exact ⟨t, ht⟩

/-- What `basen` makes of any string `q` that the block holds: where it copies, what
`filename` still holds comes with the characters behind the last slash. -/
def nameOf (q : List UInt8) (filename : Buf UInt8 255) : List UInt8 :=
  if q = [] then [period]
  else if Copied q then lastPart q ++ cstr (filename.chars.drop (lastPart q).length)
  else q

theorem lastPart_split (d : List UInt8) {c : List UInt8} (hc : slash ∉ c) : lastPart (d ++ slash :: c) = c := by
  have htake : (c.reverse ++ slash :: d.reverse).takeWhile (· ≠ slash) = c.reverse := by
    rw [List.takeWhile_append_of_pos fun a ha => by simpa using fun h : a = slash => hc (h ▸ List.mem_reverse.mp ha),
      List.takeWhile_cons_of_neg (by simp), List.append_nil]
  rw [lastPart, List.rtakeWhile, List.reverse_append, List.reverse_cons, List.append_assoc, List.singleton_append,
    htake, List.reverse_reverse]

theorem Copied.split {q : List UInt8} (h : Copied q) : ∃ d, q = d ++ slash :: lastPart q ∧ slash ∉ lastPart q ∧
    (d ≠ [] ∨ lastPart q ≠ []) := by
  obtain ⟨d, c, rfl, hc⟩ := exists_split h.1
  rw [lastPart_split d hc]
  refine ⟨d, rfl, hc, ?_⟩
  by_contra hno
  push Not at hno
  obtain ⟨rfl, rfl⟩ := hno
  exact h.2 rfl

/-- Whatever string the block holds: the call is defined if `filename` ends where it
is copied. -/
theorem basen_holds (C : Strcmp) (m : Memory) {p q : List UInt8} {s : Block}
    (hs : normalise C m p = some (s, q.length, q.count slash)) (hholds : s.Holds q)
    (hz : Copied q → (0 : UInt8) ∈ m.filename.chars.drop (lastPart q).length) :
    ∃ t, basen C m p = some t ∧ t.Holds (nameOf q m.filename) ∧ t.before = s.before := by
  by_cases hempty : q = []
  · subst hempty
    obtain ⟨t, ht, hT, htb⟩ := s.strcpy_literal (w := [period]) (by decide) (by decide)
    refine ⟨t, ?_, hT, htb⟩
    unfold basen
    rw [hs]
    exact ht
  rw [nameOf, if_neg hempty]
  by_cases hcopy : Copied q
  · obtain ⟨d, hq, hc, hne⟩ := hcopy.split
    rw [if_pos hcopy]
    rw [hq] at hs hholds
    rw [basen_copies C m hs hholds hc hne]
    exact copyBack_spec hholds (hz hcopy)
  · rw [if_neg hcopy]
    refine ⟨s, ?_, hholds, rfl⟩
    by_cases hmem : slash ∈ q
    · obtain rfl : q = [slash] := not_not.mp fun h => hcopy ⟨hmem, h⟩
      unfold basen
      rw [hs]
      simp only [Option.bind_eq_bind, Option.bind_some, hholds.strcmp]
      rw [if_neg (by decide), if_neg (by decide), if_pos ((C.eq_zero _ _).mpr rfl)]
    · exact basen_component C m hs hempty hmem

theorem basen_undefined (C : Strcmp) (m : Memory) {p q : List UInt8} {s : Block}
    (hs : normalise C m p = some (s, q.length, q.count slash)) (hholds : s.Holds q) (hcopy : Copied q)
    (hz : (0 : UInt8) ∉ m.filename.chars.drop (lastPart q).length) : basen C m p = none := by
  obtain ⟨d, hq, hc, hne⟩ := hcopy.split
  rw [hq] at hs hholds
  rw [basen_copies C m hs hholds hc hne, Option.eq_none_iff_forall_ne_some]
  exact fun t ht => hz ((copyBack_iff hholds m.filename).mp ⟨t, ht⟩)

theorem length_basename_lt {p : List UInt8} (h : ShortComponents p) : (basename slash period p).length < 255 := by
  by_cases hp : p = []
  · unfold basename
    rw [if_pos hp]
    decide
  by_cases hall : ∀ c ∈ p, c = slash
  · unfold basename
    rw [if_neg hp, if_pos hall]
    decide
  · have hmem : slash ∉ basename slash period p := sep_not_mem_basename (by decide) fun h => hall h.2
    exact h _ (basename_isInfix hp hmem) hmem

/-- With a zero behind the last component in `filename`, that is made of the normal
form. -/
theorem nameOf_normal {p : List UInt8} {filename : Buf UInt8 255} (hlen : (basename slash period p).length < 255)
    (h0 : filename.chars[(basename slash period p).length]? = some 0) :
    nameOf (normal slash p) filename = basename slash period p ∧
      (Copied (normal slash p) → (0 : UInt8) ∈ filename.chars.drop (lastPart (normal slash p)).length) := by
  cases shape slash period p with
  | empty hp hq =>
    have hb : basename slash period p = [period] := if_pos hp
    rw [hq, hb]
    exact ⟨if_pos rfl, fun h => absurd h.1 List.not_mem_nil⟩
  | root _ _ hq hb =>
    rw [hq, hb, nameOf, if_neg (by decide), if_neg (by decide)]
    exact ⟨rfl, fun h => absurd rfl h.2⟩
  | component hne hmem hb =>
    rw [hb, nameOf, if_neg hne, if_neg fun h => hmem h.1]
    exact ⟨rfl, fun h => absurd h.1 hmem⟩
  | split d c hq hne hc _ hb =>
    have hcopy : Copied (d ++ slash :: c) := ⟨mem_split d c, split_ne_root (.inr hne)⟩
    rw [hb] at hlen h0
    have hlt : c.length < filename.chars.length := by rwa [Buf.size]
    rw [List.getElem?_eq_getElem hlt, Option.some.injEq] at h0
    have hdrop := List.drop_eq_getElem_cons hlt
    rw [h0] at hdrop
    rw [hq, hb, nameOf, if_neg (by simp), if_pos hcopy, lastPart_split d hc, hdrop, cstr_zero_cons, List.append_nil]
    exact ⟨rfl, fun _ => List.mem_cons_self⟩

/-- **The block holds the last component.** -/
theorem basen_spec (C : Strcmp) (m : Memory) {p : List UInt8} (hp : (0 : UInt8) ∉ p) (hlen : p.length ≤ 4095)
    (hcomp : ShortComponents p) (hm : m.ZeroBehind p) :
    ∃ t, basen C m p = some t ∧ t.Holds (basename slash period p) ∧ t.before = m.string.before := by
  obtain ⟨s, hs, hholds, hsb⟩ := normalise_spec C m hp hlen hm.before hm.heap
  obtain ⟨hname, hz⟩ := nameOf_normal (length_basename_lt hcomp) hm.filename
  have h := basen_holds C m hs hholds hz
  rwa [hname, hsb] at h

/-- **`basen` returns the POSIX basename.** -/
theorem basen_basename (C : Strcmp) (m : Memory) (p : List UInt8) (hp : (0 : UInt8) ∉ p) (hlen : p.length ≤ 4095)
    (hcomp : ShortComponents p) (hm : m.ZeroBehind p) :
    returned (basen C m p) = some (basename slash period p) := by
  obtain ⟨t, ht, hT, -⟩ := basen_spec C m hp hlen hcomp hm
  rw [ht, hT.returned]

/-- `//a//bc/`. -/
def slashes : List UInt8 := [47, 47, 97, 47, 47, 98, 99, 47]

theorem basen_basename_slashes : basename slash period slashes = [98, 99] ∧
    returned (basen Strcmp.sign Memory.zeros slashes) = some (basename slash period slashes) :=
  ⟨by decide, basen_basename Strcmp.sign Memory.zeros slashes (by decide) (by decide)
    (fun _ h _ => h.length_le.trans_lt (by decide)) ⟨by decide, rfl, rfl⟩⟩

end Paths
end Autumn
