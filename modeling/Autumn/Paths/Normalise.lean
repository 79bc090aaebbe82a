/-
# The normal form of a path (`dirname & basename`)

`basen` and `dirn` start with the same statements: the path is copied into the
thread's block of 4096 bytes, runs of slashes are collapsed into a scratch
buffer of `malloc` and copied back, a slash at the end is cut off, and the
slashes are counted. The scratch buffer is never terminated: `strcpy` reads on
into what `malloc` returned, up to the first zero there (`normalise_ended`). If
that comes right away, the block holds the normal form (`normalise_spec`); if
there is none, `strcpy` leaves the buffer (`normalise_undefined`).

Where the code reads `string[-1]`, that is the byte before the block; a write
there, and any access behind an array, is undefined (`none`). Allocations
succeed.

Key definitions: `Memory`, `Block`, `Strcmp`, `normalise`, `scratch`, `ended`,
`Memory.BufEnds`, `Memory.form`.
Key theorems: `squeezed_spec`, `collapseRuns_eq`, `trimSlash_spec`,
`countSlashes_spec`, `trimAgain_spec`, `normalise_ended`, `normalise_spec`,
`normalise_undefined`, `normalise_eq_none`.
-/
import Autumn.Lib.CString
import Autumn.Lib.Loop
import Autumn.Lib.Path

namespace Autumn
namespace Paths

open Pathname

/-! ### Memory -/

/-- `'/'`. -/
def slash : UInt8 := 47

/-- `'.'`. -/
def period : UInt8 := 46

/-- What `strcmp` returns is only known up to its sign. -/
structure Strcmp where
  val : List UInt8 → List UInt8 → ℤ
  eq_zero : ∀ a b, val a b = 0 ↔ a = b
  pos : ∀ a b, 0 < val a b ↔ b < a

theorem Strcmp.ne_zero (C : Strcmp) {a b : List UInt8} (h : a ≠ b) : C.val a b ≠ 0 := mt (C.eq_zero a b).mp h

/-- One that returns the sign. -/
def Strcmp.sign : Strcmp where
  val a b := if a = b then 0 else if b < a then 1 else -1
  eq_zero a b := by
    by_cases h : a = b
    · simp [h]
    · by_cases hlt : b < a
      · simp [h, hlt]
      · simp [h, hlt]
  pos a b := by
    by_cases h : a = b
    · simp [h]
    · by_cases hlt : b < a
      · simp [h, hlt]
      · simp [h, hlt]

/-- The block `string` points to, and the byte before it. -/
structure Block where
  before : UInt8
  chars : Buf UInt8 4096
  deriving DecidableEq

/-- What a call finds in memory it has not written: the thread's block, what
`malloc` returns for `buf`, and the local array `filename`. -/
structure Memory where
  string : Block
  heap : ℕ → UInt8
  filename : Buf UInt8 255

/-- Memory that is all zeros. -/
def Memory.zeros : Memory := ⟨⟨0, Buf.zeros UInt8 4096⟩, fun _ => 0, Buf.zeros UInt8 255⟩

/-- `malloc(n)`. -/
def malloc (heap : ℕ → UInt8) (n : ℕ) : Buf UInt8 n := ⟨(List.range n).map heap, by simp⟩

namespace Block

/-- `string[i]`. -/
def read (s : Block) (i : ℕ) : Option UInt8 := s.chars.chars[i]?

/-- `string[i - 1]`. -/
def readPred (s : Block) (i : ℕ) : Option UInt8 := (s.before :: s.chars.chars)[i]?

/-- `string[i] = 0`. -/
def clear (s : Block) (i : ℕ) : Option Block := (s.chars.store i [0]).map fun b => { s with chars := b }

/-- `string[i - 1] = 0`. -/
def clearPred (s : Block) : ℕ → Option Block
  | 0 => none
  | i + 1 => s.clear i

def strlen (s : Block) : Option ℕ := if s.chars.Term then some s.chars.str.length else none

/-- `strcpy(string, src)`: `src` is the memory from the source pointer on. -/
def strcpy (s : Block) (src : List UInt8) : Option Block :=
  (s.chars.strcpy 0 src).map fun b => { s with chars := b }

/-- `strcmp(string, w)`. -/
def strcmp (C : Strcmp) (s : Block) (w : List UInt8) : Option ℤ :=
  if s.chars.Term then some (C.val s.chars.str w) else none

end Block

/-! ### The program -/

/-- The body of `while (i < amount)`; the state is `buf` and `j`. -/
def squeezeStep (string : Block) {n : ℕ} (st : Buf UInt8 n × ℕ) (i : ℕ) : Option (Buf UInt8 n × ℕ) := do
  let c ← string.read i
  let b ← string.readPred i
  if c = slash ∧ b = slash then some st
  else do
    let buf ← st.1.store st.2 [c]
    some (buf, st.2 + 1)

/-- From `buf = malloc(amount + 1)` to `strcpy(string, buf)`. -/
def collapseRuns (string : Block) (heap : ℕ → UInt8) (amount : ℕ) : Option Block := do
  let (buf, _) ← (List.range amount).foldlM (squeezeStep string) (malloc heap (amount + 1), 0)
  string.strcpy buf.chars

/-- `if ((string[amount - 1] == '/') && (amount != 1))`; the second value is
`amount`. -/
def trimSlash (string : Block) (amount : ℕ) : Option (Block × ℕ) := do
  let c ← string.readPred amount
  if c = slash ∧ amount ≠ 1 then do
    let string ← string.clearPred amount
    let amount ← string.strlen
    some (string, amount)
  else some (string, amount)

def countStep (string : Block) (k i : ℕ) : Option ℕ := do
  let c ← string.read i
  some (if c = slash then k + 1 else k)

/-- The loop that counts `slash`. -/
def countSlashes (string : Block) (amount : ℕ) : Option ℕ := (List.range amount).foldlM (countStep string) 0

/-- `if ((string[amount - 1] == '/') && (strcmp(string, "/") == 1))`; the other
values are `amount` and the count of slashes. -/
def trimAgain (C : Strcmp) (string : Block) (amount k : ℕ) : Option (Block × ℕ × ℕ) := do
  let c ← string.readPred amount
  let d ← string.strcmp C [slash]
  if c = slash ∧ d = 1 then do
    let string ← string.clearPred amount
    some (string, amount - 1, k - 1)
  else some (string, amount, k)

/-- What both functions do before their last loop. -/
def normalise (C : Strcmp) (m : Memory) (pathname : List UInt8) : Option (Block × ℕ × ℕ) := do
  let string ← m.string.strcpy (pathname ++ [0])
  let amount ← string.strlen
  let string ← collapseRuns string m.heap amount
  let amount ← string.strlen
  let (string, amount) ← trimSlash string amount
  let k ← countSlashes string amount
  trimAgain C string amount k

/-- The loop `for (i = 0; slash > 0; i++)` that both functions end with: the `i`
at which `slash`, positive at first, becomes 0. The list is the array from
`string[i]` on. -/
def nthSlash : List UInt8 → ℕ → ℕ → Option ℕ
  | [], _, _ => none
  | c :: string, i, k =>
    if c = slash then
      if k - 1 = 0 then some i else nthSlash string (i + 1) (k - 1)
    else nthSlash string (i + 1) k

/-- The string a call returns. -/
def returned (r : Option Block) : Option (List UInt8) :=
  r.bind fun s => if s.chars.Term then some s.chars.str else none

/-! ### A block that holds a string -/

structure Block.Holds (s : Block) (q : List UInt8) : Prop where
  str : s.chars.str = q
  term : s.chars.Term

namespace Block

variable {s : Block} {q : List UInt8}

theorem Holds.nz (h : s.Holds q) : (0 : UInt8) ∉ q := h.str ▸ s.chars.str_nz

theorem Holds.length_lt (h : s.Holds q) : q.length < 4096 := h.str ▸ h.term.length_lt

theorem Holds.eq_append (h : s.Holds q) : ∃ r, s.chars.chars = q ++ 0 :: r := by
  have := eq_cstr_append h.term
  rw [show cstr s.chars.chars = q from h.str] at this
  exact ⟨_, this⟩

theorem holds_of_eq_append (hq : (0 : UInt8) ∉ q) {r : List UInt8} (h : s.chars.chars = q ++ 0 :: r) :
    s.Holds q :=
  ⟨by rw [Buf.str, h, cstr_append_zero hq], by rw [Buf.Term, h]; simp⟩

theorem Holds.read (h : s.Holds q) {i : ℕ} (hi : i < q.length) : s.read i = some q[i] := by
  obtain ⟨r, hr⟩ := h.eq_append
  unfold Block.read
  rw [hr, List.getElem?_append_left hi, List.getElem?_eq_getElem hi]

theorem Holds.readPred (h : s.Holds q) {i : ℕ} (hi : i ≤ q.length) :
    s.readPred i = some ((q.take i).getLast?.getD s.before) := by
  obtain ⟨r, hr⟩ := h.eq_append
  unfold Block.readPred
  rw [hr]
  cases i with
  | zero => rfl
  | succ i =>
    have hlt : i < q.length := hi
    rw [List.getElem?_cons_succ, List.getElem?_append_left hlt, List.take_add_one, List.getElem?_eq_getElem hlt,
      Option.toList_some, List.getLast?_concat, Option.getD_some]

theorem Holds.returned (h : s.Holds q) : returned (some s) = some q := by
  rw [Paths.returned, Option.bind_some, if_pos h.term, h.str]

theorem Holds.strlen (h : s.Holds q) : s.strlen = some q.length := by
  unfold Block.strlen
  rw [if_pos h.term, h.str]

theorem Holds.strcmp (h : s.Holds q) (C : Strcmp) (w : List UInt8) : s.strcmp C w = some (C.val q w) := by
  unfold Block.strcmp
  rw [if_pos h.term, h.str]

theorem strcpy_spec (s : Block) (src : List UInt8) (h0 : (0 : UInt8) ∈ src) (hlt : (cstr src).length < 4096) :
    ∃ t, s.strcpy src = some t ∧ t.Holds (cstr src) ∧ t.before = s.before := by
  obtain ⟨b, hb, hstr, hterm⟩ := s.chars.strcpy_spec h0 hlt
  exact ⟨{ s with chars := b }, by rw [Block.strcpy, hb]; rfl, ⟨hstr, hterm⟩, rfl⟩

theorem strcpy_literal (s : Block) {w : List UInt8} (hw : (0 : UInt8) ∉ w) (hlt : w.length < 4096) :
    ∃ t, s.strcpy (w ++ [0]) = some t ∧ t.Holds w ∧ t.before = s.before := by
  have hc : cstr (w ++ [0]) = w := cstr_append_zero hw []
  have := s.strcpy_spec (w ++ [0]) (by simp) (by rwa [hc])
  rwa [hc] at this

theorem strcpy_eq_none (s : Block) {src : List UInt8} (h0 : (0 : UInt8) ∉ src) : s.strcpy src = none := by
  rw [Block.strcpy, Buf.strcpy, if_neg h0]
  rfl

theorem Holds.clear {d e : List UInt8} (h : s.Holds (d ++ e)) :
    ∃ t, s.clear d.length = some t ∧ t.Holds d ∧ t.before = s.before := by
  obtain ⟨r, hr⟩ := h.eq_append
  have hlt := h.length_lt
  rw [List.length_append] at hlt
  obtain ⟨b, hb, hc⟩ := s.chars.exists_store d.length [0] (by rw [List.length_singleton]; omega)
  refine ⟨{ s with chars := b }, by rw [Block.clear, hb]; rfl, ?_, rfl⟩
  refine holds_of_eq_append (fun h0 => h.nz (List.mem_append_left e h0)) (r := s.chars.chars.drop (d.length + 1)) ?_
  show b.chars = _
  rw [hc, hr, List.append_assoc d e, List.take_left' rfl, List.append_assoc d [0]]
  rfl

end Block

/-! ### Collapsing -/

theorem take_succ_eq {q : List UInt8} {i : ℕ} (hi : i < q.length) :
    q.take (i + 1) = q.take i ++ [q[i]] := by
  rw [List.take_add_one, List.getElem?_eq_getElem hi, Option.toList_some]

/-- After `i` iterations `buf` starts with what is squeezed of `i` characters. -/
def Squeezed (s : Block) (p : List UInt8) (heap : ℕ → UInt8) (i : ℕ) (st : Buf UInt8 (p.length + 1) × ℕ) :
    Prop :=
  st.2 = (squeeze slash s.before (p.take i)).length ∧
    st.1.chars = squeeze slash s.before (p.take i) ++
      (malloc heap (p.length + 1)).chars.drop (squeeze slash s.before (p.take i)).length

theorem squeezed_spec {s : Block} {p : List UInt8} (h : s.Holds p) (heap : ℕ → UInt8) :
    ∃ buf j, (List.range p.length).foldlM (squeezeStep s) (malloc heap (p.length + 1), 0) = some (buf, j) ∧
      buf.chars = squeeze slash s.before p ++
        (malloc heap (p.length + 1)).chars.drop (squeeze slash s.before p).length := by
  have hstep : ∀ i (st : Buf UInt8 (p.length + 1) × ℕ), i < p.length → Squeezed s p heap i st →
      ∃ st', squeezeStep s st i = some st' ∧ Squeezed s p heap (i + 1) st' := by
    rintro i ⟨buf, j⟩ hi ⟨rfl, hbuf⟩
    have hsq := squeeze_append slash s.before (p.take i) [p[i]]
    rw [← take_succ_eq hi, squeeze] at hsq
    unfold squeezeStep
    rw [h.read hi, h.readPred hi.le]
    simp only [Option.bind_eq_bind, Option.bind_some]
    split
    · rename_i hc
      rw [if_pos hc, squeeze, List.append_nil] at hsq
      exact ⟨_, rfl, by rw [hsq], by rw [hsq]; exact hbuf⟩
    · rename_i hc
      rw [if_neg hc, squeeze] at hsq
      have hlen := length_squeeze_le slash s.before (p.take i)
      obtain ⟨buf', hst, hb'⟩ := Buf.store_next hbuf (by rw [List.length_take] at hlen; omega) p[i]
      refine ⟨(buf', _), by rw [hst]; rfl, by rw [hsq, List.length_append]; rfl, ?_⟩
      rw [hsq]
      exact hb'
  obtain ⟨⟨buf, j⟩, hfold, -, hbuf⟩ :=
    foldlM_range (Squeezed s p heap) (s := (malloc heap (p.length + 1), 0)) ⟨rfl, rfl⟩ hstep
  rw [List.take_length] at hbuf
  exact ⟨buf, j, hfold, hbuf⟩

/-- What `buf` holds when `w` is written into it: behind `w`, what `malloc`
returned. -/
def scratch (heap : ℕ → UInt8) (p w : List UInt8) : List UInt8 :=
  w ++ (malloc heap (p.length + 1)).chars.drop w.length

theorem length_scratch (heap : ℕ → UInt8) {p w : List UInt8} (h : w.length ≤ p.length) :
    (scratch heap p w).length = p.length + 1 := by
  rw [scratch, List.length_append, List.length_drop, Buf.size]
  omega

theorem collapseRuns_eq {s : Block} {p : List UInt8} (h : s.Holds p) (heap : ℕ → UInt8) :
    collapseRuns s heap p.length = s.strcpy (scratch heap p (squeeze slash s.before p)) := by
  obtain ⟨buf, j, hfold, hbuf⟩ := squeezed_spec h heap
  unfold collapseRuns
  rw [hfold]
  show s.strcpy buf.chars = _
  rw [hbuf, scratch]

theorem collapseRuns_spec {s : Block} {p : List UInt8} (h : s.Holds p) {heap : ℕ → UInt8}
    (h0 : (0 : UInt8) ∈ scratch heap p (squeeze slash s.before p)) :
    ∃ t, collapseRuns s heap p.length = some t ∧ t.Holds (cstr (scratch heap p (squeeze slash s.before p))) ∧
      t.before = s.before := by
  have hlen := length_scratch heap (length_squeeze_le slash s.before p)
  have hcstr := length_cstr_lt h0
  have hlt := h.length_lt
  rw [collapseRuns_eq h]
  apply s.strcpy_spec _ h0
  omega

theorem collapseRuns_undefined {s : Block} {p : List UInt8} (h : s.Holds p) {heap : ℕ → UInt8}
    (h0 : (0 : UInt8) ∉ scratch heap p (squeeze slash s.before p)) : collapseRuns s heap p.length = none := by
  rw [collapseRuns_eq h]
  exact s.strcpy_eq_none h0

/-- A zero right behind what is written. -/
theorem scratch_of_zero {heap : ℕ → UInt8} {p w : List UInt8} (hlen : w.length ≤ p.length)
    (h0 : heap w.length = 0) : ∃ r, scratch heap p w = w ++ 0 :: r := by
  refine ⟨(malloc heap (p.length + 1)).chars.drop (w.length + 1), ?_⟩
  rw [scratch, List.drop_eq_getElem_cons (by rw [Buf.size]; omega)]
  simp [malloc, h0]

/-! ### Trimming and counting -/

theorem getLast_getD_eq_iff {q : List UInt8} {b : UInt8} (h : b ≠ slash ∨ q ≠ []) :
    q.getLast?.getD b = slash ↔ q.getLast? = some slash := by
  cases hq : q.getLast? with
  | none => exact iff_of_false (h.resolve_right (not_not.mpr (List.getLast?_eq_none_iff.mp hq))) (by simp)
  | some c => rw [Option.getD_some, Option.some.injEq]

/-- `string[amount - 1]` is the last character, or what precedes the block. -/
theorem Block.Holds.readLast {s : Block} {q : List UInt8} (h : s.Holds q) :
    s.readPred q.length = some (q.getLast?.getD s.before) := by
  have hread := h.readPred le_rfl
  rwa [List.take_length] at hread

theorem trimSlash_spec {s : Block} {q : List UInt8} (h : s.Holds q) (hb : s.before ≠ slash ∨ q ≠ []) :
    ∃ t, trimSlash s q.length = some (t, (trim slash q).length) ∧ t.Holds (trim slash q) ∧
      t.before = s.before := by
  unfold trimSlash
  rw [h.readLast]
  simp only [Option.bind_eq_bind, Option.bind_some, getLast_getD_eq_iff hb]
  by_cases hc : q.getLast? = some slash ∧ q.length ≠ 1
  · rw [if_pos hc, trim, if_pos hc]
    obtain ⟨d, rfl⟩ := List.getLast?_eq_some_iff.mp hc.1
    obtain ⟨t, ht, hholds, hbefore⟩ := h.clear
    rw [List.dropLast_concat]
    refine ⟨t, ?_, hholds, hbefore⟩
    rw [List.length_append, List.length_singleton, Block.clearPred, ht, Option.bind_some, hholds.strlen,
      Option.bind_some]
  · rw [if_neg hc, trim, if_neg hc]
    exact ⟨s, rfl, h, rfl⟩

theorem countSlashes_spec {s : Block} {q : List UInt8} (h : s.Holds q) :
    countSlashes s q.length = some (q.count slash) := by
  have hstep : ∀ i k, i < q.length → k = (q.take i).count slash →
      ∃ k', countStep s k i = some k' ∧ k' = (q.take (i + 1)).count slash := by
    rintro i k hi rfl
    refine ⟨_, by rw [countStep, h.read hi]; rfl, ?_⟩
    rw [take_succ_eq hi, List.count_append, List.count_singleton]
    by_cases hc : q[i] = slash
    · rw [if_pos hc, if_pos (beq_iff_eq.mpr hc)]
    · rw [if_neg hc, if_neg (by simpa using hc), Nat.add_zero]
  obtain ⟨k, hk, hP⟩ := foldlM_range (s := 0) (fun i k => k = (q.take i).count slash) rfl hstep
  rw [countSlashes, hk, hP, List.take_length]

/-- What the second test leaves: a slash at the end goes if `strcmp` with `"/"`
gives 1. -/
def cutEnd (C : Strcmp) (q : List UInt8) : List UInt8 :=
  if q.getLast? = some slash ∧ C.val q [slash] = 1 then q.dropLast else q

/-- It finds no slash that the first has left of a path, but a lone one. -/
theorem cutEnd_normal (C : Strcmp) (p : List UInt8) : cutEnd C (normal slash p) = normal slash p := by
  refine if_neg fun hc => ?_
  have h0 := (C.eq_zero _ [slash]).mpr (getLast_normal hc.1)
  omega

theorem trimAgain_spec (C : Strcmp) {s : Block} {q : List UInt8} (h : s.Holds q) (hb : s.before ≠ slash ∨ q ≠ []) :
    ∃ t, trimAgain C s q.length (q.count slash) = some (t, (cutEnd C q).length, (cutEnd C q).count slash) ∧
      t.Holds (cutEnd C q) ∧ t.before = s.before := by
  unfold trimAgain
  rw [h.readLast, h.strcmp]
  simp only [Option.bind_eq_bind, Option.bind_some, getLast_getD_eq_iff hb]
  by_cases hc : q.getLast? = some slash ∧ C.val q [slash] = 1
  · rw [if_pos hc, cutEnd, if_pos hc]
    obtain ⟨d, rfl⟩ := List.getLast?_eq_some_iff.mp hc.1
    obtain ⟨t, ht, hholds, hbefore⟩ := h.clear
    rw [List.dropLast_concat]
    refine ⟨t, ?_, hholds, hbefore⟩
    rw [List.length_append, List.length_singleton, Block.clearPred, ht, Option.bind_some, List.count_append,
      List.count_singleton_self, Nat.add_sub_cancel, Nat.add_sub_cancel]
  · rw [if_neg hc, cutEnd, if_neg hc]
    exact ⟨s, rfl, h, rfl⟩

/-! ### The last slash -/

theorem nthSlash_spec (r : List UInt8) : ∀ (d : List UInt8) (i k : ℕ), d.count slash + 1 = k →
    nthSlash (d ++ slash :: r) i k = some (i + d.length)
  | [], i, k, h => by
    rw [List.nil_append, nthSlash, if_pos rfl, if_pos (by rw [← h]; rfl)]
    rfl
  | c :: d, i, k, h => by
    rw [List.cons_append, nthSlash, List.length_cons]
    by_cases hc : c = slash
    · rw [hc, List.count_cons_self] at h
      rw [if_pos hc, if_neg (by omega), nthSlash_spec r d (i + 1) (k - 1) (by omega)]
      congr 1
      omega
    · rw [List.count_cons_of_ne (Ne.symm hc).symm] at h
      rw [if_neg hc, nthSlash_spec r d (i + 1) k h]
      congr 1
      omega

/-- The last slash is the one the count ends on. -/
theorem Block.Holds.nthSlash {s : Block} {d c : List UInt8} (h : s.Holds (d ++ slash :: c)) (hc : slash ∉ c) :
    nthSlash s.chars.chars 0 ((d ++ slash :: c).count slash) = some d.length := by
  obtain ⟨r, hr⟩ := h.eq_append
  rw [hr, List.append_assoc, List.cons_append, nthSlash_spec _ d 0 _ (count_split hc).symm, Nat.zero_add]

/-! ### The normal form -/

/-- What the block holds then, if the copy back has left `w` in it. -/
def ended (C : Strcmp) (w : List UInt8) : List UInt8 := cutEnd C (trim slash w)

/-- With a zero in `buf`, the block holds what is before the first one, cut at
its end. -/
theorem normalise_ended (C : Strcmp) (m : Memory) {p : List UInt8} (hp : (0 : UInt8) ∉ p) (hlen : p.length ≤ 4095)
    {w : List UInt8} (hw : cstr (scratch m.heap p (squeeze slash m.string.before p)) = w)
    (h0 : (0 : UInt8) ∈ scratch m.heap p (squeeze slash m.string.before p)) (hb : m.string.before ≠ slash ∨ w ≠ []) :
    ∃ t, normalise C m p = some (t, (ended C w).length, (ended C w).count slash) ∧ t.Holds (ended C w) ∧
      t.before = m.string.before := by
  obtain ⟨s1, h1, hs1, hb1⟩ := m.string.strcpy_literal hp (by omega)
  rw [← hb1] at hw h0 hb
  obtain ⟨s2, h2, hs2, hb2⟩ := collapseRuns_spec hs1 h0
  rw [hw] at hs2
  rw [← hb2] at hb
  obtain ⟨s3, h3, hs3, hb3⟩ := trimSlash_spec hs2 hb
  rw [← hb3] at hb
  obtain ⟨s4, h4, hs4, hb4⟩ := trimAgain_spec C hs3 (hb.imp_right trim_ne_nil)
  refine ⟨s4, ?_, hs4, by rw [hb4, hb3, hb2, hb1]⟩
  unfold normalise
  rw [h1]
  simp only [Option.bind_eq_bind, Option.bind_some, hs1.strlen, h2, hs2.strlen, h3]
  rw [countSlashes_spec hs3, Option.bind_some]
  exact h4

/-- **The block holds the normal form of the path**, if the first byte of the
scratch buffer that the call does not write is zero. -/
theorem normalise_spec (C : Strcmp) (m : Memory) {p : List UInt8} (hp : (0 : UInt8) ∉ p) (hlen : p.length ≤ 4095)
    (hb : m.string.before ≠ slash) (h0 : m.heap (collapse slash p).length = 0) :
    ∃ t, normalise C m p = some (t, (normal slash p).length, (normal slash p).count slash) ∧
      t.Holds (normal slash p) ∧ t.before = m.string.before := by
  have hsq := squeeze_eq_collapse hb p
  have hle : (collapse slash p).length ≤ p.length := hsq ▸ length_squeeze_le slash m.string.before p
  have hnz : (0 : UInt8) ∉ collapse slash p := fun hm => hp (mem_of_mem_squeeze (hsq.symm ▸ hm))
  obtain ⟨r, hr⟩ := scratch_of_zero hle h0
  rw [← hsq] at hr hnz
  have hended : ended C (squeeze slash m.string.before p) = normal slash p := by
    rw [hsq]
    exact cutEnd_normal C p
  rw [← hended]
  apply normalise_ended C m hp hlen
  · rw [hr, cstr_append_zero hnz]
  · rw [hr]
    exact List.mem_append_right _ List.mem_cons_self
  · exact .inl hb

theorem normalise_undefined (C : Strcmp) (m : Memory) {p : List UInt8} (hp : (0 : UInt8) ∉ p)
    (hlen : p.length ≤ 4095) (h0 : (0 : UInt8) ∉ scratch m.heap p (squeeze slash m.string.before p)) :
    normalise C m p = none := by
  obtain ⟨s1, h1, hs1, hb1⟩ := m.string.strcpy_literal hp (by omega)
  have h2 := collapseRuns_undefined hs1 (hb1.symm ▸ h0)
  unfold normalise
  rw [h1]
  simp only [Option.bind_eq_bind, Option.bind_some, hs1.strlen, h2, Option.bind_none]

/-- An empty string behind a slash: the NUL is written in front of the block. -/
theorem trimSlash_undefined {s : Block} (h : s.Holds []) (hb : s.before = slash) : trimSlash s 0 = none := by
  have hread : s.readPred 0 = some slash := h.readLast.trans (congrArg some hb)
  unfold trimSlash
  rw [hread]
  rfl

/-! ### Any memory -/

/-- The string that `buf` holds when it is copied back. -/
def Memory.text (m : Memory) (p : List UInt8) : List UInt8 :=
  cstr (scratch m.heap p (squeeze slash m.string.before p))

/-- `buf` holds a zero then; and where the string is empty, no slash is before the
block. -/
structure Memory.BufEnds (m : Memory) (p : List UInt8) : Prop where
  zero : (0 : UInt8) ∈ scratch m.heap p (squeeze slash m.string.before p)
  inside : m.string.before ≠ slash ∨ m.text p ≠ []

/-- The string that the last loops find. -/
def Memory.form (C : Strcmp) (m : Memory) (p : List UInt8) : List UInt8 := ended C (m.text p)

theorem Memory.BufEnds.normalise {m : Memory} {p : List UInt8} (h : m.BufEnds p) (C : Strcmp) (hp : (0 : UInt8) ∉ p)
    (hlen : p.length ≤ 4095) : ∃ t, normalise C m p = some (t, (m.form C p).length, (m.form C p).count slash) ∧
      t.Holds (m.form C p) ∧ t.before = m.string.before :=
  normalise_ended C m hp hlen rfl h.zero h.inside

/-- Otherwise the statements before the last loop are undefined. -/
theorem normalise_eq_none (C : Strcmp) {m : Memory} {p : List UInt8} (hp : (0 : UInt8) ∉ p) (hlen : p.length ≤ 4095)
    (h : ¬ m.BufEnds p) : normalise C m p = none := by
  by_cases h0 : (0 : UInt8) ∈ scratch m.heap p (squeeze slash m.string.before p)
  · have hin : ¬ (m.string.before ≠ slash ∨ m.text p ≠ []) := fun hin => h ⟨h0, hin⟩
    push Not at hin
    obtain ⟨hb, hempty⟩ := hin
    obtain ⟨s1, h1, hs1, hb1⟩ := m.string.strcpy_literal hp (by omega)
    rw [← hb1] at h0
    obtain ⟨s2, h2, hs2, hb2⟩ := collapseRuns_spec hs1 h0
    have hs2' : s2.Holds [] := by
      rw [← hempty, Memory.text, ← hb1]
      exact hs2
    unfold normalise
    rw [h1]
    simp only [Option.bind_eq_bind, Option.bind_some, hs1.strlen, h2, hs2'.strlen, List.length_nil,
      trimSlash_undefined hs2' (hb2.trans (hb1.trans hb)), Option.bind_none]
  · exact normalise_undefined C m hp hlen h0

end Paths
end Autumn
