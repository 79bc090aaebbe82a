/-
# C arrays and the strings in them

Characters come from any type with a zero, the NUL. Memory is a list of
characters; the string at its start is what stands before the first NUL
(`cstr`). A `Buf α n` is an array of `n` characters, so no operation can
change its size; an operation that would read or write outside an array gives
`none` (undefined behaviour in C), and what it does inside is total.

Key definitions: `cstr`, `Buf`, `Buf.store`, `Buf.put`, `Buf.strcpy`,
`Buf.strcat`, `Buf.strncat`, `Buf.strncatAt`, `Buf.zeros`, `Buf.padded`,
`Buf.Clean`.
Key theorems: `cstr_append`, `Buf.store_spec`, `Buf.store_getElem?`,
`Buf.put_spec`, `Buf.strcat_spec`, `Buf.strncat_spec`, `Buf.Clean.store`.
-/
import Mathlib.Data.List.TakeWhile
import Mathlib.Data.UInt
import Mathlib.Tactic.Common

namespace Autumn

variable {α : Type*} [Zero α] [DecidableEq α]

/-! ### The string at the start of memory -/

/-- The characters before the first NUL (all of them, if there is none). -/
def cstr (m : List α) : List α := m.takeWhile fun c => decide (c ≠ 0)

@[simp] theorem cstr_nil : cstr ([] : List α) = [] := rfl

@[simp] theorem cstr_zero_cons (m : List α) : cstr (0 :: m) = [] := by simp [cstr]

theorem cstr_cons {c : α} (h : c ≠ 0) (m : List α) : cstr (c :: m) = c :: cstr m := by
  simp [cstr, h]

theorem zero_not_mem_cstr : ∀ m : List α, (0 : α) ∉ cstr m
  | [] => by simp
  | c :: m => by
    by_cases h : c = 0
    · simp [h]
    · rw [cstr_cons h]
      simp [zero_not_mem_cstr m, Ne.symm h]

theorem cstr_of_zero_not_mem {m : List α} (h : (0 : α) ∉ m) : cstr m = m := by
  induction m with
  | nil => rfl
  | cons c m ih =>
    simp only [List.mem_cons, not_or] at h
    rw [cstr_cons (Ne.symm h.1), ih h.2]

/-- Without a NUL in `a`, the string runs on. -/
theorem cstr_append {a : List α} (h : (0 : α) ∉ a) (b : List α) : cstr (a ++ b) = a ++ cstr b := by
  induction a with
  | nil => rfl
  | cons c a ih =>
    simp only [List.mem_cons, not_or] at h
    rw [List.cons_append, cstr_cons (Ne.symm h.1), ih h.2, List.cons_append]

theorem cstr_append_zero {w : List α} (h : (0 : α) ∉ w) (r : List α) : cstr (w ++ 0 :: r) = w := by
  rw [cstr_append h, cstr_zero_cons, List.append_nil]

theorem cstr_append_of_mem {a : List α} (h : (0 : α) ∈ a) (b : List α) : cstr (a ++ b) = cstr a := by
  induction a with
  | nil => cases h
  | cons c a ih =>
    by_cases hc : c = 0
    · simp [hc]
    · rw [List.cons_append, cstr_cons hc, cstr_cons hc, ih]
      exact (List.mem_cons.mp h).resolve_left (Ne.symm hc)

/-- Memory with a NUL is its string, the NUL and the rest. -/
theorem eq_cstr_append {m : List α} (h : (0 : α) ∈ m) :
    m = cstr m ++ 0 :: m.drop ((cstr m).length + 1) := by
  induction m with
  | nil => cases h
  | cons c m ih =>
    by_cases hc : c = 0
    · simp [hc]
    · have hm := (List.mem_cons.mp h).resolve_left (Ne.symm hc)
      rw [cstr_cons hc]
      simpa using ih hm

theorem length_cstr_lt {m : List α} (h : (0 : α) ∈ m) : (cstr m).length < m.length := by
  have := congrArg List.length (eq_cstr_append h)
  simp only [List.length_append, List.length_cons] at this
  omega

theorem length_cstr_le (m : List α) : (cstr m).length ≤ m.length := (List.takeWhile_sublist _).length_le

theorem take_length_cstr (m : List α) : m.take (cstr m).length = cstr m :=
  (List.prefix_iff_eq_take.mp (List.takeWhile_prefix _)).symm

/-- A string shorter than the memory it is in is terminated. -/
theorem zero_mem_of_length_lt {m : List α} (h : (cstr m).length < m.length) :
    (0 : α) ∈ m := by
  by_contra h0
  rw [cstr_of_zero_not_mem h0] at h
  exact lt_irrefl _ h

@[simp] theorem cstr_replicate_zero (n : ℕ) : cstr (List.replicate n (0 : α)) = [] := by
  cases n with
  | zero => rfl
  | succ n => rw [List.replicate_succ, cstr_zero_cons]

theorem cstr_map {f : α → α} (hf : ∀ c, f c = 0 ↔ c = 0) (m : List α) : cstr (m.map f) = (cstr m).map f := by
  have hp : (fun c : α => decide (c ≠ 0)) ∘ f = fun c => decide (c ≠ 0) := by
    funext c
    simp [hf]
  rw [cstr, List.takeWhile_map, hp, ← cstr]

/-- A string that was written where `k` characters are its own ends among them, or
goes on with what is behind these. -/
theorem cstr_of_take_eq {m w r : List α} {k : ℕ} (hw : (0 : α) ∉ w) (hm : m.take k = (w ++ 0 :: r).take k) :
    cstr m = if w.length < k then w else w.take k ++ cstr (m.drop k) := by
  have hsplit : cstr m = cstr (m.take k ++ m.drop k) := by rw [List.take_append_drop]
  rw [hsplit, hm]
  split
  · rename_i hlt
    obtain ⟨j, rfl⟩ := Nat.exists_eq_add_of_lt hlt
    rw [Nat.add_assoc, List.take_length_add_append, List.take_succ_cons, List.append_assoc, List.cons_append,
      cstr_append_zero hw]
  · rename_i hge
    rw [List.take_append_of_le_length (Nat.not_lt.mp hge), cstr_append fun h => hw (List.mem_of_mem_take h)]

/-- Equal strings: `strcmp(a, b) == 0`. -/
def strcmpEq (a b : List α) : Bool := decide (cstr a = cstr b)

/-! ### Arrays -/

/-- An array of `n` characters. -/
@[ext] structure Buf (α : Type*) (n : ℕ) where
  chars : List α
  size : chars.length = n
  deriving DecidableEq

namespace Buf

variable {n : ℕ}

attribute [simp] size

/-- The string the array holds. -/
def str (b : Buf α n) : List α := cstr b.chars

/-- The array holds a terminated string. -/
def Term (b : Buf α n) : Prop := (0 : α) ∈ b.chars

instance (b : Buf α n) : Decidable b.Term := inferInstanceAs (Decidable (_ ∈ _))

theorem str_nz (b : Buf α n) : (0 : α) ∉ b.str := zero_not_mem_cstr _

theorem Term.length_lt {b : Buf α n} (h : b.Term) : b.str.length < n :=
  (length_cstr_lt h).trans_eq b.size

/-- `memset(b, 0, n)`. -/
def zeros (α : Type*) [Zero α] (n : ℕ) : Buf α n := ⟨List.replicate n 0, List.length_replicate⟩

omit [DecidableEq α] in
@[simp] theorem chars_zeros : (zeros α n).chars = List.replicate n 0 := rfl

@[simp] theorem str_zeros : (zeros α n).str = [] := cstr_replicate_zero n

omit [DecidableEq α] in
theorem term_zeros (h : 0 < n) : (zeros α n).Term := by
  simp [Term, zeros, Nat.ne_of_gt h]

/-- The array that starts with `w` and is zero behind it. -/
def padded (w : List α) (h : w.length ≤ n) : Buf α n := ⟨w ++ List.replicate (n - w.length) 0, by
  rw [List.length_append, List.length_replicate]
  omega⟩

theorem str_padded {w : List α} (h : w.length ≤ n) (h0 : (0 : α) ∉ w) : (padded w h).str = w := by
  rw [str, padded, cstr_append h0, cstr_replicate_zero, List.append_nil]

omit [DecidableEq α] in
theorem term_padded {w : List α} (h : w.length < n) : (padded w h.le).Term := by
  have hpos : n - w.length ≠ 0 := by omega
  exact List.mem_append_right w (List.mem_replicate.mpr ⟨hpos, rfl⟩)

/-- The array together with the memory `l` behind it. -/
def extend (b : Buf α n) (l : List α) : Buf α (n + l.length) := ⟨b.chars ++ l, by rw [List.length_append, b.size]⟩

/-- Store the characters `w` from index `off` on, if they all lie inside. -/
def store (b : Buf α n) (off : ℕ) (w : List α) : Option (Buf α n) :=
  if h : off + w.length ≤ n then
    some ⟨b.chars.take off ++ w ++ b.chars.drop (off + w.length), by simp; omega⟩
  else none

omit [Zero α] [DecidableEq α] in
/-- What a store does: it needs room, and changes the stored range only. -/
theorem store_spec {b b' : Buf α n} {off : ℕ} {w : List α} :
    b.store off w = some b' ↔
      off + w.length ≤ n ∧ b'.chars = b.chars.take off ++ w ++ b.chars.drop (off + w.length) := by
  unfold store
  split
  · rename_i h
    simp only [Option.some.injEq, h, true_and]
    exact ⟨fun e => by rw [← e], fun e => Buf.ext e.symm⟩
  · rename_i h
    simp [h]

omit [Zero α] [DecidableEq α] in
theorem store_isSome {b : Buf α n} {off : ℕ} {w : List α} :
    (b.store off w).isSome ↔ off + w.length ≤ n := by
  unfold store
  split
  · rename_i h
    simp [h]
  · rename_i h
    simp [h]

omit [Zero α] [DecidableEq α] in
theorem exists_store (b : Buf α n) (off : ℕ) (w : List α) (h : off + w.length ≤ n) :
    ∃ b', b.store off w = some b' ∧
      b'.chars = b.chars.take off ++ w ++ b.chars.drop (off + w.length) := by
  obtain ⟨b', hb⟩ := Option.isSome_iff_exists.mp (store_isSome.mpr h : (b.store off w).isSome)
  exact ⟨b', hb, (store_spec.mp hb).2⟩

omit [Zero α] [DecidableEq α] in
/-- One more character behind what has been written over `r`. -/
theorem store_next {b : Buf α n} {w r : List α} (h : b.chars = w ++ r.drop w.length) (hw : w.length < n) (c : α) :
    ∃ b', b.store w.length [c] = some b' ∧ b'.chars = (w ++ [c]) ++ r.drop (w ++ [c]).length := by
  obtain ⟨b', hb, hc⟩ := b.exists_store w.length [c] hw
  refine ⟨b', hb, ?_⟩
  rw [hc, h, List.take_left' rfl, List.length_singleton, List.length_append, List.length_singleton,
    ← List.drop_drop, List.drop_left' rfl, List.drop_drop]

omit [Zero α] [DecidableEq α] in
theorem store_getElem? {b b' : Buf α n} {off : ℕ} {w : List α} (h : b.store off w = some b') (j : ℕ) :
    b'.chars[j]? = if off ≤ j ∧ j < off + w.length then w[j - off]? else b.chars[j]? := by
  obtain ⟨hle, hc⟩ := store_spec.mp h
  have htake : (b.chars.take off).length = off := by
    rw [List.length_take, b.size]
    omega
  rw [hc, List.append_assoc]
  by_cases h1 : off ≤ j
  · rw [List.getElem?_append_right (by omega), htake]
    by_cases h2 : j < off + w.length
    · rw [if_pos ⟨h1, h2⟩, List.getElem?_append_left (by omega)]
    · rw [if_neg (by omega), List.getElem?_append_right (by omega), List.getElem?_drop]
      congr 1
      omega
  · rw [if_neg (by omega), List.getElem?_append_left (by omega), List.getElem?_take_of_lt (by omega)]

omit [Zero α] [DecidableEq α] in
theorem window_store {b b' : Buf α n} {off : ℕ} {w : List α} (h : b.store off w = some b') {o k : ℕ}
    (hk : o + k ≤ off) : (b'.chars.drop o).take k = (b.chars.drop o).take k := by
  obtain ⟨hle, hc⟩ := store_spec.mp h
  have hlen : o + k ≤ (b.chars.take off).length := by
    rw [List.length_take, b.size]
    omega
  rw [List.take_drop, List.take_drop, hc, List.append_assoc, List.take_append_of_le_length hlen, List.take_take,
    min_eq_left hk]

omit [Zero α] [DecidableEq α] in
theorem drop_store {b b' : Buf α n} {off : ℕ} {w : List α} (h : b.store off w = some b') :
    b'.chars.drop off = w ++ b.chars.drop (off + w.length) := by
  obtain ⟨hle, hc⟩ := store_spec.mp h
  have hoff : (b.chars.take off).length = off := by
    rw [List.length_take, b.size]
    omega
  rw [hc, List.append_assoc, List.drop_left' hoff]

/-- Write the string `w` with its NUL at the start: `sprintf(b, ...)` with the
text `w`, or a line read into `b`. -/
def put (b : Buf α n) (w : List α) : Option (Buf α n) := b.store 0 (w ++ [0])

theorem put_spec (b : Buf α n) {w : List α} (hw : (0 : α) ∉ w) (h : w.length < n) :
    ∃ b', b.put w = some b' ∧ b'.str = w ∧ b'.Term := by
  obtain ⟨b', hb, hc⟩ := b.exists_store 0 (w ++ [0]) (by simp; omega)
  refine ⟨b', hb, ?_, ?_⟩
  · rw [str, hc]
    simp [cstr_append hw]
  · simp [Term, hc]

theorem put_eq_some {b b' : Buf α n} {w : List α} (hw : (0 : α) ∉ w) (h : b.put w = some b') :
    w.length < n ∧ b'.str = w ∧ b'.Term := by
  have hlt : w.length < n := by
    have := (store_spec.mp h).1
    simp only [List.length_append, List.length_singleton] at this
    omega
  obtain ⟨b2, h2, hs⟩ := b.put_spec hw hlt
  rw [h] at h2
  exact ⟨hlt, Option.some.inj h2 ▸ hs⟩

/-- A NUL over the last character of the string. -/
theorem shorten (b : Buf α n) (ht : b.Term) (hne : b.str ≠ []) :
    ∃ b', b.store (b.str.length - 1) [0] = some b' ∧ b'.Term ∧ b'.str = b.str.dropLast := by
  obtain ⟨w, x, hw⟩ : ∃ w x, b.str = w ++ [x] := ⟨_, _, (List.dropLast_concat_getLast hne).symm⟩
  have hlen : w.length + 1 < n := by
    have := ht.length_lt
    rwa [hw, List.length_append] at this
  obtain ⟨b', hb, hc⟩ := b.exists_store w.length [0] (by simp; omega)
  have htake : b.chars.take w.length = w := by
    rw [eq_cstr_append ht, show cstr b.chars = w ++ [x] from hw, List.append_assoc]
    exact List.take_left' rfl
  have hw0 : (0 : α) ∉ w := fun h => b.str_nz (hw ▸ List.mem_append_left _ h)
  rw [htake, List.append_assoc, List.singleton_append] at hc
  refine ⟨b', ?_, ?_, ?_⟩
  · rw [hw, List.length_append, List.length_singleton, Nat.add_sub_cancel, hb]
  · rw [Term, hc]
    simp
  · rw [str, hc, cstr_append_zero hw0, hw, List.dropLast_concat]

/-- `strcpy(b + off, src)`: `src` is the memory from the source pointer on. -/
def strcpy (b : Buf α n) (off : ℕ) (src : List α) : Option (Buf α n) :=
  if (0 : α) ∈ src then b.store off (cstr src ++ [0]) else none

/-- `strcat(b, src)`. -/
def strcat (b : Buf α n) (src : List α) : Option (Buf α n) :=
  if (0 : α) ∈ src ∧ b.Term then b.store b.str.length (cstr src ++ [0]) else none

/-- `strncat(b, src, k)`. -/
def strncat (b : Buf α n) (src : List α) (k : ℕ) : Option (Buf α n) :=
  if ((0 : α) ∈ src ∨ k ≤ src.length) ∧ b.Term then b.store b.str.length ((cstr src).take k ++ [0])
  else none

/-- `strncat(b + off, src, k)`. -/
def strncatAt (b : Buf α n) (off : ℕ) (src : List α) (k : ℕ) : Option (Buf α n) :=
  if ((0 : α) ∈ src ∨ k ≤ src.length) ∧ (0 : α) ∈ b.chars.drop off then
    b.store (off + (cstr (b.chars.drop off)).length) ((cstr src).take k ++ [0])
  else none

theorem strcpy_spec (b : Buf α n) {src : List α} (hs : (0 : α) ∈ src) (h : (cstr src).length < n) :
    ∃ b', b.strcpy 0 src = some b' ∧ b'.str = cstr src ∧ b'.Term := by
  rw [strcpy, if_pos hs]
  exact b.put_spec (zero_not_mem_cstr src) h

theorem append_spec (b : Buf α n) {w : List α} (_ : b.Term) (hw : (0 : α) ∉ w)
    (h : b.str.length + w.length < n) :
    ∃ b', b.store b.str.length (w ++ [0]) = some b' ∧ b'.str = b.str ++ w ∧ b'.Term := by
  obtain ⟨b', hb, hc⟩ := b.exists_store b.str.length (w ++ [0])
    (by simp only [List.length_append, List.length_singleton]; omega)
  have htake : b.chars.take b.str.length = b.str := take_length_cstr b.chars
  refine ⟨b', hb, ?_, ?_⟩
  · rw [str, hc, htake]
    rw [show b.str ++ (w ++ [0]) = (b.str ++ w) ++ [0] by simp, List.append_assoc, List.singleton_append]
    exact cstr_append_zero (by simp [b.str_nz, hw]) _
  · simp [Term, hc]

theorem append_eq_some {b b' : Buf α n} {w : List α} (ht : b.Term) (hw : (0 : α) ∉ w)
    (h : b.store b.str.length (w ++ [0]) = some b') :
    b.str.length + w.length < n ∧ b'.str = b.str ++ w ∧ b'.Term := by
  have hlt : b.str.length + w.length < n := by
    have := (store_spec.mp h).1
    simp only [List.length_append, List.length_singleton] at this
    omega
  obtain ⟨b2, h2, hs⟩ := b.append_spec ht hw hlt
  rw [h] at h2
  exact ⟨hlt, Option.some.inj h2 ▸ hs⟩

theorem strncat_eq_some {b b' : Buf α n} {src : List α} {k : ℕ} (h : b.strncat src k = some b') :
    b.str.length + ((cstr src).take k).length < n ∧ b'.str = b.str ++ (cstr src).take k ∧ b'.Term := by
  unfold strncat at h
  split at h
  · rename_i hc
    exact append_eq_some hc.2 (fun h0 => zero_not_mem_cstr src (List.mem_of_mem_take h0)) h
  · cases h

theorem term_of_strncat {b b' : Buf α n} {src : List α} {k : ℕ} (h : b.strncat src k = some b') : b.Term := by
  unfold strncat at h
  split at h
  · rename_i hc
    exact hc.2
  · cases h

theorem strcat_spec (b : Buf α n) (src : List α) (ht : b.Term) (hs : (0 : α) ∈ src)
    (h : b.str.length + (cstr src).length < n) :
    ∃ b', b.strcat src = some b' ∧ b'.str = b.str ++ cstr src ∧ b'.Term := by
  rw [strcat, if_pos ⟨hs, ht⟩]
  exact b.append_spec ht (zero_not_mem_cstr src) h

theorem strcat_eq_some {b b' : Buf α n} {src : List α} (h : b.strcat src = some b') :
    b.str.length + (cstr src).length < n ∧ b'.str = b.str ++ cstr src ∧ b'.Term := by
  unfold strcat at h
  split at h
  · rename_i hc
    exact append_eq_some hc.2 (zero_not_mem_cstr src) h
  · cases h

/-- `strncat(b, src, strlen(src))` appends the whole string. -/
theorem strncat_spec (b : Buf α n) (src : List α) (ht : b.Term) (hs : (0 : α) ∈ src)
    (h : b.str.length + (cstr src).length < n) :
    ∃ b', b.strncat src (cstr src).length = some b' ∧ b'.str = b.str ++ cstr src ∧ b'.Term := by
  rw [strncat, if_pos ⟨.inl hs, ht⟩, List.take_length]
  exact b.append_spec ht (zero_not_mem_cstr src) h

/-- Appending a whole string inside an array: it needs a string there and room
behind it. -/
theorem strncatAt_eq_some {b b' : Buf α n} {off : ℕ} {src : List α} (hs : (0 : α) ∈ src) {k : ℕ}
    (hk : (cstr src).length ≤ k) : b.strncatAt off src k = some b' ↔
      (0 : α) ∈ b.chars.drop off ∧ off + (cstr (b.chars.drop off)).length + (cstr src).length < n ∧
      b'.chars = b.chars.take off ++ (cstr (b.chars.drop off) ++ cstr src ++
        0 :: b.chars.drop (off + (cstr (b.chars.drop off)).length + (cstr src).length + 1)) := by
  unfold strncatAt
  by_cases h0 : (0 : α) ∈ b.chars.drop off
  · have htake : b.chars.take (off + (cstr (b.chars.drop off)).length) =
        b.chars.take off ++ cstr (b.chars.drop off) := by
      rw [List.take_add, take_length_cstr]
    rw [if_pos ⟨.inl hs, h0⟩, List.take_of_length_le hk, store_spec, htake, and_iff_right h0]
    simp only [List.length_append, List.length_singleton, List.append_assoc, List.singleton_append,
      ← Nat.add_assoc, Nat.succ_le_iff]
  · rw [if_neg fun h => h0 h.2]
    exact iff_of_false (by simp) fun h => h0 h.1

/-- What was stored as a string is read back where it was stored. -/
theorem cstr_drop_store {b b' : Buf α n} {off : ℕ} {w : List α} (hw : (0 : α) ∉ w)
    (hb : b.store off (w ++ [0]) = some b') : cstr (b'.chars.drop off) = w := by
  rw [drop_store hb, List.append_assoc, List.singleton_append, cstr_append_zero hw]

theorem cstr_drop_store_before {b b' : Buf α n} {off off' : ℕ} {w : List α}
    (hb : b.store off w = some b') (h : off' + (cstr (b.chars.drop off')).length < off) :
    cstr (b'.chars.drop off') = cstr (b.chars.drop off') := by
  obtain ⟨hle, hc⟩ := store_spec.mp hb
  have hlen : off' + (b.chars.drop off').length = n := by
    have := b.size
    rw [List.length_drop]; omega
  have h0 : (0 : α) ∈ b.chars.drop off' := zero_mem_of_length_lt (by omega)
  set m := b.chars.drop off' with hm
  -- the string with its NUL lies in the part of `m` before the store
  have hzero : (0 : α) ∈ m.take (off - off') := by
    have hk : off - off' - (cstr m).length = (off - off' - (cstr m).length - 1) + 1 := by omega
    rw [eq_cstr_append h0, List.take_append, hk]
    simp
  have hb' : b'.chars.drop off' = m.take (off - off') ++ (w ++ b.chars.drop (off + w.length)) := by
    have : off' ≤ (b.chars.take off).length := by simp; omega
    rw [hc, List.append_assoc, List.drop_append_of_le_length this, List.drop_take, ← hm]
  rw [hb', cstr_append_of_mem hzero, ← cstr_append_of_mem hzero (m.drop (off - off')),
    List.take_append_drop]

/-! ### Arrays with nothing behind their string -/

/-- Behind the string there are only zeros. -/
def Clean (b : Buf α n) : Prop := ∃ k, b.chars = b.str ++ List.replicate k 0

theorem clean_zeros : (zeros α n).Clean := ⟨n, by rw [str_zeros, chars_zeros, List.nil_append]⟩

/-- What a string at least as long as the old one leaves behind it. -/
theorem Clean.drop {b : Buf α n} (h : b.Clean) {m : List α} (hm : b.str.length ≤ m.length) :
    ∃ k, b.chars.drop m.length = List.replicate k 0 := by
  obtain ⟨k, hk⟩ := h
  refine ⟨k - (m.length - b.str.length), ?_⟩
  rw [hk, List.drop_append, List.drop_eq_nil_of_le hm, List.drop_replicate, List.nil_append]

/-- A string received over one that is not longer is the string then, and
nothing is behind it. -/
theorem Clean.store {b b' : Buf α n} (h : b.Clean) {m : List α} (h0 : (0 : α) ∉ m)
    (hm : b.str.length ≤ m.length) (hb : b.store 0 m = some b') : b'.str = m ∧ b'.Clean := by
  obtain ⟨k, hk⟩ := h.drop hm
  obtain ⟨-, hc⟩ := store_spec.mp hb
  rw [Nat.zero_add, hk, List.take_zero, List.nil_append] at hc
  have hs : b'.str = m := by rw [str, hc, cstr_append h0, cstr_replicate_zero, List.append_nil]
  exact ⟨hs, k, by rw [hs, hc]⟩

end Buf
end Autumn
