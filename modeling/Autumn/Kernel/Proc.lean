/-
# The proc file that answers a greeting (`proc/hello.c`)

A write of `hello\n` sets `temp` to the length of the user's message, and every
read hands over the first bytes of `answer`, as many as it asks for and `temp`
still allows; a read that returns 0 sets `temp` to the global `len`, which no
one sets (`write_proc` sets a local of that name).

So the bytes handed over are the answer only if the first read returns exactly
its four bytes and the next one, by luck, none; and a message longer than the
answer and a large read hand over memory behind it. `greets_iff` has the exact
condition on the write and the sizes of the reads.

The user's memory is the list of the bytes from the pointer on; `behind` is the
kernel's memory behind the answer. An allocation succeeds.

Key definitions: `read_proc`, `write_proc`, `proc`, `handed`, `Greets`.
Key theorems: `reads_cons`, `handed_isSome_iff`, `handed_eq_greeting_iff`,
`noOverread_iff`, `greets_iff`.
-/
import Autumn.Lib.System
import Autumn.Lib.CString

namespace Autumn
namespace Proc

/-! ### The program -/

/-- `"hello\n"`, without its NUL. -/
def hello : List UInt8 := [104, 101, 108, 108, 111, 10]

/-- `"Hi!\n"`, without its NUL. -/
def greeting : List UInt8 := [72, 105, 33, 10]

/-- The array `answer` points to. -/
def answer : List UInt8 := greeting ++ [0]

/-- The kernel passes no larger size to a driver; it fits an `int`. -/
def MAX_RW_COUNT : ℕ := 0x7ffff000

/-- The globals `len` and `temp`. -/
structure State where
  len : ℕ
  temp : ℕ
  deriving DecidableEq, Repr

variable (behind : ℕ → UInt8)

/-- The bytes `copy_to_user(buf, answer, count)` hands over. -/
def copy_to_user (count : ℕ) : List UInt8 := (List.range count).map fun i => answer.getD i (behind i)

/-- What a read asked for, what it returned and the bytes it handed over. -/
structure Reply where
  asked : ℕ
  ret : ℕ
  bytes : List UInt8
  deriving DecidableEq, Repr

def read_proc (s : State) (count : ℕ) : Reply × State :=
  let asked := count
  let count := if count > s.temp then s.temp else count
  let temp := s.temp - count
  (⟨asked, count, copy_to_user behind count⟩, { s with temp := if count = 0 then s.len else temp })

def write_proc (s : State) (buf : List UInt8) (count : ℕ) : Option State :=
  -- `memcmp` reads six bytes, whatever `count` is
  if buf.length < 6 then none
  else if buf.take 6 = hello then
    if (0 : UInt8) ∈ buf then
      -- this `len` hides the global one
      let len := (cstr buf).length + 1
      -- `copy_from_user(msg, answer, count)` into the `len` bytes of `msg`
      if count > len then none
      else
        let len := count
        some { s with temp := len }
    else none
  else some s

inductive Call
  | write (buf : List UInt8) (count : ℕ)
  | read (count : ℕ)
  deriving DecidableEq, Repr

def proc : System State Call where
  init s := s = ⟨0, 0⟩
  step s
    | .write buf count => write_proc s buf (min count MAX_RW_COUNT)
    | .read count => some (read_proc behind s (min count MAX_RW_COUNT)).2

/-- The replies to a sequence of reads. -/
def reads : State → List ℕ → List Reply
  | _, [] => []
  | s, count :: counts => (read_proc behind s count).1 :: reads (read_proc behind s count).2 counts

/-- The bytes up to the first read of a size other than 0 that returns 0, if
there is one. -/
def handed : List Reply → Option (List UInt8)
  | [] => none
  | r :: rs => if r.asked ≠ 0 ∧ r.ret = 0 then some [] else (handed rs).map (r.bytes ++ ·)

/-- What is claimed of a write and the reads after it. -/
def Greets (s : State) (buf : List UInt8) (count : ℕ) (counts : List ℕ) : Prop :=
  ∃ t, write_proc s buf (min count MAX_RW_COUNT) = some t ∧
    (∀ r ∈ reads behind t counts, r.ret ≤ answer.length) ∧
    ∀ w, handed (reads behind t counts) = some w → w = greeting

/-! ### The condition -/

/-- The message is terminated, and the write is not longer than it with its
NUL. -/
def Fits (buf : List UInt8) (count : ℕ) : Prop := (0 : UInt8) ∈ buf ∧ count ≤ (cstr buf).length + 1

/-- As long as there was no read of size 0, none asks for more than 5 bytes of
what is left of the write's length. -/
def NoOverread (t : ℕ) (counts : List ℕ) : Prop :=
  ∀ ks k js, counts = ks ++ k :: js → 0 ∉ ks → ks.sum < t → min k (t - ks.sum) ≤ 5

/-- Some read of a size other than 0 comes after one of size 0, or after the
write's length has been asked for. -/
def Terminated (t : ℕ) (counts : List ℕ) : Prop :=
  ∃ ks k js, counts = ks ++ k :: js ∧ 0 < k ∧ (0 ∈ ks ∨ t ≤ ks.sum)

/-- The first read gets 4 bytes, and nothing is left for the second or it is of
size 0. -/
def FourFirst (t : ℕ) (counts : List ℕ) : Prop :=
  ∃ k ks, counts = k :: ks ∧ min k t = 4 ∧ (t = 4 ∨ ks.head? = some 0)

/-- What is left of `t` after a read of size `k`. -/
def left (t k : ℕ) : ℕ := if k = 0 then 0 else t - k

theorem left_zero (k : ℕ) : left 0 k = 0 := by
  unfold left
  split
  · rfl
  · exact Nat.zero_sub k

theorem terminated_cons {t k : ℕ} {ks : List ℕ} :
    Terminated t (k :: ks) ↔ (0 < k ∧ t = 0) ∨ Terminated (left t k) ks := by
  constructor
  · rintro ⟨as, j, bs, h, hj, hr⟩
    cases as with
    | nil =>
      obtain ⟨rfl, rfl⟩ := List.cons.inj h
      exact .inl ⟨hj, by simpa using hr⟩
    | cons a as =>
      obtain ⟨rfl, rfl⟩ := List.cons.inj h
      refine .inr ⟨as, j, bs, rfl, hj, ?_⟩
      rw [List.mem_cons, List.sum_cons] at hr
      unfold left
      split
      · exact .inr (Nat.zero_le _)
      · rcases hr with (h0 | h0) | h0
        · omega
        · exact .inl h0
        · exact .inr (by omega)
  · rintro (⟨hk, rfl⟩ | ⟨as, j, bs, rfl, hj, hr⟩)
    · exact ⟨[], k, ks, rfl, hk, .inr le_rfl⟩
    · refine ⟨k :: as, j, bs, rfl, hj, ?_⟩
      rw [List.mem_cons, List.sum_cons]
      unfold left at hr
      split at hr
      · rename_i h0
        exact .inl (.inl h0.symm)
      · exact hr.imp .inr fun h => by omega

theorem noOverread_cons {t k : ℕ} {ks : List ℕ} :
    NoOverread t (k :: ks) ↔ min k t ≤ 5 ∧ NoOverread (left t k) ks := by
  constructor
  · intro h
    refine ⟨?_, fun as j bs hs h0 hlt => ?_⟩
    · have := h [] k ks rfl (List.not_mem_nil)
      simp only [List.sum_nil] at this
      omega
    · have hk : k ≠ 0 := by
        rintro rfl
        exact Nat.not_lt_zero _ hlt
      unfold left at hlt ⊢
      rw [if_neg hk] at hlt ⊢
      have := h (k :: as) j bs (by rw [hs]; rfl) (by simp [h0, Ne.symm hk]) (by rw [List.sum_cons]; omega)
      rwa [List.sum_cons, ← Nat.sub_sub] at this
  · rintro ⟨h1, h2⟩ as j bs hs h0 hlt
    cases as with
    | nil =>
      obtain ⟨rfl, rfl⟩ := List.cons.inj hs
      exact h1
    | cons a as =>
      obtain ⟨rfl, rfl⟩ := List.cons.inj hs
      rw [List.mem_cons, not_or] at h0
      rw [List.sum_cons] at hlt ⊢
      have := h2 as j bs rfl h0.2
      unfold left at this
      rw [if_neg (Ne.symm h0.1)] at this
      rw [← Nat.sub_sub]
      exact this (by omega)

/-! ### The reads after a write -/

theorem length_copy (n : ℕ) : (copy_to_user behind n).length = n := by
  unfold copy_to_user
  rw [List.length_map, List.length_range]

theorem copy_zero : copy_to_user behind 0 = [] := rfl

theorem head?_copy {n : ℕ} (h : 0 < n) : (copy_to_user behind n).head? = some 72 := by
  obtain ⟨m, rfl⟩ := Nat.exists_eq_add_of_lt h
  unfold copy_to_user
  rw [Nat.zero_add, List.range_succ_eq_map, List.map_cons]
  rfl

theorem read_proc_eq (t k : ℕ) :
    read_proc behind ⟨0, t⟩ k = (⟨k, min k t, copy_to_user behind (min k t)⟩, ⟨0, left t k⟩) := by
  have hmin : (if k > t then t else k) = min k t := by split <;> omega
  have hleft : (if min k t = 0 then 0 else t - min k t) = left t k := by unfold left; split <;> split <;> omega
  simp only [read_proc, hmin, hleft]

theorem reads_cons (t k : ℕ) (ks : List ℕ) :
    reads behind ⟨0, t⟩ (k :: ks) =
      ⟨k, min k t, copy_to_user behind (min k t)⟩ :: reads behind ⟨0, left t k⟩ ks := by
  rw [reads, read_proc_eq]

theorem handed_cons (t k : ℕ) (ks : List ℕ) :
    handed (reads behind ⟨0, t⟩ (k :: ks)) =
      if 0 < k ∧ t = 0 then some []
      else (handed (reads behind ⟨0, left t k⟩ ks)).map (copy_to_user behind (min k t) ++ ·) := by
  have hiff : (k ≠ 0 ∧ min k t = 0) ↔ (0 < k ∧ t = 0) := by omega
  rw [reads_cons, handed]
  simp only [hiff]

theorem handed_isSome_iff : ∀ (ks : List ℕ) (t : ℕ),
    (handed (reads behind ⟨0, t⟩ ks)).isSome = true ↔ Terminated t ks
  | [], t => by
    refine iff_of_false (by simp [reads, handed]) ?_
    rintro ⟨as, j, bs, h, -⟩
    simp at h
  | k :: ks, t => by
    rw [handed_cons, terminated_cons]
    split
    · rename_i h
      exact iff_of_true rfl (.inl h)
    · rename_i h
      rw [Option.isSome_map, handed_isSome_iff ks, or_iff_right h]

theorem noOverread_iff : ∀ (ks : List ℕ) (t : ℕ),
    (∀ r ∈ reads behind ⟨0, t⟩ ks, r.ret ≤ answer.length) ↔ NoOverread t ks
  | [], t => by
    refine iff_of_true (fun r hr => by cases hr) ?_
    intro as j bs h
    simp at h
  | k :: ks, t => by
    rw [reads_cons, List.forall_mem_cons, noOverread_iff ks, noOverread_cons]
    exact Iff.rfl

theorem handed_drained : ∀ {ks : List ℕ} {w : List UInt8}, handed (reads behind ⟨0, 0⟩ ks) = some w → w = []
  | [], w, h => by cases h
  | k :: ks, w, h => by
    rw [handed_cons] at h
    split at h
    · exact (Option.some.inj h).symm
    · obtain ⟨v, hv, rfl⟩ := Option.map_eq_some_iff.mp h
      rw [left_zero] at hv
      rw [handed_drained hv, Nat.min_zero, copy_zero, List.append_nil]

/-- What is handed over starts like the answer, if it is anything; and it is
nothing exactly if nothing is left, or the first read is of size 0. -/
theorem handed_cases {t : ℕ} {ks : List ℕ} {w : List UInt8} (h : handed (reads behind ⟨0, t⟩ ks) = some w) :
    (w = [] ∧ (t = 0 ∨ ks.head? = some 0)) ∨ (w.head? = some 72 ∧ t ≠ 0 ∧ ks.head? ≠ some 0) := by
  by_cases ht : t = 0
  · subst ht
    exact .inl ⟨handed_drained behind h, .inl rfl⟩
  cases ks with
  | nil => cases h
  | cons k ks =>
    rw [handed_cons, if_neg (by omega)] at h
    obtain ⟨v, hv, rfl⟩ := Option.map_eq_some_iff.mp h
    by_cases hk : k = 0
    · subst hk
      have hv0 := handed_drained behind hv
      exact .inl ⟨by rw [hv0, Nat.zero_min, copy_zero, List.append_nil], .inr rfl⟩
    · refine .inr ⟨?_, ht, by simpa using hk⟩
      rw [List.head?_append, head?_copy behind (by omega)]
      rfl

/-- A copy of a part of the answer is continued to the greeting by no further
copy from its start. -/
theorem copy_append_eq_greeting {n : ℕ} {w : List UInt8} (hn : 0 < n) (hw : w = [] ∨ w.head? = some 72) :
    copy_to_user behind n ++ w = greeting ↔ n = 4 ∧ w = [] := by
  constructor
  · intro h
    have hlen := congrArg List.length h
    rw [List.length_append, length_copy, show greeting.length = 4 from rfl] at hlen
    have hdrop := congrArg (List.drop n) h
    rw [List.drop_left' (length_copy behind n)] at hdrop
    rcases hw with rfl | hw
    · exact ⟨by simpa using hlen, rfl⟩
    · -- `w` starts in the middle of the greeting
      obtain rfl | rfl | rfl | rfl : n = 1 ∨ n = 2 ∨ n = 3 ∨ n = 4 := by omega
      · rw [hdrop] at hw
        exact absurd hw (by decide)
      · rw [hdrop] at hw
        exact absurd hw (by decide)
      · rw [hdrop] at hw
        exact absurd hw (by decide)
      · exact ⟨rfl, hdrop⟩
  · rintro ⟨rfl, rfl⟩
    rfl

/-- **The greeting comes from one read**, of exactly its four bytes, with
nothing left or thrown away by a read of size 0. -/
theorem handed_eq_greeting_iff {t : ℕ} {ks : List ℕ} {w : List UInt8}
    (h : handed (reads behind ⟨0, t⟩ ks) = some w) : w = greeting ↔ FourFirst t ks := by
  cases ks with
  | nil => cases h
  | cons k ks =>
    have hfour : FourFirst t (k :: ks) ↔ min k t = 4 ∧ (t = 4 ∨ ks.head? = some 0) := by
      constructor
      · rintro ⟨_, _, he, hr⟩
        obtain ⟨rfl, rfl⟩ := List.cons.inj he
        exact hr
      · exact fun hr => ⟨k, ks, rfl, hr⟩
    rw [hfour]
    by_cases h0 : k = 0 ∨ t = 0
    · have hw : w = [] := by
        rcases handed_cases behind h with ⟨hw, -⟩ | ⟨-, ht, hk⟩
        · exact hw
        · simp only [List.head?_cons, ne_eq, Option.some.injEq] at hk
          omega
      refine iff_of_false (by rw [hw]; decide) fun hr => by omega
    rw [handed_cons, if_neg (by omega)] at h
    obtain ⟨v, hv, rfl⟩ := Option.map_eq_some_iff.mp h
    have hcases := handed_cases behind hv
    rw [copy_append_eq_greeting behind (by omega) (hcases.imp And.left And.left)]
    refine and_congr_right fun h4 => ?_
    have hleft : left t k = 0 ↔ t = 4 := by
      unfold left
      rw [if_neg (by omega)]
      omega
    rcases hcases with ⟨hv0, hr⟩ | ⟨hv0, ht, hr⟩
    · exact iff_of_true hv0 (hr.imp hleft.mp id)
    · refine iff_of_false (fun he => by rw [he] at hv0; cases hv0) ?_
      exact not_or.mpr ⟨fun he => ht (hleft.mpr he), hr⟩

/-! ### Any state, any write, any reads -/

theorem len_eq_zero {s : State} (h : (proc behind).Reachable s) : s.len = 0 := by
  refine h.invariant (I := fun s => s.len = 0) (by rintro _ rfl; rfl) ?_
  intro s a t hs _ hst
  cases a with
  | write buf count =>
    simp only [proc, write_proc] at hst
    split at hst
    · cases hst
    · split at hst
      · split at hst
        · split at hst
          · cases hst
          · cases hst
            exact hs
        · cases hst
      · cases hst
        exact hs
  | read count =>
    cases hst
    exact hs

theorem write_proc_eq_some_iff {s t : State} {buf : List UInt8} {count : ℕ} (h : hello <+: buf) :
    write_proc s buf count = some t ↔ Fits buf count ∧ t = { s with temp := count } := by
  have hlen : ¬ buf.length < 6 := not_lt.mpr h.length_le
  have htake : buf.take 6 = hello := (List.prefix_iff_eq_take.mp h).symm
  unfold write_proc
  rw [if_neg hlen, if_pos htake]
  by_cases h0 : (0 : UInt8) ∈ buf
  · rw [if_pos h0]
    by_cases hc : count > (cstr buf).length + 1
    · rw [if_pos hc]
      exact iff_of_false (by simp) fun hf => by have := hf.1.2; omega
    · rw [if_neg hc, Option.some.injEq, eq_comm]
      exact (and_iff_right ⟨h0, not_lt.mp hc⟩).symm
  · rw [if_neg h0]
    exact iff_of_false (by simp) fun hf => h0 hf.1.1

/-- **Exactly when the file answers a greeting with its answer**, after any
calls before. -/
theorem greets_iff (s : State) (h : (proc behind).Reachable s) (buf : List UInt8) (hbuf : hello <+: buf)
    (count : ℕ) (counts : List ℕ) :
    Greets behind s buf count counts ↔ Fits buf (min count MAX_RW_COUNT) ∧
      NoOverread (min count MAX_RW_COUNT) counts ∧
      (Terminated (min count MAX_RW_COUNT) counts → FourFirst (min count MAX_RW_COUNT) counts) := by
  have hlen := len_eq_zero behind h
  unfold Greets
  generalize min count MAX_RW_COUNT = c
  have hdone : (∀ w, handed (reads behind ⟨0, c⟩ counts) = some w → w = greeting) ↔
      (Terminated c counts → FourFirst c counts) := by
    rw [← handed_isSome_iff behind counts c]
    constructor
    · intro hw hs
      obtain ⟨w, hw'⟩ := Option.isSome_iff_exists.mp hs
      exact (handed_eq_greeting_iff behind hw').mp (hw w hw')
    · intro hf w hw
      exact (handed_eq_greeting_iff behind hw).mpr (hf (by rw [hw]; rfl))
  rw [← noOverread_iff behind counts c, ← hdone]
  constructor
  · rintro ⟨t, ht, hr⟩
    obtain ⟨hfits, rfl⟩ := (write_proc_eq_some_iff hbuf).mp ht
    rw [hlen] at hr
    exact ⟨hfits, hr⟩
  · rintro ⟨hfits, hr⟩
    refine ⟨_, (write_proc_eq_some_iff hbuf).mpr ⟨hfits, rfl⟩, ?_⟩
    rw [hlen]
    exact hr

/-- A terminated greeting. -/
def helloNul : List UInt8 := hello ++ [0]

theorem greets_iff_init : (proc fun _ => 0).Reachable ⟨0, 0⟩ ∧ hello <+: helloNul ∧
    (Greets (fun _ => 0) ⟨0, 0⟩ helloNul 6 [4, 0, 4] ↔ Fits helloNul (min 6 MAX_RW_COUNT) ∧
      NoOverread (min 6 MAX_RW_COUNT) [4, 0, 4] ∧
      (Terminated (min 6 MAX_RW_COUNT) [4, 0, 4] → FourFirst (min 6 MAX_RW_COUNT) [4, 0, 4])) :=
  ⟨.init rfl, ⟨[0], rfl⟩, greets_iff (fun _ => 0) ⟨0, 0⟩ (.init rfl) helloNul ⟨[0], rfl⟩ 6 [4, 0, 4]⟩

/-- One large read gets six bytes, of which the answer has five. -/
theorem greets_largeRead : ¬ ∀ (behind : ℕ → UInt8) (s : State), (proc behind).Reachable s →
    ∀ buf : List UInt8, hello <+: buf → ∀ (count : ℕ) (counts : List ℕ), Greets behind s buf count counts := by
  intro h
  obtain ⟨t, ht, hr, -⟩ := h (fun _ => 0) ⟨0, 0⟩ (.init rfl) helloNul ⟨[0], rfl⟩ 6 [100]
  cases ht
  exact absurd (hr _ List.mem_cons_self) (by decide)

end Proc
end Autumn
