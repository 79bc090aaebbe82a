/-
# The character device's buffer (`ioctl/RW_module.c`)

`my_write` clears all 80 bytes of `msg_buff` before it looks at the length and
before it copies. So it leaves the bytes outside the range it writes as they
were exactly if they were zero already; a write that fails writes no range, and
wipes the whole buffer (`my_write_fileLike_iff`).

The user's memory is the list of the bytes that can be read from the pointer
on, or the number of those that can be written: an access behind them faults.

Key definitions: `my_write`, `my_read`, `rw_module`, `FileLike`, `ZeroOutside`.
Key theorems: `my_write_cases`, `my_write_fileLike_iff`,
`fileLike_iff_zeroOutside`.
-/
import Autumn.Lib.System
import Autumn.Lib.CString

namespace Autumn
namespace RWModule

/-! ### The kernel's helpers -/

/-- `msg_buff`. -/
abbrev Msg := Fin 80 → UInt8

def EINVAL : ℤ := 22

def EFAULT : ℤ := 14

/-- What a call leaves behind: the value it returns, the buffer, the offset. -/
structure Result where
  ret : ℤ
  msg : Msg
  off : ℕ

/-- `copy_from_user(dst + pos, src, n)`: what cannot be read becomes zero; the
second value is how many bytes that is. -/
def copy_from_user (dst : Msg) (pos : ℕ) (src : List UInt8) (n : ℕ) : Msg × ℕ :=
  (fun i => if pos ≤ i.val ∧ i.val < pos + n then src.getD (i.val - pos) 0 else dst i, n - src.length)

/-- The offset starts at 0 and never decreases: it is not negative. -/
def simple_write_to_buffer (dst : Msg) (pos : ℕ) (src : List UInt8) (count : ℕ) : Result :=
  if pos ≥ 80 ∨ count = 0 then ⟨0, dst, pos⟩
  else
    let count := if count > 80 - pos then 80 - pos else count
    let (dst, res) := copy_from_user dst pos src count
    if res = count then ⟨-EFAULT, dst, pos⟩ else ⟨(count - res : ℕ), dst, pos + (count - res)⟩

/-- `room` bytes of the user's buffer can be written. The last value is what is
copied there. -/
def simple_read_from_buffer (room : ℕ) (count : ℕ) (pos : ℕ) (src : Msg) : Result × List UInt8 :=
  if pos ≥ 80 ∨ count = 0 then (⟨0, src, pos⟩, [])
  else
    let count := if count > 80 - pos then 80 - pos else count
    let ret := count - room
    let copied := ((List.ofFn src).drop pos).take (count - ret)
    if ret = count then (⟨-EFAULT, src, pos⟩, copied)
    else (⟨(count - ret : ℕ), src, pos + (count - ret)⟩, copied)

/-! ### The program -/

def my_read (msg : Msg) (off : ℕ) (room length : ℕ) : Result × List UInt8 :=
  simple_read_from_buffer room length off msg

def my_write (_msg : Msg) (off : ℕ) (user : List UInt8) (len : ℕ) : Result :=
  -- `memset(msg_buff, 0, 80)`
  let msg : Msg := fun _ => 0
  if len > 80 then ⟨-EINVAL, msg, off⟩
  else
    let r := simple_write_to_buffer msg off user len
    if r.ret = 0 then { r with ret := -EFAULT } else r

structure State where
  msg : Msg
  off : ℕ

inductive Call
  | write (user : List UInt8) (len : ℕ)
  | read (room length : ℕ)
  deriving DecidableEq, Repr

def step (s : State) : Call → Option State
  | .write user len => some ⟨(my_write s.msg s.off user len).msg, (my_write s.msg s.off user len).off⟩
  | .read room length =>
    some ⟨(my_read s.msg s.off room length).1.msg, (my_read s.msg s.off room length).1.off⟩

/-- The calls through one descriptor, whatever the buffer holds when it is
opened. -/
def rw_module : System State Call where
  init s := s.off = 0
  step := step

/-- What is claimed of a write: it changes the bytes it returns, from the
offset on, to the user's, and no others; and with an error it changes none. -/
structure Written (s : State) (user : List UInt8) (r : Result) : Prop where
  success : 0 ≤ r.ret → r.ret.toNat ≤ user.length ∧ ∀ i : Fin 80,
    r.msg i = if s.off ≤ i.val ∧ i.val < s.off + r.ret.toNat then user.getD (i.val - s.off) 0 else s.msg i
  error : r.ret < 0 → r.msg = s.msg

/-- What is claimed of a call; a read changes nothing. -/
def FileLike (s : State) : Call → Prop
  | .write user len => Written s user (my_write s.msg s.off user len)
  | .read room length => (my_read s.msg s.off room length).1.msg = s.msg

/-- The bytes a write can transfer at an offset: those asked for, that the
buffer has room for and that can be read, and none of more than 80. -/
def transfers (off : ℕ) (user : List UInt8) (len : ℕ) : ℕ :=
  if len > 80 then 0 else min (min len (80 - off)) user.length

/-- Outside the range to be written the buffer is zero. -/
def ZeroOutside (s : State) : Call → Prop
  | .write user len =>
    ∀ i : Fin 80, ¬ (s.off ≤ i.val ∧ i.val < s.off + transfers s.off user len) → s.msg i = 0
  | .read _ _ => True

/-! ### One call -/

theorem transfers_le (off : ℕ) (user : List UInt8) (len : ℕ) : transfers off user len ≤ user.length := by
  unfold transfers
  split
  · exact Nat.zero_le _
  · exact min_le_right _ _

theorem copy_from_user_zeros (off : ℕ) (user : List UInt8) (n : ℕ) (i : Fin 80) :
    (copy_from_user (fun _ => 0) off user n).1 i =
      if off ≤ i.val ∧ i.val < off + min n user.length then user.getD (i.val - off) 0 else 0 := by
  unfold copy_from_user
  by_cases hi : off ≤ i.val ∧ i.val < off + min n user.length
  · rw [if_pos hi]
    exact if_pos (by omega)
  · rw [if_neg hi]
    dsimp only
    split
    · rw [List.getD_eq_getElem?_getD, List.getElem?_eq_none (by omega), Option.getD_none]
    · rfl

theorem simple_write_of_room {off len : ℕ} (h : ¬ (off ≥ 80 ∨ len = 0)) (msg : Msg) (user : List UInt8) :
    simple_write_to_buffer msg off user len =
      if min (min len (80 - off)) user.length = 0 then
        ⟨-EFAULT, (copy_from_user msg off user (min len (80 - off))).1, off⟩
      else
        ⟨(min (min len (80 - off)) user.length : ℕ), (copy_from_user msg off user (min len (80 - off))).1,
          off + min (min len (80 - off)) user.length⟩ := by
  have hcount : (if len > 80 - off then 80 - off else len) = min len (80 - off) := by split <;> omega
  unfold simple_write_to_buffer
  simp only [if_neg h, hcount]
  generalize hn : min len (80 - off) = n
  have hres : (copy_from_user msg off user n).2 = n - user.length := rfl
  have hiff : n - user.length = n ↔ min n user.length = 0 := by omega
  have hsub : n - (n - user.length) = min n user.length := by omega
  simp only [hres, hiff, hsub]

/-- What a write does: it fails, or transfers its bytes; every other byte is
zero afterwards. -/
theorem my_write_cases (msg : Msg) (off : ℕ) (user : List UInt8) (len : ℕ) :
    (my_write msg off user len).ret =
        (if len > 80 then -EINVAL
          else if transfers off user len = 0 then -EFAULT else (transfers off user len : ℤ)) ∧
      ∀ i : Fin 80, (my_write msg off user len).msg i =
        if off ≤ i.val ∧ i.val < off + transfers off user len then user.getD (i.val - off) 0 else 0 := by
  unfold my_write transfers
  by_cases hlen : len > 80
  · simp only [if_pos hlen]
    exact ⟨trivial, fun i => by rw [if_neg (by omega)]⟩
  simp only [if_neg hlen]
  by_cases h0 : off ≥ 80 ∨ len = 0
  · have hk : min (min len (80 - off)) user.length = 0 := by omega
    unfold simple_write_to_buffer
    rw [if_pos h0, if_pos rfl, hk, if_pos rfl]
    exact ⟨rfl, fun i => by rw [if_neg (by omega)]⟩
  have hcopy := copy_from_user_zeros off user (min len (80 - off))
  rw [simple_write_of_room h0]
  by_cases hk : min (min len (80 - off)) user.length = 0
  · rw [if_pos hk, if_pos hk]
    exact ⟨rfl, hcopy⟩
  · have hret : ((min (min len (80 - off)) user.length : ℕ) : ℤ) ≠ 0 := Int.natCast_ne_zero.mpr hk
    rw [if_neg hk, if_neg hk, if_neg hret]
    exact ⟨rfl, hcopy⟩

/-- **A write leaves the other bytes alone exactly if they are zero.** -/
theorem my_write_fileLike_iff (s : State) (user : List UInt8) (len : ℕ) :
    FileLike s (.write user len) ↔ ZeroOutside s (.write user len) := by
  obtain ⟨hret, hmsg⟩ := my_write_cases s.msg s.off user len
  by_cases hk : transfers s.off user len = 0
  · have hneg : (my_write s.msg s.off user len).ret < 0 := by
      rw [hret, if_pos hk]
      split <;> decide
    have hzero : (my_write s.msg s.off user len).msg = fun _ => 0 := by
      funext i
      rw [hmsg, if_neg (by omega)]
    constructor
    · intro h i _
      rw [← h.error hneg, hzero]
    · intro h
      refine ⟨fun h0 => absurd hneg (by omega), fun _ => ?_⟩
      funext i
      rw [hzero, h i (by omega)]
  · have hlen : ¬ len > 80 := fun hl => hk (if_pos hl)
    rw [if_neg hlen, if_neg hk] at hret
    constructor
    · intro h i hi
      have hs := (h.success (by omega)).2 i
      rw [hmsg, if_neg hi, hret, Int.toNat_natCast, if_neg hi] at hs
      exact hs.symm
    · intro h
      refine ⟨fun _ => ⟨?_, fun i => ?_⟩, fun hlt => by omega⟩
      · rw [hret, Int.toNat_natCast]
        exact transfers_le _ _ _
      rw [hmsg, hret, Int.toNat_natCast]
      by_cases hi : s.off ≤ i.val ∧ i.val < s.off + transfers s.off user len
      · rw [if_pos hi, if_pos hi]
      · rw [if_neg hi, if_neg hi, h i hi]

theorem my_read_msg (msg : Msg) (off room length : ℕ) : (my_read msg off room length).1.msg = msg := by
  unfold my_read simple_read_from_buffer
  split
  · rfl
  · dsimp only
    generalize (if length > 80 - off then 80 - off else length) = count
    split
    · rfl
    · rfl

theorem call_fileLike_iff (s : State) (c : Call) : FileLike s c ↔ ZeroOutside s c := by
  cases c with
  | write user len => exact my_write_fileLike_iff s user len
  | read room length => exact iff_of_true (my_read_msg _ _ _ _) trivial

/-! ### Whole runs -/

/-- **A run behaves like a file exactly if every write in it finds zeros outside
the range it writes.** -/
theorem fileLike_iff_zeroOutside (msg : Msg) (calls : List Call) :
    rw_module.Meets FileLike ⟨msg, 0⟩ calls ↔ rw_module.Meets ZeroOutside ⟨msg, 0⟩ calls :=
  System.meets_congr call_fileLike_iff _ calls

/-- A byte is written, and another one behind it. -/
def writeTwice : List Call := [.write [97] 1, .write [98] 1]

theorem fileLike_writeTwice :
    ¬ ∀ (msg : Msg) (calls : List Call), rw_module.Meets FileLike ⟨msg, 0⟩ calls := by
  intro h
  have h2 := (h (fun _ => 0) writeTwice).2.1
  have h0 := (my_write_fileLike_iff _ _ _).mp h2 0 (by decide)
  exact absurd h0 (by decide)

end RWModule
end Autumn
