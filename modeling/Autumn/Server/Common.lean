/-
# What the socket servers share (`server models/1` and `server models/3`)

A worker serves a connection with three calls on its descriptor: `recv` into
its 128-byte buffer, `send` of the whole buffer, in which the received bytes
are now upper case, and `close`. Every call is recorded with what its
descriptor referred to when it was made. `Script` is what a connection is
owed: the three calls once each, in order, all by one worker on one descriptor
value.

Key definitions: `Desc`, `Event`, `look`, `receive`, `calls`, `script`.
Key theorems: `look_put`, `look_shut`, `receive_spec`, `calls_concat`, `calls_concat_script`.
-/
import Mathlib.Data.Int.Order.Basic
import Autumn.Lib.CString
import Autumn.Lib.Fds

namespace Autumn
namespace Server

/-- What a descriptor of the server process is open for. `conn k` is the
`k`-th connection accepted. -/
inductive Desc
  | std
  | queue
  | listener
  | conn (k : ℕ)
  deriving DecidableEq, Repr

/-- What `fd` refers to: a C `int`, so possibly no descriptor at all. -/
def look (t : Fds Desc) (fd : ℤ) : Option Desc := if 0 ≤ fd then t fd.toNat else none

/-- `close(fd)`. -/
def shut (t : Fds Desc) (fd : ℤ) : Fds Desc := if 0 ≤ fd then t.close fd.toNat else t

@[simp] theorem look_natCast (t : Fds Desc) (n : ℕ) : look t n = t n := by
  simp [look]

theorem look_put (t : Fds Desc) (n : ℕ) (d : Desc) (fd : ℤ) :
    look (t.put n d) fd = if fd = n then some d else look t fd := by
  unfold look
  by_cases h0 : 0 ≤ fd
  · obtain ⟨m, rfl⟩ := Int.eq_ofNat_of_zero_le h0
    simp [Fds.put]
  · rw [if_neg h0, if_neg (by omega), if_neg h0]

theorem look_shut (t : Fds Desc) (fd fd' : ℤ) :
    look (shut t fd) fd' = if fd' = fd then none else look t fd' := by
  unfold look shut
  by_cases h0 : 0 ≤ fd'
  · by_cases h1 : 0 ≤ fd
    · obtain ⟨m, rfl⟩ := Int.eq_ofNat_of_zero_le h0
      obtain ⟨n, rfl⟩ := Int.eq_ofNat_of_zero_le h1
      simp [Fds.close]
    · rw [if_neg h1, if_neg (show fd' ≠ fd by omega)]
  · simp [h0]

theorem look_put_of_look {t : Fds Desc} {n : ℕ} (hfree : t n = none) (d : Desc) {fd : ℤ} {d' : Desc}
    (h : look t fd = some d') : look (t.put n d) fd = some d' := by
  rw [look_put, if_neg, h]
  rintro rfl
  rw [look_natCast, hfree] at h
  cases h

/-! ### The calls -/

inductive Call
  | recv
  | send
  | close
  deriving DecidableEq, Repr

/-- A call of a worker: on which descriptor, what it referred to, and the bytes
received or sent. -/
structure Event (W : Type) where
  worker : W
  call : Call
  fd : ℤ
  on : Option Desc
  bytes : List UInt8
  deriving DecidableEq, Repr

/-- `SIZE` -/
abbrev bufSize : ℕ := 128

/-- `toupper((unsigned char) c)` in the C locale. -/
def toupper (c : UInt8) : UInt8 := if 97 ≤ c ∧ c ≤ 122 then c - 32 else c

/-- `for(int i = 0; i < numBytes; i++) buf[i] = toupper((unsigned char) buf[i]);` -/
def upper (buf : List UInt8) (numBytes : ℕ) : List UInt8 :=
  (List.range numBytes).foldl (fun buf i => buf.modify i toupper) buf

@[simp] theorem length_upper (buf : List UInt8) (numBytes : ℕ) :
    (upper buf numBytes).length = buf.length := by
  induction numBytes with
  | zero => rfl
  | succ n ih =>
    rw [upper, List.range_succ, List.foldl_append, List.foldl_cons, List.foldl_nil, List.length_modify]
    exact ih

/-- `numBytes = recv(..., buf, SIZE, 0)` with the loop after it: `data` is what
arrived, at most `SIZE` bytes; after an error or at the end of the stream it is
empty, and the loop does nothing. -/
def receive (buf : Buf UInt8 bufSize) (data : List UInt8) : Option (Buf UInt8 bufSize) :=
  (buf.store 0 data).map fun b => ⟨upper b.chars data.length, by simp⟩

theorem receive_nil (buf : Buf UInt8 bufSize) : receive buf [] = some buf := by
  have h : buf.store 0 [] = some buf := Buf.store_spec.mpr ⟨by simp, by simp⟩
  rw [receive, h]
  rfl

theorem toupper_eq_zero_iff (c : UInt8) : toupper c = 0 ↔ c = 0 := by
  unfold toupper
  split
  · rename_i h
    have hle : (32 : UInt8) ≤ c := UInt8.le_trans (by decide) h.1
    have h97 : 97 ≤ c.toNat := UInt8.le_iff_toNat_le.mp h.1
    have hsub : (c - 32).toNat = c.toNat - 32 := UInt8.toNat_sub_of_le c 32 hle
    rw [← UInt8.toNat_inj, ← UInt8.toNat_inj, hsub, UInt8.toNat_zero]
    omega
  · exact Iff.rfl

/-- The loop over the bytes received makes these upper case. -/
theorem upper_append (r : List UInt8) (data : List UInt8) : upper (data ++ r) data.length = data.map toupper ++ r := by
  induction data using List.reverseRecOn generalizing r with
  | nil => rfl
  | append_singleton data c ih =>
    have hlast : upper (data ++ [c] ++ r) (data ++ [c]).length =
        (upper (data ++ c :: r) data.length).modify data.length toupper := by
      rw [upper, List.length_append, List.length_singleton, List.range_succ, List.foldl_append, ← upper]
      simp
    have hdrop : (data.map toupper ++ c :: r).drop (data.length + 1) = r := by
      simp [List.drop_append]
    rw [hlast, ih, List.modify_eq_take_cons_drop (by simp), hdrop]
    simp

/-- **What is received** is stored in upper case, and what was behind it stays. -/
theorem receive_spec (buf : Buf UInt8 bufSize) {data : List UInt8} (h : data.length ≤ bufSize) :
    ∃ b, receive buf data = some b ∧ b.chars = data.map toupper ++ buf.chars.drop data.length := by
  obtain ⟨b, hb, hc⟩ := buf.exists_store 0 data (by omega)
  rw [List.take_zero, List.nil_append, Nat.zero_add] at hc
  refine ⟨⟨upper b.chars data.length, by simp⟩, by rw [receive, hb]; rfl, ?_⟩
  show upper b.chars data.length = _
  rw [hc]
  exact upper_append _ data

theorem getElem?_of_prefix {α : Type*} {l l' : List α} (h : l <+: l') {k : ℕ} {x : α} (hx : l[k]? = some x) :
    l'[k]? = some x := by
  obtain ⟨hk, rfl⟩ := List.getElem?_eq_some_iff.mp hx
  exact List.prefix_iff_getElem?.mp h k hk

section Log

variable {W : Type}

/-- The calls made on connection `k`: who made them, and on which descriptor
value. -/
def calls (log : List (Event W)) (k : ℕ) : List (W × Call × ℤ) :=
  (log.filter fun e => e.on = some (.conn k)).map fun e => (e.worker, e.call, e.fd)

/-- All that happens to a connection that worker `w` serves through `fd`. -/
def script (w : W) (fd : ℤ) : List (W × Call × ℤ) := [(w, .recv, fd), (w, .send, fd), (w, .close, fd)]

@[simp] theorem calls_nil (k : ℕ) : calls ([] : List (Event W)) k = [] := rfl

theorem calls_concat (log : List (Event W)) (e : Event W) (k : ℕ) :
    calls (log ++ [e]) k =
      if e.on = some (.conn k) then calls log k ++ [(e.worker, e.call, e.fd)] else calls log k := by
  unfold calls
  by_cases h : e.on = some (.conn k)
  · simp [List.filter_append, h]
  · simp [List.filter_append, h]

theorem calls_concat_of_ne {log : List (Event W)} {e : Event W} {j k : ℕ} (h : e.on = some (.conn j))
    (hne : j ≠ k) : calls (log ++ [e]) k = calls log k := by
  rw [calls_concat, if_neg (by rw [h]; simpa using hne)]

theorem calls_concat_script {log : List (Event W)} {w : W} {fd : ℤ} {k n : ℕ} {c : Call}
    (bytes : List UInt8) (h : calls log k = (script w fd).take n) (hc : (script w fd)[n]? = some (w, c, fd)) :
    calls (log ++ [⟨w, c, fd, some (.conn k), bytes⟩]) k = (script w fd).take (n + 1) := by
  rw [calls_concat, if_pos rfl, h, List.take_add_one, hc]
  rfl

end Log

end Server
end Autumn
