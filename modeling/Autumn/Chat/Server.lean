/-
# The functions of the chat server (`chat/server.c`)

`get_name` and `get_message` are one loop over two queues: a message is
received over what the buffer held before, the string there is copied with a
newline to a line, and the line is appended to a text. The buffer is cleared
before the loop only, so behind a message shorter than the one before it the
rest of that one is read too (`received`).

`delete_name` cuts the list into its lines and writes back those that differ
from the one departure it may have received: the departed name goes wherever
it occurs.

An access outside an array, or a string without its NUL, is `none`.

Key definitions: `received`, `append_line`, `users_number`, `delete_name`, `kept`.
Key theorems: `append_line_eq_some`, `append_line_spec`, `append_line_isSome`,
`received_eq`, `delete_name_iff`, `delete_name_spec`.
-/
import Autumn.Lib.Lines

namespace Autumn
namespace Chat

/-- `'\n'` -/
abbrev newline : UInt8 := 10

/-- The string that is in the buffer once `m` has been received into it. -/
def received {n : ℕ} (buf : Buf UInt8 n) (m : List UInt8) : List UInt8 :=
  cstr (m ++ buf.chars.drop m.length)

/-- The body of the loop of `get_name` and of `get_message`:
`mq_receive(queue, buf, ...); sprintf(line, "%s\n", buf);
strncat(text, line, strlen(line));`. -/
def append_line {n p q : ℕ} (buf : Buf UInt8 n) (line : Buf UInt8 p) (text : Buf UInt8 q)
    (m : List UInt8) : Option (Buf UInt8 n × Buf UInt8 p × Buf UInt8 q) := do
  let buf ← buf.store 0 m
  guard buf.Term
  let line ← line.put (buf.str ++ [newline])
  let text ← text.strncat line.chars line.str.length
  return (buf, line, text)

/-- Where `append_line` stays inside its three arrays. -/
def Fits {n q : ℕ} (buf : Buf UInt8 n) (p : ℕ) (text : Buf UInt8 q) (m : List UInt8) : Prop :=
  m.length ≤ n ∧ (received buf m).length < n ∧ (received buf m).length + 1 < p ∧
    text.str.length + (received buf m).length + 1 < q

instance {n q : ℕ} (buf : Buf UInt8 n) (p : ℕ) (text : Buf UInt8 q) (m : List UInt8) :
    Decidable (Fits buf p text m) := inferInstanceAs (Decidable (_ ∧ _))

/-- `users_number` -/
def users_number (name_list : Buf UInt8 4096) : ℕ :=
  (List.range (name_list.str.length + 1)).foldl
    (fun count i => if name_list.chars[i]? = some newline then count + 1 else count) 0

/-- A turn of the loop of `delete_name`, on the token at `ptr`. -/
def keep_name (name : Buf UInt8 20) (name_list : Buf UInt8 4096) (ptr : List UInt8) :
    Option (Buf UInt8 4096) :=
  if strcmpEq name.chars ptr then some name_list
  else (name_list.strncat (ptr ++ [0]) ptr.length).bind fun name_list => name_list.strcat [newline, 0]

/-- `delete_name`, with the departure that `mq_receive` finds, if any. -/
def delete_name (name_list : Buf UInt8 4096) (departure : Option (List UInt8)) : Option (Buf UInt8 4096) := do
  let buf ← (Buf.zeros UInt8 4096).strcpy 0 name_list.chars
  let name ← (Buf.zeros UInt8 20).store 0 (departure.getD [])
  guard name.Term
  (tokens (· == newline) (4096 + 1) (Strtok.start buf.chars)).1.foldlM (keep_name name) (Buf.zeros UInt8 4096)

/-! ### Receiving -/

theorem received_nz {n : ℕ} (buf : Buf UInt8 n) (m : List UInt8) : (0 : UInt8) ∉ received buf m :=
  zero_not_mem_cstr _

theorem received_line_nz {n : ℕ} {buf b : Buf UInt8 n} {m : List UInt8} (h : b.str = received buf m) :
    (0 : UInt8) ∉ b.str ++ [newline] := by
  rw [h, List.mem_append, List.mem_singleton]
  exact not_or.mpr ⟨received_nz buf m, by decide⟩

theorem append_line_eq_some {n p q : ℕ} {buf b : Buf UInt8 n} {line l : Buf UInt8 p}
    {text t : Buf UInt8 q} {m : List UInt8} (h : append_line buf line text m = some (b, l, t)) :
    Fits buf p text m ∧ buf.store 0 m = some b ∧
      t.str = text.str ++ received buf m ++ [newline] ∧ t.Term := by
  simp only [append_line, Option.bind_eq_bind, Option.bind_eq_some_iff] at h
  obtain ⟨b1, hb, _, hterm, l1, hl, t1, ht, heq⟩ := h
  cases heq
  obtain ⟨hm, hbc⟩ := Buf.store_spec.mp hb
  simp only [List.take_zero, List.nil_append, Nat.zero_add] at hm hbc
  have hstr : b.str = received buf m := by rw [Buf.str, hbc, received]
  have hterm : b.Term := by
    by_contra h0
    simp [guard, h0] at hterm
  obtain ⟨hline, hls, hlt⟩ := Buf.put_eq_some (received_line_nz hstr) hl
  obtain ⟨htext, hts, htt⟩ := Buf.strncat_eq_some ht
  have hwhole : (cstr l.chars).take l.str.length = received buf m ++ [newline] := by
    rw [← hstr, ← hls]
    exact List.take_length
  rw [hwhole] at htext hts
  have hlen := hterm.length_lt
  rw [hstr] at hlen hline
  simp only [List.length_append, List.length_singleton] at hline htext
  exact ⟨⟨hm, hlen, hline, by omega⟩, hb, by rw [hts, List.append_assoc], htt⟩

/-- **An iteration** that stays inside its arrays appends what it received and a
newline. -/
theorem append_line_spec {n p q : ℕ} {buf : Buf UInt8 n} (line : Buf UInt8 p) {text : Buf UInt8 q}
    {m : List UInt8} (ht : text.Term) (h : Fits buf p text m) :
    ∃ b l t, append_line buf line text m = some (b, l, t) := by
  obtain ⟨hm, hlen, hline, htext⟩ := h
  obtain ⟨b, hb, hbc⟩ := buf.exists_store 0 m (by omega)
  simp only [List.take_zero, List.nil_append, Nat.zero_add] at hbc
  have hstr : b.str = received buf m := by rw [Buf.str, hbc, received]
  have hterm : b.Term := by
    apply zero_mem_of_length_lt
    rw [show cstr b.chars = _ from hstr, b.size]
    exact hlen
  obtain ⟨l, hl, hls, hlt⟩ := line.put_spec (received_line_nz hstr)
    (by rw [hstr, List.length_append, List.length_singleton]; omega)
  have hll : l.str.length = (received buf m).length + 1 := by
    rw [hls, hstr, List.length_append, List.length_singleton]
  obtain ⟨t, htx, -⟩ : ∃ t, text.strncat l.chars l.str.length = some t ∧ _ :=
    text.strncat_spec _ ht hlt (show text.str.length + l.str.length < q by rw [hll]; omega)
  exact ⟨b, l, t, by simp [append_line, hb, hterm, hl, guard, htx]⟩

theorem append_line_isSome {n p q : ℕ} {buf : Buf UInt8 n} (line : Buf UInt8 p) {text : Buf UInt8 q}
    {m : List UInt8} : (∃ r, append_line buf line text m = some r) ↔ text.Term ∧ Fits buf p text m := by
  constructor
  · rintro ⟨⟨b, l, t⟩, h⟩
    refine ⟨?_, (append_line_eq_some h).1⟩
    simp only [append_line, Option.bind_eq_bind, Option.bind_eq_some_iff] at h
    obtain ⟨_, _, _, _, _, _, _, ht, _⟩ := h
    exact Buf.term_of_strncat ht
  · rintro ⟨ht, hf⟩
    obtain ⟨b, l, t, h⟩ := append_line_spec line ht hf
    exact ⟨_, h⟩

theorem length_received {n : ℕ} {buf : Buf UInt8 n} (hb : buf.Clean) {m : List UInt8} (hm : (0 : UInt8) ∉ m) :
    (received buf m).length = max m.length buf.str.length := by
  obtain ⟨k, hk⟩ := hb
  rw [received, cstr_append hm, hk, List.drop_append, cstr_append fun h => buf.str_nz (List.mem_of_mem_drop h),
    List.drop_replicate, cstr_replicate_zero, List.append_nil, List.length_append, List.length_drop]
  omega

theorem received_eq {n : ℕ} {buf : Buf UInt8 n} (hb : buf.Clean) {m : List UInt8} (hm : (0 : UInt8) ∉ m)
    (h : buf.str.length ≤ m.length) : received buf m = m := by
  obtain ⟨k, hk⟩ := hb.drop h
  rw [received, hk, cstr_append hm, cstr_replicate_zero, List.append_nil]

/-! ### Departures -/

theorem keep_name_eq_keepLine (name : Buf UInt8 20) : keep_name name = keepLine newline name.chars := rfl

theorem newline_ne_zero : newline ≠ 0 := by decide

/-- The lines that `delete_name` writes back. -/
def kept (name_list : Buf UInt8 4096) (departure : List UInt8) : List (List UInt8) :=
  (pieces (· == newline) name_list.str).filter fun w => w ≠ cstr departure

theorem store_departure {d : List UInt8} (hd : d.length ≤ 20) : ∃ name, (Buf.zeros UInt8 20).store 0 d = some name ∧
    (name.Term ↔ d.length < 20 ∨ (0 : UInt8) ∈ d) ∧ name.str = cstr d := by
  obtain ⟨name, hname, hc⟩ := (Buf.zeros UInt8 20).exists_store 0 d (by omega)
  rw [List.take_zero, List.nil_append, Nat.zero_add, Buf.chars_zeros, List.drop_replicate] at hc
  refine ⟨name, hname, ?_, ?_⟩
  · rw [Buf.Term, hc, List.mem_append, List.mem_replicate, or_comm]
    exact or_congr_left ⟨fun h => by omega, fun h => ⟨by omega, rfl⟩⟩
  · rw [Buf.str, hc]
    by_cases h0 : (0 : UInt8) ∈ d
    · rw [cstr_append_of_mem h0]
    · rw [cstr_append h0, cstr_replicate_zero, List.append_nil, cstr_of_zero_not_mem h0]

/-- Over a list that does not end, `delete_name` reads behind it. -/
theorem delete_name_unterminated {name_list : Buf UInt8 4096} (ht : ¬ name_list.Term)
    (departure : Option (List UInt8)) : delete_name name_list departure = none := by
  have hcpy : (Buf.zeros UInt8 4096).strcpy 0 name_list.chars = none := if_neg ht
  simp only [delete_name, hcpy, Option.bind_eq_bind, Option.bind_none]

/-- Over a list that ends, `delete_name` is the loop over its lines, if the name
received ends. -/
theorem delete_name_eq {name_list : Buf UInt8 4096} (ht : name_list.Term) {departure : Option (List UInt8)}
    {name : Buf UInt8 20} (hname : (Buf.zeros UInt8 20).store 0 (departure.getD []) = some name) :
    delete_name name_list departure = if name.Term then
      (pieces (· == newline) name_list.str).foldlM (keep_name name) (Buf.zeros UInt8 4096) else none := by
  obtain ⟨buf, hbuf, hbs, hbt⟩ := (Buf.zeros UInt8 4096).strcpy_spec ht ht.length_lt
  have htok : (tokens (· == newline) (4096 + 1) (Strtok.start buf.chars)).1 = pieces (· == newline) name_list.str := by
    rw [tokens_buf (by decide) hbt, hbs]
    rfl
  simp only [delete_name, hbuf, hname, Option.bind_eq_bind, Option.bind_some, htok, guard]
  split <;> rfl

/-- **When `delete_name` stays inside its arrays**, and what it leaves. -/
theorem delete_name_iff (name_list : Buf UInt8 4096) {departure : Option (List UInt8)}
    (hd : (departure.getD []).length ≤ 20) :
    ((∃ b', delete_name name_list departure = some b') ↔ name_list.Term ∧
      ((departure.getD []).length < 20 ∨ (0 : UInt8) ∈ departure.getD []) ∧
      (lines newline (kept name_list (departure.getD []))).length < 4096) ∧
    ∀ b', delete_name name_list departure = some b' →
      b'.str = lines newline (kept name_list (departure.getD [])) ∧ b'.Term := by
  obtain ⟨name, hname, hterm, hns⟩ := store_departure hd
  have hz : (Buf.zeros UInt8 4096).Term := Buf.term_zeros (by decide)
  have hstart : (Buf.zeros UInt8 4096).str.length = 0 := by rw [Buf.str_zeros, List.length_nil]
  have h0 : ∀ w ∈ pieces (· == newline) name_list.str, (0 : UInt8) ∉ w :=
    fun _ hw h => name_list.str_nz (mem_of_mem_pieces hw h)
  have hkept : (pieces (· == newline) name_list.str).filter (fun w => w ≠ name.str) =
      kept name_list (departure.getD []) := by rw [hns]; rfl
  have hleft : ∀ b', delete_name name_list departure = some b' → name_list.Term ∧ name.Term ∧
      b'.str = lines newline (kept name_list (departure.getD [])) ∧ b'.Term := by
    intro b' h
    have ht : name_list.Term := by
      by_contra ht
      rw [delete_name_unterminated ht] at h
      cases h
    rw [delete_name_eq ht hname, Option.ite_none_right_eq_some] at h
    rw [keep_name_eq_keepLine] at h
    obtain ⟨hs, hb⟩ := keepLines_eq_some newline_ne_zero name.chars hz h0 h.2
    rw [Buf.str_zeros, List.nil_append, ← Buf.str, hkept] at hs
    exact ⟨ht, h.1, hs, hb⟩
  refine ⟨⟨?_, ?_⟩, fun b' h => (hleft b' h).2.2⟩
  · rintro ⟨b', h⟩
    obtain ⟨ht, hn, hs, hb⟩ := hleft b' h
    exact ⟨ht, hterm.mp hn, hs ▸ hb.length_lt⟩
  · rintro ⟨ht, hn, hlen⟩
    rw [delete_name_eq ht hname, if_pos (hterm.mpr hn), keep_name_eq_keepLine]
    exact exists_keepLines newline_ne_zero name.chars hz h0 (by rw [← Buf.str, hstart, hkept]; omega)

/-- **`delete_name`** removes every line that is the departed name. -/
theorem delete_name_spec {name_list : Buf UInt8 4096} {L : List (List UInt8)} {departure : Option (List UInt8)}
    (ht : name_list.Term) (hs : name_list.str = lines newline L)
    (hL : ∀ w ∈ L, w ≠ [] ∧ newline ∉ w ∧ (0 : UInt8) ∉ w) (hd0 : (0 : UInt8) ∉ departure.getD [])
    (hd : (departure.getD []).length < 20) : ∃ b', delete_name name_list departure = some b' ∧
      b'.str = lines newline (L.filter fun w => w ≠ departure.getD []) ∧ b'.Term := by
  have hkept : kept name_list (departure.getD []) = L.filter fun w => w ≠ departure.getD [] := by
    rw [kept, hs, pieces_lines fun w hw => ⟨(hL w hw).1, (hL w hw).2.1⟩, cstr_of_zero_not_mem hd0]
  obtain ⟨hiff, hleft⟩ := delete_name_iff name_list hd.le
  have hlen : (lines newline (L.filter fun w => w ≠ departure.getD [])).length < 4096 := by
    have h1 := length_lines_filter_le newline (fun w => w ≠ departure.getD []) L
    have h2 := ht.length_lt
    rw [hs] at h2
    exact h1.trans_lt h2
  obtain ⟨b', hb'⟩ := hiff.mpr ⟨ht, .inl hd, by rw [hkept]; exact hlen⟩
  obtain ⟨hbs, hbt⟩ := hleft b' hb'
  exact ⟨b', hb', by rw [hbs, hkept], hbt⟩

end Chat
end Autumn
