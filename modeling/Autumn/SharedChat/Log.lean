/-
# The log of the shared-memory chat (`chat 2/client.c`, `chat 2/server.c`)

A client that sends a message formats the entry in its own `buf`, maps the
segment `chat` over the length of the entry, and appends it there with
`strcat`. The server has made the segment `size` bytes long and the mapping is
rounded up to whole pages, so every client can write all of it; but nothing
looks at what is there already. The log holds all entries, in order, as long
as these, and the NUL, fit the segment, and not for one more message.

An access outside an array or a mapping, or a string without its NUL, is
`none`.

Key definitions: `entry`, `mapped`, `send_message`, `send_messages`, `Keeps`.
Key theorems: `send_message_eq_some`, `send_message_isSome`,
`send_messages_eq_some`, `send_messages_isSome`, `keeps_iff_room`.
-/
import Autumn.Lib.CString

namespace Autumn
namespace SharedChat

/-- `int size = 4096;` in the server's `chat`. -/
abbrev chat_size : ℕ := 4096

/-- `PAGE_SIZE` -/
def page : ℕ := 4096

/-- How many bytes can be reached after an `mmap` of `len` bytes. -/
def mapped (len : ℕ) : ℕ := (len + (page - 1)) / page * page

/-- `"[%s]: %s\n"` -/
def entry (name message : List UInt8) : List UInt8 := [91] ++ name ++ [93, 58, 32] ++ message ++ [10]

/-- A call of `send_message`: whose, what is typed, and what the two local
arrays hold before. -/
structure Sending where
  name : List UInt8
  typed : List UInt8
  message : Buf UInt8 128
  buf : Buf UInt8 158
  deriving DecidableEq

/-- The entry that is owed to the log. -/
def Sending.line (c : Sending) : List UInt8 := entry c.name c.typed

/-- What the program lets a user type: a name for `name[25]`, and a message for
`message[128]`. -/
structure Sending.Valid (c : Sending) : Prop where
  name_le : c.name.length ≤ 24
  typed_le : c.typed.length ≤ 127
  name_nz : (0 : UInt8) ∉ c.name
  typed_nz : (0 : UInt8) ∉ c.typed

/-- `send_message` -/
def send_message (addr : Buf UInt8 chat_size) (c : Sending) : Option (Buf UInt8 chat_size) := do
  let message ← c.message.put c.typed
  let buf ← c.buf.put (entry c.name message.str)
  let len := buf.str.length
  let addr ← addr.strcat buf.chars
  guard (addr.str.length < mapped len)
  return addr

/-- The messages of all clients, one after another, from the new segment on. -/
def send_messages (calls : List Sending) : Option (Buf UInt8 chat_size) :=
  calls.foldlM send_message (Buf.zeros UInt8 chat_size)

/-- After each call the segment holds all entries so far as a string, and each
entry fits the array it is formatted in. -/
def Keeps (calls : List Sending) : Prop :=
  (∀ p, p <+: calls → ∃ addr, send_messages p = some addr ∧ addr.Term ∧ addr.str = p.flatMap Sending.line) ∧
    ∀ c ∈ calls, c.line.length < 158

/-! ### One message -/

theorem length_line (c : Sending) : c.line.length = c.name.length + c.typed.length + 5 := by
  simp only [Sending.line, entry, List.length_append, List.length_cons, List.length_nil]
  omega

theorem Sending.Valid.length_line_lt {c : Sending} (h : c.Valid) : c.line.length < 158 := by
  have h1 := h.name_le
  have h2 := h.typed_le
  rw [length_line]
  omega

theorem Sending.Valid.line_nz {c : Sending} (h : c.Valid) : (0 : UInt8) ∉ c.line := by
  have h1 := h.name_nz
  have h2 := h.typed_nz
  simp [Sending.line, entry, h1, h2]

theorem le_mapped {len : ℕ} (h : 0 < len) : chat_size ≤ mapped len := by
  unfold mapped page chat_size
  omega

/-- The formatted entry, as `strcat` gets it. -/
theorem Sending.Valid.formatted {c : Sending} (h : c.Valid) : ∃ message buf, c.message.put c.typed = some message ∧
    c.buf.put (entry c.name message.str) = some buf ∧ buf.str = c.line ∧ buf.Term := by
  obtain ⟨message, hm, hms, -⟩ := c.message.put_spec h.typed_nz (Nat.lt_succ_of_le h.typed_le)
  obtain ⟨buf, hb, hbs, hbt⟩ := c.buf.put_spec h.line_nz h.length_line_lt
  exact ⟨message, buf, hm, by rw [hms]; exact hb, hbs, hbt⟩

theorem send_message_eq (addr : Buf UInt8 chat_size) {c : Sending} (h : c.Valid) :
    ∃ buf : Buf UInt8 158, buf.str = c.line ∧ buf.Term ∧ send_message addr c = addr.strcat buf.chars := by
  obtain ⟨message, buf, hm, hb, hbs, hbt⟩ := h.formatted
  refine ⟨buf, hbs, hbt, ?_⟩
  have hlen : 0 < buf.str.length := by
    rw [hbs, length_line]
    omega
  simp only [send_message, hm, hb, Option.bind_eq_bind, Option.bind_some]
  cases hcat : addr.strcat buf.chars with
  | none => rfl
  | some addr' =>
    have hin : addr'.str.length < mapped buf.str.length :=
      (Buf.strcat_eq_some hcat).2.2.length_lt.trans_le (le_mapped hlen)
    simp [guard, hin]

/-- **A message** that stays inside the segment is appended to the log. -/
theorem send_message_eq_some {addr addr' : Buf UInt8 chat_size} {c : Sending} (hc : c.Valid)
    (h : send_message addr c = some addr') : addr'.str = addr.str ++ c.line ∧ addr'.Term := by
  obtain ⟨buf, hbs, -, hcall⟩ := send_message_eq addr hc
  rw [hcall] at h
  obtain ⟨-, hs, ht⟩ := Buf.strcat_eq_some h
  exact ⟨by rw [hs, ← Buf.str, hbs], ht⟩

theorem send_message_isSome {addr : Buf UInt8 chat_size} {c : Sending} (ht : addr.Term) (hc : c.Valid) :
    (∃ addr', send_message addr c = some addr') ↔ addr.str.length + c.line.length < chat_size := by
  obtain ⟨buf, hbs, hbt, hcall⟩ := send_message_eq addr hc
  rw [hcall]
  constructor
  · rintro ⟨addr', h⟩
    have hlen := (Buf.strcat_eq_some h).1
    rwa [← Buf.str, hbs] at hlen
  · intro h
    rw [← hbs] at h
    obtain ⟨addr', h', -⟩ := addr.strcat_spec buf.chars ht hbt h
    exact ⟨addr', h'⟩

/-! ### All messages -/

theorem send_messages_concat (calls : List Sending) (c : Sending) :
    send_messages (calls ++ [c]) = (send_messages calls).bind fun addr => send_message addr c := by
  simp [send_messages, List.foldlM_append]

theorem send_messages_eq_some {calls : List Sending} (hv : ∀ c ∈ calls, c.Valid) {addr : Buf UInt8 chat_size}
    (h : send_messages calls = some addr) : addr.str = calls.flatMap Sending.line ∧ addr.Term := by
  induction calls using List.reverseRecOn generalizing addr with
  | nil =>
    cases h
    exact ⟨Buf.str_zeros, Buf.term_zeros (by decide)⟩
  | append_singleton calls c ih =>
    rw [send_messages_concat] at h
    obtain ⟨before, h1, h2⟩ := Option.bind_eq_some_iff.mp h
    obtain ⟨hs, -⟩ := ih (fun c' hc' => hv c' (List.mem_append_left _ hc')) h1
    obtain ⟨hs', ht'⟩ := send_message_eq_some (hv c (by simp)) h2
    exact ⟨by rw [hs', hs, List.flatMap_append, List.flatMap_singleton], ht'⟩

theorem send_messages_isSome {calls : List Sending} (hv : ∀ c ∈ calls, c.Valid) :
    (∃ addr, send_messages calls = some addr) ↔ (calls.flatMap Sending.line).length < chat_size := by
  constructor
  · rintro ⟨addr, h⟩
    obtain ⟨hs, ht⟩ := send_messages_eq_some hv h
    exact hs ▸ ht.length_lt
  · induction calls using List.reverseRecOn with
    | nil => exact fun _ => ⟨_, rfl⟩
    | append_singleton calls c ih =>
      intro hlen
      rw [List.flatMap_append, List.flatMap_singleton, List.length_append] at hlen
      have hv' : ∀ c' ∈ calls, c'.Valid := fun c' hc' => hv c' (List.mem_append_left _ hc')
      obtain ⟨before, h1⟩ := ih hv' (by omega)
      obtain ⟨hs, ht⟩ := send_messages_eq_some hv' h1
      obtain ⟨after, h2⟩ := (send_message_isSome ht (hv c (by simp))).mpr (by rw [hs]; exact hlen)
      exact ⟨after, by rw [send_messages_concat, h1]; exact h2⟩

/-- **The log keeps every message** exactly if all of them, with the NUL, fit the
segment. -/
theorem keeps_iff_room {calls : List Sending} (hv : ∀ c ∈ calls, c.Valid) :
    Keeps calls ↔ (calls.flatMap Sending.line).length < chat_size := by
  constructor
  · rintro ⟨h, -⟩
    obtain ⟨addr, hrun, -⟩ := h calls (List.prefix_refl calls)
    exact (send_messages_isSome hv).mp ⟨addr, hrun⟩
  · refine fun hroom => ⟨fun p hp => ?_, fun c hc => (hv c hc).length_line_lt⟩
    have hvp : ∀ c ∈ p, c.Valid := fun c hc => hv c (hp.subset hc)
    obtain ⟨rest, rfl⟩ := hp
    rw [List.flatMap_append, List.length_append] at hroom
    obtain ⟨addr, hrun⟩ := (send_messages_isSome hvp).mpr (by omega)
    obtain ⟨hs, ht⟩ := send_messages_eq_some hvp hrun
    exact ⟨addr, hrun, ht, hs⟩

/-- A message as long as its array allows, by `a`. -/
def longest : Sending := ⟨[97], List.replicate 127 98, Buf.zeros UInt8 128, Buf.zeros UInt8 158⟩

theorem valid_longest : longest.Valid where
  name_le := by decide
  typed_le := List.length_replicate.le
  name_nz := by decide
  typed_nz := fun h => absurd (List.eq_of_mem_replicate h) (by decide)

theorem length_longest : longest.line.length = 133 := by
  rw [length_line, longest, List.length_replicate]
  rfl

/-- Two such messages are kept. -/
theorem keeps_twoMessages : Keeps [longest, longest] ↔ ([longest, longest].flatMap Sending.line).length < chat_size :=
  keeps_iff_room fun c hc => by
    rw [show c = longest by simpa using hc]
    exact valid_longest

/-- **The thirty-first of them** is written behind the segment. -/
theorem not_keeps_thirtyOne : ¬ Keeps (List.replicate 31 longest) := by
  rintro ⟨h, -⟩
  obtain ⟨addr, -, ht, hs⟩ := h _ (List.prefix_refl _)
  have hlt := ht.length_lt
  rw [hs, List.length_flatMap, List.map_replicate, List.sum_replicate_nat, length_longest] at hlt
  exact absurd hlt (by decide)

end SharedChat
end Autumn
