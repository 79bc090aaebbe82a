/-
# One call of `get_name` and of `get_message` (`chat/server.c`)

The two loops take messages until the queue is empty. The buffer is cleared
before the loop only, so a message is followed by the rest of a longer one
before it: what is received is as long as the longest message so far. So the
messages are appended as they are exactly if no message is shorter than one
before it, and there is room for them (`drains_iff`).

That the text is longer otherwise is a count of its characters: a message may
hold newlines, so the text alone does not say where a message ends
(`drain_growing`).

Key definitions: `drain`, `Growing`, `get_name_call`, `get_message_call`.
Key theorems: `length_le_drain`, `drain_growing`, `exists_drain`, `drain_iff`,
`Receiving.drain`, `Receiving.takes_iff`, `drains_iff`.
-/
import Mathlib.Logic.Function.Iterate
import Autumn.Chat.System

namespace Autumn
namespace Chat

/-! ### The loop -/

/-- The loop of `get_name` and of `get_message` over the messages it finds. -/
def drain {n p q : ℕ} : Buf UInt8 n → Buf UInt8 p → Buf UInt8 q → Queue →
    Option (Buf UInt8 n × Buf UInt8 p × Buf UInt8 q)
  | buf, line, text, [] => some (buf, line, text)
  | buf, line, text, m :: ms => (append_line buf line text m).bind fun r => drain r.1 r.2.1 r.2.2 ms

/-- A message of at most `k` bytes as a client sends it, without a NUL. -/
structure Message (k : ℕ) (m : List UInt8) : Prop where
  ne_nil : m ≠ []
  length_le : m.length ≤ k
  no_nul : (0 : UInt8) ∉ m

/-- No message is shorter than one before it. -/
def Growing (ms : Queue) : Prop := ms.Pairwise fun m m' => m.length ≤ m'.length

instance (ms : Queue) : Decidable (Growing ms) := inferInstanceAs (Decidable (List.Pairwise _ _))

section Drain

variable {n p q : ℕ} {buf b : Buf UInt8 n} {line l : Buf UInt8 p} {text t : Buf UInt8 q}

theorem drain_cons {m : List UInt8} {ms : Queue} (h : drain buf line text (m :: ms) = some (b, l, t)) :
    ∃ b1 l1 t1, append_line buf line text m = some (b1, l1, t1) ∧ drain b1 l1 t1 ms = some (b, l, t) := by
  obtain ⟨⟨b1, l1, t1⟩, h1, h2⟩ := Option.bind_eq_some_iff.mp h
  exact ⟨b1, l1, t1, h1, h2⟩

theorem length_le_append_line {m : List UInt8} (hm : (0 : UInt8) ∉ m)
    (h : append_line buf line text m = some (b, l, t)) :
    m.length ≤ (received buf m).length ∧ t.str.length = text.str.length + ((received buf m).length + 1) := by
  obtain ⟨-, -, hs, -⟩ := append_line_eq_some h
  refine ⟨?_, by rw [hs, List.length_append, List.length_append, List.length_singleton]; omega⟩
  rw [received, cstr_append hm, List.length_append]
  omega

theorem length_le_drain : ∀ {ms : Queue} {buf b : Buf UInt8 n} {line l : Buf UInt8 p} {text t : Buf UInt8 q},
    (∀ m ∈ ms, (0 : UInt8) ∉ m) → drain buf line text ms = some (b, l, t) →
    text.str.length + (lines newline ms).length ≤ t.str.length
  | [], _, _, _, _, _, _, _, h => by
    cases h
    simp
  | m :: ms, buf, b, line, l, text, t, h0, h => by
    obtain ⟨b1, l1, t1, h1, h2⟩ := drain_cons h
    obtain ⟨hle, hlen⟩ := length_le_append_line (h0 m List.mem_cons_self) h1
    have ih := length_le_drain (fun w hw => h0 w (List.mem_cons_of_mem m hw)) h2
    simp only [lines_cons, List.length_append, List.length_cons]
    omega

theorem term_of_drain : ∀ {ms : Queue} {buf b : Buf UInt8 n} {line l : Buf UInt8 p} {text t : Buf UInt8 q},
    text.Term → drain buf line text ms = some (b, l, t) → t.Term
  | [], _, _, _, _, _, _, ht, h => by
    cases h
    exact ht
  | m :: ms, buf, b, line, l, text, t, _, h => by
    obtain ⟨b1, l1, t1, h1, h2⟩ := drain_cons h
    exact term_of_drain (append_line_eq_some h1).2.2.2 h2

/-- **A text that is no longer than its messages** has them all as they are, so
their lengths grow. -/
theorem drain_growing : ∀ {ms : Queue} {buf b : Buf UInt8 n} {line l : Buf UInt8 p} {text t : Buf UInt8 q},
    buf.Clean → (∀ m ∈ ms, (0 : UInt8) ∉ m) → drain buf line text ms = some (b, l, t) →
    t.str.length = text.str.length + (lines newline ms).length →
    (∀ m ∈ ms, buf.str.length ≤ m.length) ∧ Growing ms
  | [], _, _, _, _, _, _, _, _, _, _ => ⟨fun m hm => absurd hm (by simp), List.Pairwise.nil⟩
  | m :: ms, buf, b, line, l, text, t, hc, h0, h, hlen => by
    have hm := h0 m List.mem_cons_self
    have h0' : ∀ w ∈ ms, (0 : UInt8) ∉ w := fun w hw => h0 w (List.mem_cons_of_mem m hw)
    obtain ⟨b1, l1, t1, h1, h2⟩ := drain_cons h
    obtain ⟨hle, hlen1⟩ := length_le_append_line hm h1
    have hrest := length_le_drain h0' h2
    simp only [lines_cons, List.length_append, List.length_cons] at hlen
    have hrec := length_received hc hm
    have hbuf : buf.str.length ≤ m.length := by omega
    obtain ⟨-, hb1, -, -⟩ := append_line_eq_some h1
    obtain ⟨hs1, hc1⟩ := hc.store hm hbuf hb1
    obtain ⟨hall, hgrow⟩ := drain_growing hc1 h0' h2 (by omega)
    rw [hs1] at hall
    refine ⟨fun w hw => ?_, List.Pairwise.cons hall hgrow⟩
    rcases List.mem_cons.mp hw with rfl | hw
    · exact hbuf
    · exact hbuf.trans (hall w hw)

theorem exists_drain {k : ℕ} (hn : k < n) (hp : k + 1 < p) : ∀ {ms : Queue} {buf : Buf UInt8 n} (line : Buf UInt8 p)
    {text : Buf UInt8 q}, buf.Clean → text.Term → (∀ m ∈ ms, Message k m) →
    (∀ m ∈ ms, buf.str.length ≤ m.length) → Growing ms → text.str.length + (lines newline ms).length < q →
    ∃ b l t, drain buf line text ms = some (b, l, t) ∧ t.str = text.str ++ lines newline ms
  | [], buf, line, text, _, _, _, _, _, _ => ⟨buf, line, text, rfl, by simp⟩
  | m :: ms, buf, line, text, hc, ht, hms, hbuf, hgrow, hq => by
    have hm := hms m List.mem_cons_self
    have hle := hbuf m List.mem_cons_self
    have hrec := received_eq hc hm.no_nul hle
    have hk := hm.length_le
    simp only [lines_cons, List.length_append, List.length_cons] at hq
    have hfits : Fits buf p text m := ⟨by omega, by rw [hrec]; omega, by rw [hrec]; omega, by rw [hrec]; omega⟩
    obtain ⟨b1, l1, t1, h1⟩ := append_line_spec line ht hfits
    obtain ⟨-, hb1, hs, ht1⟩ := append_line_eq_some h1
    obtain ⟨hs1, hc1⟩ := hc.store hm.no_nul hle hb1
    obtain ⟨hall, hgrow'⟩ := List.pairwise_cons.mp hgrow
    rw [hrec] at hs
    obtain ⟨b, l, t, h2, hst⟩ := exists_drain hn hp l1 hc1 ht1 (fun w hw => hms w (List.mem_cons_of_mem m hw))
      (by rw [hs1]; exact hall) hgrow'
      (by rw [hs, List.length_append, List.length_append, List.length_singleton]; omega)
    exact ⟨b, l, t, by rw [drain, h1]; exact h2, by rw [hst, hs]; simp⟩

/-- **The loop** appends the messages as they are exactly if their lengths grow
and there is room. -/
theorem drain_iff {k : ℕ} (hn : k < n) (hp : k + 1 < p) (line : Buf UInt8 p) (text : Buf UInt8 q) {ms : Queue}
    (hms : ∀ m ∈ ms, Message k m) :
    (∃ b l t, drain (Buf.zeros UInt8 n) line text ms = some (b, l, t) ∧ t.str = text.str ++ lines newline ms) ↔
      Growing ms ∧ (ms ≠ [] → text.Term ∧ text.str.length + (lines newline ms).length < q) := by
  have h0 : ∀ m ∈ ms, (0 : UInt8) ∉ m := fun m hm => (hms m hm).no_nul
  constructor
  · rintro ⟨b, l, t, h, hs⟩
    have hlen : t.str.length = text.str.length + (lines newline ms).length := by rw [hs, List.length_append]
    refine ⟨(drain_growing Buf.clean_zeros h0 h hlen).2, fun hne => ?_⟩
    cases ms with
    | nil => exact absurd rfl hne
    | cons m ms =>
      obtain ⟨b1, l1, t1, h1, h2⟩ := drain_cons h
      refine ⟨((append_line_isSome line).mp ⟨_, h1⟩).1, ?_⟩
      rw [← hlen]
      exact (term_of_drain (append_line_eq_some h1).2.2.2 h2).length_lt
  · rintro ⟨hgrow, hroom⟩
    cases ms with
    | nil => exact ⟨_, _, _, rfl, by simp⟩
    | cons m ms =>
      obtain ⟨ht, hq⟩ := hroom (by simp)
      exact exists_drain hn hp line Buf.clean_zeros ht hms (by simp) hgrow hq

end Drain

/-! ### The calls -/

/-- The server after one call of `get_name`: it clears the buffer, and receives
until the queue is empty. -/
def get_name_call (s : State) : State :=
  server^[s.name_queue.length + 1] { s with pc := .get_name (Buf.zeros UInt8 20) }

/-- The server after one call of `get_message`. -/
def get_message_call (s : State) : State :=
  server^[s.message_queue.length + 1] { s with pc := .get_message (Buf.zeros UInt8 350) }

theorem server_undefined {s : State} (h : s.pc = .undefined) (k : ℕ) : (server^[k] s).pc = .undefined := by
  have hfix : server s = s := by simp only [server, h]
  rw [Function.iterate_fixed hfix, h]

section Calls

variable {n p q : ℕ} (R : Receiving n p q)

/-- **The turns until the queue is empty** are the loop over its messages. -/
theorem Receiving.drain : ∀ (ms : Queue) {s : State} {buf : Buf UInt8 n}, R.turn s buf → R.queue s = ms →
    ((server^[ms.length + 1] s).pc ≠ .undefined ↔ ∃ r, Chat.drain buf (R.line s) (R.text s) ms = some r) ∧
    ∀ b l t, Chat.drain buf (R.line s) (R.text s) ms = some (b, l, t) → R.text (server^[ms.length + 1] s) = t
  | [], s, buf, h, hq => by
    obtain ⟨hpc, htext⟩ := R.empty h hq
    rw [List.length_nil, Nat.zero_add, Function.iterate_one]
    refine ⟨iff_of_true hpc ⟨_, rfl⟩, fun b l t hr => ?_⟩
    cases hr
    exact htext
  | m :: ms, s, buf, h, hq => by
    rw [List.length_cons, Function.iterate_succ_apply]
    rcases hline : append_line buf (R.line s) (R.text s) m with _ | ⟨b1, l1, t1⟩
    · simp only [Chat.drain, hline, Option.bind_none]
      refine ⟨iff_of_false (not_not.mpr (server_undefined (R.overflow h hq hline) _)) ?_, fun b l t hr => by cases hr⟩
      rintro ⟨r, hr⟩
      cases hr
    · obtain ⟨hturn, hqueue, rfl, rfl⟩ := R.next h hq hline
      simp only [Chat.drain, hline, Option.bind_some]
      exact Receiving.drain ms hturn hqueue

/-- A call stays inside its arrays and appends the messages as they are exactly
if the loop does. -/
theorem Receiving.takes_iff {s : State} {buf : Buf UInt8 n} {ms : Queue} (h : R.turn s buf) (hq : R.queue s = ms) :
    (server^[ms.length + 1] s).pc ≠ .undefined ∧
      (R.text (server^[ms.length + 1] s)).str = (R.text s).str ++ lines newline ms ↔
    ∃ b l t, Chat.drain buf (R.line s) (R.text s) ms = some (b, l, t) ∧ t.str = (R.text s).str ++ lines newline ms := by
  obtain ⟨hdef, htext⟩ := R.drain ms h hq
  constructor
  · rintro ⟨hpc, hs⟩
    obtain ⟨⟨b, l, t⟩, hr⟩ := hdef.mp hpc
    exact ⟨b, l, t, hr, by rw [← htext b l t hr]; exact hs⟩
  · rintro ⟨b, l, t, hr, hs⟩
    exact ⟨hdef.mpr ⟨_, hr⟩, by rw [htext b l t hr]; exact hs⟩

end Calls

/-- The call takes the names whole: it stays inside its arrays, and the list is
then the old one and each name of the queue with a newline. -/
def TakesNames (s : State) : Prop :=
  (get_name_call s).pc ≠ .undefined ∧
    (get_name_call s).name_list.str = s.name_list.str ++ lines newline s.name_queue

/-- The call takes the messages whole. -/
def TakesMessages (s : State) : Prop :=
  (get_message_call s).pc ≠ .undefined ∧
    (get_message_call s).chat.str = s.chat.str ++ lines newline s.message_queue

theorem takesNames_iff {s : State} : TakesNames s ↔ ∃ b l t,
    drain (Buf.zeros UInt8 20) s.name s.name_list s.name_queue = some (b, l, t) ∧
      t.str = s.name_list.str ++ lines newline s.name_queue :=
  receiving_names.takes_iff (s := { s with pc := .get_name (Buf.zeros UInt8 20) }) rfl rfl

theorem takesMessages_iff {s : State} : TakesMessages s ↔ ∃ b l t,
    drain (Buf.zeros UInt8 350) s.message s.chat s.message_queue = some (b, l, t) ∧
      t.str = s.chat.str ++ lines newline s.message_queue :=
  receiving_messages.takes_iff (s := { s with pc := .get_message (Buf.zeros UInt8 350) }) rfl rfl

/-- **A call takes its messages whole exactly if none is shorter than one before
it in the queue**, and the text, if there is something to append, is a string
with room for them. -/
theorem drains_iff (s : State) (hn : ∀ m ∈ s.name_queue, Message 18 m) (hm : ∀ m ∈ s.message_queue, Message 348 m) :
    (TakesNames s ↔ Growing s.name_queue ∧ (s.name_queue ≠ [] → s.name_list.Term ∧
      s.name_list.str.length + (lines newline s.name_queue).length < 4096)) ∧
    (TakesMessages s ↔ Growing s.message_queue ∧ (s.message_queue ≠ [] → s.chat.Term ∧
      s.chat.str.length + (lines newline s.message_queue).length < 8192)) :=
  ⟨takesNames_iff.trans (drain_iff (by decide) (by decide) s.name s.name_list hn),
    takesMessages_iff.trans (drain_iff (by decide) (by decide) s.message s.chat hm)⟩

/-- The names `ab` and `c` are pending. -/
def longThenShort : State := { start with name_queue := [[97, 98], [99]] }

theorem longThenShort_messages : (∀ m ∈ longThenShort.name_queue, Message 18 m) ∧
    ∀ m ∈ longThenShort.message_queue, Message 348 m := by
  refine ⟨fun m hm => ?_, fun m hm => absurd hm (by simp [longThenShort, start])⟩
  simp only [longThenShort, List.mem_cons, List.not_mem_nil, or_false] at hm
  rcases hm with rfl | rfl
  · constructor <;> decide
  · constructor <;> decide

/-- The name `c` is taken as `cb`. -/
theorem short_keeps_tail : ¬ ∀ s : State, (∀ m ∈ s.name_queue, Message 18 m) →
    (∀ m ∈ s.message_queue, Message 348 m) → TakesNames s ∧ TakesMessages s := by
  intro h
  have htakes := (h longThenShort longThenShort_messages.1 longThenShort_messages.2).1
  obtain ⟨b, l, t, hdrain, hs⟩ := takesNames_iff.mp htakes
  have h0 : ∀ m ∈ longThenShort.name_queue, (0 : UInt8) ∉ m := fun m hm => (longThenShort_messages.1 m hm).no_nul
  have hgrow := (drain_growing Buf.clean_zeros h0 hdrain (by rw [hs, List.length_append])).2
  exact absurd hgrow (by decide)

theorem drains_iff_longThenShort :
    (TakesNames longThenShort ↔ Growing longThenShort.name_queue ∧ (longThenShort.name_queue ≠ [] →
      longThenShort.name_list.Term ∧
      longThenShort.name_list.str.length + (lines newline longThenShort.name_queue).length < 4096)) ∧
    (TakesMessages longThenShort ↔ Growing longThenShort.message_queue ∧ (longThenShort.message_queue ≠ [] →
      longThenShort.chat.Term ∧
      longThenShort.chat.str.length + (lines newline longThenShort.message_queue).length < 8192)) :=
  drains_iff longThenShort longThenShort_messages.1 longThenShort_messages.2

end Chat
end Autumn
