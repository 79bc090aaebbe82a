/-
# Whether what the server builds fits (`chat/server.c`)

Any process may send to the three queues the server reads, up to ten messages
of up to the queue's size. Nothing in the server looks at a length: a name of
19 bytes does not fit `name` with its newline, a message of 349 does not fit
`message`, one of more than 350 does not fit the array it is received into, a
departure of 20 leaves no room for its NUL, and the two texts grow until they
are full. A run stays inside all arrays exactly if each step of the server
finds room (`fits_iff_roomy`), which is said of the message to be received and
of the texts as they are then (`Roomy`).

Key definitions: `Event`, `exposed`, `Roomy`, `Bounded`.
Key theorems: `server_defined_iff`, `server_bounded`, `fits_iff_roomy`.
-/
import Autumn.Chat.System

namespace Autumn
namespace Chat

/-! ### The server among any processes -/

/-- The server goes on, somebody sends a message to one of its queues, or
somebody receives one of those it has sent. -/
inductive Event
  | server
  | name (m : List UInt8)
  | message (m : List UInt8)
  | departure (m : List UInt8)
  | take_list
  | take_chat
  deriving DecidableEq, Repr

/-- What an event does, while the server runs. -/
def happen (s : State) : Event → State
  | .server => server s
  | .name m => { s with name_queue := mq_send 20 s.name_queue m }
  | .message m => { s with message_queue := mq_send 8192 s.message_queue m }
  | .departure m => { s with delete_queue := mq_send 20 s.delete_queue m }
  | .take_list => { s with name_list_queue := s.name_list_queue.tail }
  | .take_chat => { s with chat_queue := s.chat_queue.tail }

/-- All runs of the server. It creates the queues; its arrays hold anything when
it starts. -/
def exposed : System State Event where
  init s := s.pc = .top ∧ s.name_queue = [] ∧ s.name_list_queue = [] ∧ s.message_queue = [] ∧
    s.chat_queue = [] ∧ s.delete_queue = []
  step s e := if s.pc = .undefined then none else some (happen s e)

/-- The server's next step finds room: for the string received and its newline
in the line, for the line behind the text, and for the names that
`delete_name` writes back. -/
def Roomy (s : State) : Prop :=
  match s.pc with
  | .get_name buf =>
    match s.name_queue with
    | [] => True
    | m :: _ => s.name_list.Term ∧ (received buf m).length ≤ 18 ∧
      s.name_list.str.length + (received buf m).length + 2 ≤ 4096
  | .get_message buf =>
    match s.message_queue with
    | [] => True
    | m :: _ => s.chat.Term ∧ m.length ≤ 350 ∧ (received buf m).length ≤ 348 ∧
      s.chat.str.length + (received buf m).length + 2 ≤ 8192
  | .delete_name =>
    s.name_list.Term ∧ ((s.delete_queue.head?.getD []).length < 20 ∨ (0 : UInt8) ∈ s.delete_queue.head?.getD []) ∧
      (lines newline (kept s.name_list (s.delete_queue.head?.getD []))).length < 4096
  | _ => True

/-- The queues of names and of departures hold messages of at most 20 bytes. -/
structure Bounded (s : State) : Prop where
  names : ∀ m ∈ s.name_queue, m.length ≤ 20
  departures : ∀ m ∈ s.delete_queue, m.length ≤ 20

/-! ### One step -/

theorem get_name_defined_iff {s : State} (hb : Bounded s) {buf : Buf UInt8 20} (hpc : s.pc = .get_name buf) :
    (get_name s buf).pc ≠ .undefined ↔ Roomy s := by
  rcases hq : s.name_queue with _ | ⟨m, q⟩
  · simp [get_name, Roomy, hpc, hq]
  have hm := hb.names m (by rw [hq]; exact List.mem_cons_self)
  have hroom : Roomy s ↔ s.name_list.Term ∧ Fits buf 20 s.name_list m := by
    simp only [Roomy, hpc, hq, Fits]
    exact and_congr_right fun _ => by omega
  have hs : server s = get_name s buf := by simp only [server, hpc]
  rw [hroom, ← append_line_isSome s.name, ← hs]
  exact receiving_names.defined_iff hpc hq

theorem get_message_defined_iff {s : State} {buf : Buf UInt8 350} (hpc : s.pc = .get_message buf) :
    (get_message s buf).pc ≠ .undefined ↔ Roomy s := by
  rcases hq : s.message_queue with _ | ⟨m, q⟩
  · simp [get_message, Roomy, hpc, hq]
  have hroom : Roomy s ↔ s.chat.Term ∧ Fits buf 350 s.chat m := by
    simp only [Roomy, hpc, hq, Fits]
    exact and_congr_right fun _ => by omega
  have hs : server s = get_message s buf := by simp only [server, hpc]
  rw [hroom, ← append_line_isSome s.message, ← hs]
  exact receiving_messages.defined_iff hpc hq

theorem take_departure_defined_iff {s : State} (hb : Bounded s) (hpc : s.pc = .delete_name) :
    (take_departure s).pc ≠ .undefined ↔ Roomy s := by
  have hd : (s.delete_queue.head?.getD []).length ≤ 20 := by
    rcases hq : s.delete_queue with _ | ⟨m, q⟩
    · exact Nat.zero_le _
    · exact hb.departures m (by rw [hq]; exact List.mem_cons_self)
  have hroom : Roomy s ↔ ∃ b, delete_name s.name_list s.delete_queue.head? = some b := by
    rw [(delete_name_iff s.name_list hd).1]
    simp only [Roomy, hpc]
  rw [hroom, take_departure]
  rcases delete_name s.name_list s.delete_queue.head? with _ | b
  · simp
  · simp

/-- **A step of the server** stays inside the arrays exactly if it finds
room. -/
theorem server_defined_iff {s : State} (hb : Bounded s) (hrun : s.pc ≠ .undefined) :
    (server s).pc ≠ .undefined ↔ Roomy s := by
  unfold server
  rcases hpc : s.pc with _ | buf | i | buf | ⟨size, i⟩ | _ | _
  · simp [Roomy, hpc]
  · exact get_name_defined_iff hb hpc
  · simp only [Roomy, hpc, send_name_list, iff_true]
    split <;> simp
  · exact get_message_defined_iff hpc
  · simp only [Roomy, hpc, send_chat, iff_true]
    split <;> simp
  · exact take_departure_defined_iff hb hpc
  · exact absurd hpc hrun

theorem server_bounded {s : State} (hb : Bounded s) : Bounded (server s) := by
  unfold server
  split
  · exact ⟨hb.names, hb.departures⟩
  · unfold get_name
    split
    · exact ⟨hb.names, hb.departures⟩
    · rename_i m q hq
      split
      · exact ⟨fun w hw => hb.names w (by rw [hq]; exact List.mem_cons_of_mem m hw), hb.departures⟩
      · exact ⟨hb.names, hb.departures⟩
  · unfold send_name_list
    split
    · exact ⟨hb.names, hb.departures⟩
    · exact ⟨hb.names, hb.departures⟩
  · unfold get_message
    split
    · exact ⟨hb.names, hb.departures⟩
    · split
      · exact ⟨hb.names, hb.departures⟩
      · exact ⟨hb.names, hb.departures⟩
  · unfold send_chat
    split
    · exact ⟨hb.names, hb.departures⟩
    · exact ⟨hb.names, hb.departures⟩
  · unfold take_departure
    split
    · exact ⟨hb.names, fun w hw => hb.departures w (List.mem_of_mem_tail hw)⟩
    · exact ⟨hb.names, hb.departures⟩
  · exact hb

theorem length_le_of_mem_send {msgsize : ℕ} {q : Queue} {m w : List UInt8} (hq : ∀ v ∈ q, v.length ≤ msgsize)
    (hw : w ∈ mq_send msgsize q m) : w.length ≤ msgsize := by
  unfold mq_send at hw
  split at hw
  · rename_i h
    rcases List.mem_append.mp hw with hw | hw
    · exact hq w hw
    · rw [List.mem_singleton.mp hw]
      exact h.2
  · exact hq w hw

theorem happen_bounded {s : State} (hb : Bounded s) (e : Event) : Bounded (happen s e) := by
  cases e with
  | server => exact server_bounded hb
  | name m => exact ⟨fun w hw => length_le_of_mem_send hb.names hw, hb.departures⟩
  | message m => exact ⟨hb.names, hb.departures⟩
  | departure m => exact ⟨hb.names, fun w hw => length_le_of_mem_send hb.departures hw⟩
  | take_list => exact ⟨hb.names, hb.departures⟩
  | take_chat => exact ⟨hb.names, hb.departures⟩

/-! ### Whole runs -/

/-- **A run stays inside the arrays exactly if every step of the server finds
room.** -/
theorem fits_iff_roomy (s : State) (h : exposed.init s) (events : List Event) :
    (∀ p, p <+: events → ∃ t, exposed.run s p = some t ∧ t.pc ≠ .undefined) ↔
      exposed.Meets (fun s e => e = .server → Roomy s) s events := by
  obtain ⟨hpc, hn, -, -, -, hd⟩ := h
  apply System.stays_iff_meets (I := Bounded) (D := fun t => t.pc ≠ .undefined)
  · intro t e hb hrun
    refine ⟨happen t e, if_neg hrun, happen_bounded hb e, ?_⟩
    cases e with
    | server => exact (server_defined_iff hb hrun).trans ⟨fun hr _ => hr, fun hr => hr rfl⟩
    | name m => exact iff_of_true hrun (by simp)
    | message m => exact iff_of_true hrun (by simp)
    | departure m => exact iff_of_true hrun (by simp)
    | take_list => exact iff_of_true hrun (by simp)
    | take_chat => exact iff_of_true hrun (by simp)
  · exact ⟨by simp [hn], by simp [hd]⟩
  · simp [hpc]

/-- A name of 19 bytes is received. -/
def longName : List Event := [.name (List.replicate 19 97), .server, .server]

theorem exposed_start : exposed.init start := ⟨rfl, rfl, rfl, rfl, rfl, rfl⟩

theorem fits_iff_roomy_longName :
    (∀ p, p <+: longName → ∃ t, exposed.run start p = some t ∧ t.pc ≠ .undefined) ↔
      exposed.Meets (fun s e => e = .server → Roomy s) start longName :=
  fits_iff_roomy start exposed_start longName

/-- A name of 19 bytes and a newline do not fit `name[20]`. -/
theorem longName_overflows : ¬ ∀ (s : State) (events : List Event), exposed.init s →
    ∀ p, p <+: events → ∃ t, exposed.run s p = some t ∧ t.pc ≠ .undefined := by
  intro h
  obtain ⟨t, ht, hpc⟩ := h start longName exposed_start longName (List.prefix_refl _)
  have hend : (exposed.run start longName).map State.pc = some .undefined := rfl
  rw [ht] at hend
  exact hpc (Option.some.inj hend)

end Chat
end Autumn
