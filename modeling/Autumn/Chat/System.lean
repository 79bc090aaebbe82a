/-
# The chat over message queues (`chat/server.c`, `chat/client.c`)

One server and any number of clients share five queues. The server goes round
its loop: it drains the names, sends the list of names once for each user,
drains the messages, sends the chat once for each user, and takes at most one
departure. A client sends its name, then any number of messages, then its name
again to `delete_queue`; meanwhile its threads receive the list and the chat,
each copy going to the client that takes it.

A step is one operation on a queue with the computing around it. All queues
are opened `O_NONBLOCK`: a send to a full queue or of too long a message fails,
and a receive from an empty queue ends a loop; nobody looks at a failed send.
When the server accesses memory outside an array (`undefined`) nothing is known
from there on, and the run ends.

Key definitions: `State`, `server`, `client`, `chat`, `Receiving`.
-/
import Mathlib.Logic.Function.Basic
import Autumn.Lib.System
import Autumn.Chat.Server

namespace Autumn
namespace Chat

/-- A client before it has sent its name, in the chat, or gone. -/
inductive Phase
  | out
  | joined
  | left
  deriving DecidableEq, Repr

/-- What a client's threads receive into. -/
structure Client where
  phase : Phase
  list : Buf UInt8 4096
  chat : Buf UInt8 8192

/-- Where the server is: at the top of its loop, or before the named queue
operation. -/
inductive Pc
  | top
  | get_name (buf : Buf UInt8 20)
  | send_name_list (i : ℕ)
  | get_message (buf : Buf UInt8 350)
  | send_chat (size i : ℕ)
  | delete_name
  | undefined
  deriving DecidableEq

/-- A queue: its messages, the next one to be received first. -/
abbrev Queue := List (List UInt8)

/-- The server's locals, the queues and the clients; `joins` records the
clients that have sent their name, in order. -/
structure State where
  name : Buf UInt8 20
  name_list : Buf UInt8 4096
  message : Buf UInt8 350
  chat : Buf UInt8 8192
  users : ℕ
  pc : Pc
  name_queue : Queue
  name_list_queue : Queue
  message_queue : Queue
  chat_queue : Queue
  delete_queue : Queue
  clients : ℕ → Client
  joins : List ℕ

/-- The server goes on, or a client does something. -/
inductive Action
  | server
  | send_name (k : ℕ)
  | send_message (k : ℕ) (text : List UInt8)
  | send_departure (k : ℕ)
  | get_name_list (k : ℕ)
  | get_chat (k : ℕ)
  deriving DecidableEq, Repr

/-- `mq_maxmsg` of every queue. -/
abbrev maxmsg : ℕ := 10

/-- `mq_send` to a queue for messages of at most `msgsize` bytes. -/
def mq_send (msgsize : ℕ) (queue : Queue) (m : List UInt8) : Queue :=
  if queue.length < maxmsg ∧ m.length ≤ msgsize then queue ++ [m] else queue

/-- `get_name`, at its `mq_receive`; with the `users_number` after it. -/
def get_name (s : State) (buf : Buf UInt8 20) : State :=
  match s.name_queue with
  | [] => { s with users := users_number s.name_list, pc := .send_name_list 0 }
  | m :: name_queue =>
    match append_line buf s.name s.name_list m with
    | some (buf, name, name_list) => { s with name, name_list, name_queue, pc := .get_name buf }
    | none => { s with pc := .undefined }

/-- `send_name_list`, at its `mq_send`. -/
def send_name_list (s : State) (i : ℕ) : State :=
  if i < s.users then
    { s with name_list_queue := mq_send 4096 s.name_list_queue s.name_list.str, pc := .send_name_list (i + 1) }
  else { s with pc := .get_message (Buf.zeros UInt8 350) }

/-- `get_message`, at its `mq_receive`; with the `strlen` of `send_chat`. -/
def get_message (s : State) (buf : Buf UInt8 350) : State :=
  match s.message_queue with
  | [] => { s with pc := .send_chat s.chat.str.length 0 }
  | m :: message_queue =>
    match append_line buf s.message s.chat m with
    | some (buf, message, chat) => { s with message, chat, message_queue, pc := .get_message buf }
    | none => { s with pc := .undefined }

/-- `send_chat`, at its `mq_send`. -/
def send_chat (s : State) (size i : ℕ) : State :=
  if i < s.users ∧ size ≠ 0 then
    { s with chat_queue := mq_send 8192 s.chat_queue s.chat.str, pc := .send_chat size (i + 1) }
  else { s with pc := .delete_name }

/-- `delete_name`, and back to the top. -/
def take_departure (s : State) : State :=
  match delete_name s.name_list s.delete_queue.head? with
  | some name_list => { s with name_list, delete_queue := s.delete_queue.tail, pc := .top }
  | none => { s with pc := .undefined }

/-- The next step of the server. -/
def server (s : State) : State :=
  match s.pc with
  | .top => { s with pc := .get_name (Buf.zeros UInt8 20) }
  | .get_name buf => get_name s buf
  | .send_name_list i => send_name_list s i
  | .get_message buf => get_message s buf
  | .send_chat size i => send_chat s size i
  | .delete_name => take_departure s
  | .undefined => s

/-- What `send_message` sends, `sprintf(message, "[%s]: ", name)` and the text
typed; it must fit `buf[300]` and `message[325]`. -/
def message (name text : List UInt8) : Option (List UInt8) :=
  let m := [91] ++ name ++ [93, 58, 32] ++ text
  if text.length < 300 ∧ m.length < 325 then some m else none

/-- Client `k` is now as `c`. -/
def State.setClient (s : State) (k : ℕ) (c : Client) : State :=
  { s with clients := Function.update s.clients k c }

@[simp] theorem setClient_self (s : State) (k : ℕ) (c : Client) : (s.setClient k c).clients k = c :=
  Function.update_self ..

theorem setClient_ne (s : State) {k j : ℕ} (c : Client) (h : j ≠ k) :
    (s.setClient k c).clients j = s.clients j :=
  Function.update_of_ne h ..

/-- A step of a client; `names` are the clients' names. -/
def client (names : ℕ → List UInt8) (s : State) : Action → Option State
  | .server => none
  | .send_name k =>
    if (s.clients k).phase = .out then
      some { s.setClient k { s.clients k with phase := .joined } with
        name_queue := mq_send 20 s.name_queue (names k), joins := s.joins ++ [k] }
    else none
  | .send_message k text =>
    if (s.clients k).phase = .joined then
      (message (names k) text).map fun m => { s with message_queue := mq_send 8192 s.message_queue m }
    else none
  | .send_departure k =>
    if (s.clients k).phase = .joined then
      some { s.setClient k { s.clients k with phase := .left } with
        delete_queue := mq_send 20 s.delete_queue (names k) }
    else none
  | .get_name_list k =>
    if (s.clients k).phase = .joined then
      match s.name_list_queue with
      | [] => some (s.setClient k { s.clients k with list := Buf.zeros UInt8 4096 })
      | m :: name_list_queue =>
        ((Buf.zeros UInt8 4096).store 0 m).map fun list =>
          { s.setClient k { s.clients k with list } with name_list_queue }
    else none
  | .get_chat k =>
    if (s.clients k).phase = .joined then
      match s.chat_queue with
      | [] => none
      | m :: chat_queue =>
        ((s.clients k).chat.store 0 m).map fun chat =>
          { s.setClient k { s.clients k with chat } with chat_queue }
    else none

def step (names : ℕ → List UInt8) (s : State) (a : Action) : Option State :=
  if s.pc = .undefined then none
  else match a with
    | .server => some (server s)
    | a => client names s a

/-- All runs of the chat. `name_list` and `chat` are not initialised by the
program: `name_list` holds `first` when it starts, and `chat` any string. -/
def chat (names : ℕ → List UInt8) (first : List UInt8) : System State Action where
  init s := s.pc = .top ∧ s.name_list.Term ∧ s.name_list.str = first ∧ s.chat.Term ∧
    s.name_queue = [] ∧ s.name_list_queue = [] ∧ s.message_queue = [] ∧ s.chat_queue = [] ∧
    s.delete_queue = [] ∧ s.joins = [] ∧
    ∀ k, s.clients k = ⟨.out, Buf.zeros UInt8 4096, Buf.zeros UInt8 8192⟩
  step := step names

/-- The chat as it starts, with zeros for what is not initialised. -/
def start : State :=
  ⟨Buf.zeros UInt8 20, Buf.zeros UInt8 4096, Buf.zeros UInt8 350, Buf.zeros UInt8 8192, 0, .top, [], [], [], [], [],
    fun _ => ⟨.out, Buf.zeros UInt8 4096, Buf.zeros UInt8 8192⟩, []⟩

/-! ### The loops that receive -/

/-- A loop of the server that receives from a queue and appends to a text, by
what a turn does: it ends at the empty queue, and otherwise takes a message or
is undefined. -/
structure Receiving (n p q : ℕ) where
  turn : State → Buf UInt8 n → Prop
  queue : State → Queue
  line : State → Buf UInt8 p
  text : State → Buf UInt8 q
  empty : ∀ {s buf}, turn s buf → queue s = [] → (server s).pc ≠ .undefined ∧ text (server s) = text s
  overflow : ∀ {s buf m ms}, turn s buf → queue s = m :: ms → append_line buf (line s) (text s) m = none →
    (server s).pc = .undefined
  next : ∀ {s buf m ms b l t}, turn s buf → queue s = m :: ms →
    append_line buf (line s) (text s) m = some (b, l, t) →
    turn (server s) b ∧ queue (server s) = ms ∧ line (server s) = l ∧ text (server s) = t
  running : ∀ {s buf}, turn s buf → s.pc ≠ .undefined

/-- `get_name` -/
def receiving_names : Receiving 20 20 4096 where
  turn s buf := s.pc = .get_name buf
  queue := State.name_queue
  line := State.name
  text := State.name_list
  empty hpc hq := by simp [server, hpc, get_name, hq]
  overflow hpc hq hline := by simp [server, hpc, get_name, hq, hline]
  next hpc hq hline := by simp [server, hpc, get_name, hq, hline]
  running hpc := by simp [hpc]

/-- `get_message` -/
def receiving_messages : Receiving 350 350 8192 where
  turn s buf := s.pc = .get_message buf
  queue := State.message_queue
  line := State.message
  text := State.chat
  empty hpc hq := by simp [server, hpc, get_message, hq]
  overflow hpc hq hline := by simp [server, hpc, get_message, hq, hline]
  next hpc hq hline := by simp [server, hpc, get_message, hq, hline]
  running hpc := by simp [hpc]

/-- A turn that takes a message stays inside the arrays exactly if appending
does. -/
theorem Receiving.defined_iff {n p q : ℕ} (R : Receiving n p q) {s : State} {buf : Buf UInt8 n} {m : List UInt8}
    {ms : Queue} (h : R.turn s buf) (hq : R.queue s = m :: ms) :
    (server s).pc ≠ .undefined ↔ ∃ r, append_line buf (R.line s) (R.text s) m = some r := by
  rcases hline : append_line buf (R.line s) (R.text s) m with _ | ⟨b, l, t⟩
  · exact iff_of_false (not_not.mpr (R.overflow h hq hline)) (by simp)
  · obtain ⟨hturn, -⟩ := R.next h hq hline
    exact iff_of_true (R.running hturn) ⟨_, rfl⟩

theorem init_start (names : ℕ → List UInt8) : (chat names []).init start :=
  ⟨rfl, Buf.term_zeros (by decide), Buf.str_zeros, Buf.term_zeros (by decide), rfl, rfl, rfl, rfl, rfl, rfl,
    fun _ => rfl⟩

end Chat
end Autumn
