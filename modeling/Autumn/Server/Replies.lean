/-
# What the workers reply (`server models/2`, `server models/3`, `server models/4`)

The three loops of `customer_service` differ in how they get a descriptor: from
`accept`, out of a message, or from `accept` on each of five listeners that
`select` has found ready. What they do with it is one thing: receive into the
128-byte `buf`, make the bytes upper case, send all of `buf`, and clear it
afterwards. So every client but a worker's first one gets its own request and
zeros; the first one gets what `buf` held before, behind its request.

A request is the bytes that one `recv` gets: none after an error or at the end
of the stream.

Key definitions: `Client`, `serve`, `Model2.customer_service`,
`Model3.customer_service`, `Model4.customer_service`, `Run`, `OwnOnly`.
Key theorems: `customer_service_eq`, `replies_own_iff`.
-/
import Mathlib.Data.List.FinRange
import Autumn.Server.Common

namespace Autumn
namespace Server

/-- A connection with what is received from it. -/
structure Client where
  cfd : ℤ
  data : List UInt8
  data_le : data.length ≤ bufSize
  deriving DecidableEq

/-- A worker: its `buf`, and for the record what it has sent. -/
structure Local where
  buf : Buf UInt8 bufSize
  sent : List (ℤ × List UInt8)
  deriving DecidableEq

/-- From `recv` to `close`, which all loops have. -/
def serve (w : Local) (c : Client) : Option Local :=
  (receive w.buf c.data).map fun buf =>
    { buf := Buf.zeros UInt8 bufSize, sent := w.sent ++ [(c.cfd, buf.chars)] }

/-- The loop over what `accept` returns. -/
def Model2.customer_service (w : Local) (accepted : List Client) : Option Local :=
  accepted.foldlM serve w

/-- What `mq_receive` gets, and what is received from the connection it names. -/
structure Model3.Task where
  message : Int8 × Int8
  data : List UInt8
  data_le : data.length ≤ bufSize
  deriving DecidableEq

/-- `cfd = (int) message[0];` -/
def Model3.Task.client (t : Model3.Task) : Client := ⟨t.message.1.toInt, t.data, t.data_le⟩

/-- The loop over what `mq_receive` gets. -/
def Model3.customer_service (w : Local) (tasks : List Model3.Task) : Option Local :=
  tasks.foldlM (fun w t => serve w t.client) w

/-- What `select` returns, and for each listener that is ready the connection
that `accept` takes from it. -/
structure Model4.Round where
  ret : ℤ
  ready : Fin 5 → Option Client

/-- The body of the loop over the listeners. -/
def Model4.serve_listener (ready : Fin 5 → Option Client) (w : Local) (i : Fin 5) : Option Local :=
  match ready i with
  | some c => serve w c
  | none => some w

/-- The loop over the rounds of `select`, and in each of them over the listeners. -/
def Model4.customer_service (w : Local) (rounds : List Model4.Round) : Option Local :=
  rounds.foldlM (fun w round =>
    if 0 < round.ret then (List.finRange 5).foldlM (Model4.serve_listener round.ready) w else some w) w

/-- A run of one of the loops, from the call of `customer_service` on. -/
inductive Run
  | model2 (accepted : List Client)
  | model3 (tasks : List Model3.Task)
  | model4 (rounds : List Model4.Round)

/-- What the worker has done, with `buf` as it was at first. -/
def Run.customer_service (buf : Buf UInt8 bufSize) : Run → Option Local
  | .model2 accepted => Model2.customer_service ⟨buf, []⟩ accepted
  | .model3 tasks => Model3.customer_service ⟨buf, []⟩ tasks
  | .model4 rounds => Model4.customer_service ⟨buf, []⟩ rounds

/-- What has been sent to the `k`-th client. -/
def Run.reply (buf : Buf UInt8 bufSize) (run : Run) (k : ℕ) : Option (List UInt8) :=
  (run.customer_service buf).bind fun w => w.sent[k]?.map Prod.snd

/-- The clients of a round, in the order of the listeners. -/
def Model4.Round.clients (round : Model4.Round) : List Client :=
  if 0 < round.ret then (List.finRange 5).filterMap round.ready else []

/-- The clients of a run, in order. -/
def Run.clients : Run → List Client
  | .model2 accepted => accepted
  | .model3 tasks => tasks.map Model3.Task.client
  | .model4 rounds => rounds.flatMap Model4.Round.clients

/-- What a client is owed: its bytes in upper case, and zeros. -/
def Client.owed (c : Client) : ℤ × List UInt8 :=
  (c.cfd, c.data.map toupper ++ List.replicate (bufSize - c.data.length) 0)

/-- Every client is sent its own request only. -/
def OwnOnly (buf : Buf UInt8 bufSize) (run : Run) : Prop :=
  (run.customer_service buf).map Local.sent = some (run.clients.map Client.owed)

instance (buf : Buf UInt8 bufSize) (run : Run) : Decidable (OwnOnly buf run) := inferInstanceAs (Decidable (_ = _))

/-! ### One loop -/

/-- What a client is sent out of a buffer. -/
def Client.served (buf : Buf UInt8 bufSize) (c : Client) : ℤ × List UInt8 :=
  (c.cfd, c.data.map toupper ++ buf.chars.drop c.data.length)

/-- **Serving** sends the request and what was behind it, and leaves zeros. -/
theorem serve_eq (w : Local) (c : Client) :
    serve w c = some ⟨Buf.zeros UInt8 bufSize, w.sent ++ [c.served w.buf]⟩ := by
  obtain ⟨b, hb, hchars⟩ := receive_spec w.buf c.data_le
  rw [serve, hb, Option.map_some, hchars]
  rfl

theorem served_zeros (c : Client) : c.served (Buf.zeros UInt8 bufSize) = c.owed := by
  rw [Client.served, Client.owed, Buf.chars_zeros, List.drop_replicate]

theorem serve_all_zeros (sent : List (ℤ × List UInt8)) (cs : List Client) :
    cs.foldlM serve ⟨Buf.zeros UInt8 bufSize, sent⟩ =
      some ⟨Buf.zeros UInt8 bufSize, sent ++ cs.map Client.owed⟩ := by
  induction cs generalizing sent with
  | nil => simp
  | cons c cs ih =>
    rw [List.foldlM_cons, serve_eq, served_zeros]
    show cs.foldlM serve _ = _
    rw [ih, List.map_cons, List.append_assoc, List.singleton_append]

/-- What a loop sends. -/
def replies (buf : Buf UInt8 bufSize) : List Client → List (ℤ × List UInt8)
  | [] => []
  | c :: cs => c.served buf :: cs.map Client.owed

theorem serve_all (buf : Buf UInt8 bufSize) (cs : List Client) :
    ((cs.foldlM serve ⟨buf, []⟩).map Local.sent) = some (replies buf cs) := by
  cases cs with
  | nil => rfl
  | cons c cs =>
    rw [List.foldlM_cons, serve_eq]
    show (cs.foldlM serve _).map _ = _
    rw [serve_all_zeros, Option.map_some]
    rfl

/-! ### The three loops -/

theorem serve_ready (ready : Fin 5 → Option Client) (is : List (Fin 5)) (w : Local) :
    is.foldlM (Model4.serve_listener ready) w = (is.filterMap ready).foldlM serve w := by
  induction is generalizing w with
  | nil => rfl
  | cons i is ih =>
    rw [List.foldlM_cons, List.filterMap_cons, Model4.serve_listener]
    cases ready i with
    | none => exact ih w
    | some c =>
      rw [List.foldlM_cons]
      exact bind_congr fun w => ih w

theorem model4_eq (w : Local) (rounds : List Model4.Round) :
    Model4.customer_service w rounds = (rounds.flatMap Model4.Round.clients).foldlM serve w := by
  induction rounds generalizing w with
  | nil => rfl
  | cons round rounds ih =>
    rw [Model4.customer_service, List.foldlM_cons, List.flatMap_cons, List.foldlM_append, Model4.Round.clients]
    split
    · rw [serve_ready]
      exact bind_congr fun w => ih w
    · exact ih w

/-- **Each loop** serves its clients one after another. -/
theorem customer_service_eq (buf : Buf UInt8 bufSize) (run : Run) :
    run.customer_service buf = run.clients.foldlM serve ⟨buf, []⟩ := by
  cases run with
  | model2 accepted => rfl
  | model3 tasks => exact List.foldlM_map.symm
  | model4 rounds => exact model4_eq _ rounds

theorem sent_eq (buf : Buf UInt8 bufSize) (run : Run) :
    (run.customer_service buf).map Local.sent = some (replies buf run.clients) := by
  rw [customer_service_eq, serve_all]

theorem reply_eq (buf : Buf UInt8 bufSize) (run : Run) (k : ℕ) :
    run.reply buf k = (replies buf run.clients)[k]?.map Prod.snd := by
  obtain ⟨w, hw, hs⟩ := Option.map_eq_some_iff.mp (sent_eq buf run)
  rw [Run.reply, hw, Option.bind_some, hs]

/-! ### Whose bytes they are -/

/-- Only the first client can be sent something else. -/
theorem replies_eq_owed_iff (buf : Buf UInt8 bufSize) (cs : List Client) :
    replies buf cs = cs.map Client.owed ↔
      ∀ c ∈ cs.head?, ∀ b ∈ buf.chars.drop c.data.length, b = 0 := by
  cases cs with
  | nil => simp [replies]
  | cons c cs =>
    have hlen : (buf.chars.drop c.data.length).length = bufSize - c.data.length := by
      rw [List.length_drop, buf.size]
    rw [replies, List.map_cons, List.cons.injEq, and_iff_left rfl, Client.served, Client.owed, Prod.mk.injEq,
      and_iff_right rfl, List.append_cancel_left_eq, List.eq_replicate_iff, and_iff_right hlen]
    simp

theorem own_only_iff (buf : Buf UInt8 bufSize) (run : Run) :
    OwnOnly buf run ↔ ∀ c ∈ run.clients.head?, ∀ b ∈ buf.chars.drop c.data.length, b = 0 := by
  rw [OwnOnly, sent_eq, Option.some_inj, replies_eq_owed_iff]

theorem reply_eq_iff (buf buf' : Buf UInt8 bufSize) (run run' : Run) {k : ℕ} {c c' : Client}
    (hc : run.clients[k]? = some c) (hc' : run'.clients[k]? = some c') (hdata : c.data = c'.data) :
    run.reply buf k = run'.reply buf' k ↔
      0 < k ∨ buf.chars.drop c.data.length = buf'.chars.drop c.data.length := by
  rw [reply_eq, reply_eq]
  cases hcs : run.clients with
  | nil =>
    rw [hcs] at hc
    cases hc
  | cons d cs =>
    cases hcs' : run'.clients with
    | nil =>
      rw [hcs'] at hc'
      cases hc'
    | cons d' cs' =>
      rw [hcs] at hc
      rw [hcs'] at hc'
      cases k with
      | zero =>
        cases hc
        cases hc'
        simp [replies, Client.served, hdata]
      | succ k =>
        rw [List.getElem?_cons_succ] at hc hc'
        simp [replies, hc, hc', Client.owed, hdata]

/-- **A reply is the client's own request and zeros** in every run in which `buf`
was zero behind the first request; and two runs with the same `k`-th request
reply the same to it if it is not the first, or what `buf` held behind it was
the same. -/
theorem replies_own_iff (buf buf' : Buf UInt8 bufSize) (run run' : Run) :
    (OwnOnly buf run ↔ ∀ c ∈ run.clients.head?, ∀ b ∈ buf.chars.drop c.data.length, b = 0) ∧
      ∀ (k : ℕ) (c c' : Client), run.clients[k]? = some c → run'.clients[k]? = some c' → c.data = c'.data →
        (run.reply buf k = run'.reply buf' k ↔
          0 < k ∨ buf.chars.drop c.data.length = buf'.chars.drop c.data.length) :=
  ⟨own_only_iff buf run, fun _ _ _ hc hc' hdata => reply_eq_iff buf buf' run run' hc hc' hdata⟩

/-- A client that sends `hi`, and one from which nothing is received. -/
def twoClients : Run := .model2 [⟨4, [104, 105], by decide⟩, ⟨5, [], by decide⟩]

/-- Over two buffers, both zero behind `hi`. -/
theorem replies_own_twoClients :
    OwnOnly (Buf.zeros UInt8 bufSize) twoClients ∧
      twoClients.reply (Buf.zeros UInt8 bufSize) 0 = twoClients.reply (Buf.padded [120] (by decide)) 0 := by
  obtain ⟨hown, hsame⟩ :=
    replies_own_iff (Buf.zeros UInt8 bufSize) (Buf.padded [120] (by decide)) twoClients twoClients
  constructor
  · apply hown.mpr
    exact fun _ _ _ hb => List.eq_of_mem_replicate (List.mem_of_mem_drop hb)
  · apply (hsame 0 _ _ rfl rfl rfl).mpr
    exact .inr (by decide)

/-- **The first client of a worker** is sent what `buf` held. -/
theorem first_reply_leaks : ¬ OwnOnly (Buf.padded [115] (by decide)) (.model2 [⟨4, [], by decide⟩]) ∧
    Run.reply (Buf.padded [115] (by decide)) (.model2 [⟨4, [], by decide⟩]) 0 ≠
      Run.reply (Buf.zeros UInt8 bufSize) (.model2 [⟨4, [], by decide⟩]) 0 := by
  constructor
  · rw [own_only_iff]
    intro h
    have hmem : (115 : UInt8) ∈ (Buf.padded (n := bufSize) [115] (by decide)).chars :=
      List.mem_append_left _ (List.mem_singleton_self _)
    exact absurd (h ⟨4, [], by decide⟩ rfl 115 hmem) (by decide)
  · rw [reply_eq, reply_eq]
    exact fun h => absurd (congrArg (Option.map List.head?) h) (by decide)

end Server
end Autumn
