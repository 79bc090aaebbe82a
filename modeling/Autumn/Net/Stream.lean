/-
# Lines over a stream socket (`unix_sockets/socket1.c` and `socket2.c`)

The server takes one connection after another, reads once from each, and prints what
it got as a line. A client connects, writes its line, without the newline and without
a NUL, and ends. It may come to its `write` late; the server waits in `read` until
then, and takes nobody else meanwhile.

The array is clear whenever the server reads, and a line leaves room for the NUL: so
what is printed are the clients' own lines, each once, in the order in which the
clients connected, whatever the order in which they wrote; every client that has
connected can have its line printed; and while the server is at a client, anything
more is printed without this client's doing exactly if it has written
(`printed_in_order`).

A client's line is written and read in one piece. The calls succeed; what the client
prints of them is left out.

Key definitions: `Pc`, `Phase`, `State`, `client`, `server`, `system`, `Queued`.
Key theorems: `step_does`, `queued_step`, `exists_next`, `stays_run`, `printed_in_order`.
-/
import Autumn.Net.Datagram

namespace Autumn
namespace Stream

open Echo (recvfrom)
open Datagram (print)
open Datagram.Unix (size message request)

/-- `BACKLOG` -/
abbrev BACKLOG : ℕ := 5

/-- Where the server is, and whose connection it has. -/
inductive Pc (ι : Type*)
  | accept
  | read (cfd : ι)
  | print (cfd : ι)
  | close
  deriving DecidableEq, Repr

/-- How far a client is: at `connect`, at `write`, or gone. -/
inductive Phase
  | connect
  | write
  | gone (written : List UInt8)
  deriving DecidableEq, Repr

/-- The server's variables, the connections that it has not accepted, the clients;
and for the record who has connected, and the lines. -/
structure State (ι : Type*) where
  pc : Pc ι
  buf : Buf UInt8 size
  pending : List ι
  client : ι → Phase
  connected : List ι
  printed : List (Option (List UInt8))

/-- A client or the server takes its next step. -/
inductive Action (ι : Type*)
  | client (i : ι)
  | server
  deriving DecidableEq, Repr

section Program

variable {ι : Type*} [DecidableEq ι]

/-- The client with the number `i`: `connect` waits while the queue is over the
backlog. -/
def client (buf : ι → Buf UInt8 size) (line : ι → List UInt8) (s : State ι) (i : ι) : Option (State ι) :=
  match s.client i with
  | .connect =>
    if s.pending.length ≤ BACKLOG then
      some { s with
        pending := s.pending ++ [i]
        client := Function.update s.client i .write
        connected := s.connected ++ [i] }
    else none
  | .write => (request (buf i) (line i)).map fun m => { s with client := Function.update s.client i (.gone m) }
  | .gone _ => none

/-- The server's loop. -/
def server (s : State ι) : Option (State ι) :=
  match s.pc with
  | .accept =>
    match s.pending with
    | [] => none
    | cfd :: pending => some { s with pc := .read cfd, pending := pending }
  | .read cfd =>
    match s.client cfd with
    | .gone m => some { s with pc := .print cfd, buf := recvfrom s.buf m }
    | _ => none
  | .print _ => some { s with pc := .close, buf := Buf.zeros UInt8 size, printed := s.printed ++ [print s.buf.chars] }
  | .close => some { s with pc := .accept }

def step (buf : ι → Buf UInt8 size) (line : ι → List UInt8) (s : State ι) : Action ι → Option (State ι)
  | .client i => client buf line s i
  | .server => server s

/-- Clients with lines and arrays of their own, and the server. -/
def system (buf : ι → Buf UInt8 size) (line : ι → List UInt8) : System (State ι) (Action ι) where
  init s := s = ⟨.accept, Buf.zeros UInt8 size, [], fun _ => .connect, [], []⟩
  step := step buf line

end Program

/-- The connection that the server has in hand. -/
def Pc.inHand {ι : Type*} : Pc ι → List ι
  | .read cfd | .print cfd => [cfd]
  | .accept | .close => []

variable {ι : Type*} [DecidableEq ι] {buf : ι → Buf UInt8 size} {line : ι → List UInt8}

/-! ### What a step does -/

/-- The steps, one after another. -/
inductive Does (line : ι → List UInt8) (s : State ι) : Action ι → State ι → Prop
  | connect (i : ι) : s.client i = .connect → Does line s (.client i) { s with
      pending := s.pending ++ [i]
      client := Function.update s.client i .write
      connected := s.connected ++ [i] }
  | write (i : ι) : s.client i = .write → Does line s (.client i) { s with
      client := Function.update s.client i (.gone (message (line i))) }
  | accept (i : ι) (pending : List ι) : s.pc = .accept → s.pending = i :: pending →
      Does line s .server { s with pc := .read i, pending := pending }
  | read (i : ι) (m : List UInt8) : s.pc = .read i → s.client i = .gone m →
      Does line s .server { s with pc := .print i, buf := recvfrom s.buf m }
  | print (i : ι) : s.pc = .print i → Does line s .server { s with
      pc := .close
      buf := Buf.zeros UInt8 size
      printed := s.printed ++ [print s.buf.chars] }
  | close : s.pc = .close → Does line s .server { s with pc := .accept }

theorem step_does (hline : ∀ i, (0 : UInt8) ∉ line i) {s t : State ι} {a : Action ι} (h : step buf line s a = some t) :
    Does line s a t := by
  cases a with
  | client i =>
    simp only [step, client] at h
    split at h
    · rename_i hc
      split at h
      · cases h
        exact .connect i hc
      · cases h
    · rename_i hc
      rw [Datagram.Unix.request_eq (buf i) (hline i)] at h
      cases h
      exact .write i hc
    · cases h
  | server =>
    simp only [step, server] at h
    split at h
    · rename_i hpc
      split at h
      · cases h
      · rename_i i pending hp
        cases h
        exact .accept i pending hpc hp
    · rename_i i hpc
      split at h
      · rename_i m hm
        cases h
        exact .read i m hpc hm
      · cases h
    · rename_i i hpc
      cases h
      exact .print i hpc
    · rename_i hpc
      cases h
      exact .close hpc

/-! ### The order of the lines -/

/-- What has been printed, what the server has in hand, and what waits, are the
clients in the order in which they connected. -/
structure Queued (line : ι → List UInt8) (s : State ι) : Prop where
  nodup : s.connected.Nodup
  connected : ∀ i, i ∈ s.connected ↔ s.client i ≠ .connect
  written : ∀ i m, s.client i = .gone m → m = message (line i)
  waiting : s.connected.drop s.printed.length = s.pc.inHand ++ s.pending
  printed : s.printed = (s.connected.take s.printed.length).map fun i => some (message (line i))
  array : (∃ i, s.pc = .print i ∧ s.buf = recvfrom (Buf.zeros UInt8 size) (message (line i))) ∨
    (∀ i, s.pc ≠ .print i) ∧ s.buf = Buf.zeros UInt8 size

omit [DecidableEq ι] in
theorem Queued.le {s : State ι} (h : Queued line s) : s.printed.length ≤ s.connected.length := by
  have hlen := congrArg List.length h.printed
  rw [List.length_map, List.length_take] at hlen
  omega

omit [DecidableEq ι] in
theorem Queued.prints (hline : ∀ i, (0 : UInt8) ∉ line i) {s : State ι} (h : Queued line s) {i : ι}
    (hpc : s.pc = .print i) : print s.buf.chars = some (message (line i)) := by
  rcases h.array with ⟨j, hj, hbuf⟩ | ⟨hno, -⟩
  · obtain rfl : j = i := Pc.print.inj (hj.symm.trans hpc)
    rw [hbuf]
    exact Datagram.Unix.print_clear (Datagram.Unix.length_message (line j)) fun h0 => hline j (List.mem_of_mem_take h0)
  · exact absurd hpc (hno i)

omit [DecidableEq ι] in
theorem Queued.clear {s : State ι} (h : Queued line s) (hpc : ∀ i, s.pc ≠ .print i) : s.buf = Buf.zeros UInt8 size := by
  rcases h.array with ⟨i, hi, -⟩ | ⟨-, hbuf⟩
  · exact absurd hi (hpc i)
  · exact hbuf

omit [DecidableEq ι] in
theorem Queued.reads {s : State ι} (h : Queued line s) {i : ι} (hpc : s.pc = .read i) :
    i ∈ s.connected ∧ (s.client i = .write ∨ s.client i = .gone (message (line i))) := by
  have hi : i ∈ s.connected := by
    apply List.mem_of_mem_drop (i := s.printed.length)
    rw [h.waiting, hpc]
    exact List.mem_cons_self
  refine ⟨hi, ?_⟩
  cases hc : s.client i with
  | connect => exact absurd hc ((h.connected i).mp hi)
  | write => exact .inl rfl
  | gone m => exact .inr (by rw [h.written i m hc])

theorem queued_step (hline : ∀ i, (0 : UInt8) ∉ line i) {s t : State ι} {a : Action ι} (hQ : Queued line s)
    (h : step buf line s a = some t) : Queued line t := by
  have hle := hQ.le
  have hwaiting := hQ.waiting
  cases step_does hline h with
  | connect i hc =>
    have hi : i ∉ s.connected := fun hi => (hQ.connected i).mp hi hc
    refine ⟨?_, fun j => ?_, fun j m hj => ?_, ?_, ?_, hQ.array⟩
    · rw [List.nodup_append_comm]
      exact List.nodup_cons.mpr ⟨hi, hQ.nodup⟩
    · by_cases hj : j = i
      · simp [hj]
      · simp [hj, hQ.connected j]
    · by_cases hji : j = i
      · simp [hji] at hj
      · simp only [Function.update_of_ne hji] at hj
        exact hQ.written j m hj
    · rw [List.drop_append_of_le_length hle, hwaiting, List.append_assoc]
    · rw [List.take_append_of_le_length hle]
      exact hQ.printed
  | write i hc =>
    refine ⟨hQ.nodup, fun j => ?_, fun j m hj => ?_, hwaiting, hQ.printed, hQ.array⟩
    · by_cases hj : j = i
      · simp [hj, hQ.connected i, hc]
      · simp [hj, hQ.connected j]
    · by_cases hji : j = i
      · simp only [hji, Function.update_self] at hj
        rw [hji, Phase.gone.inj hj]
      · simp only [Function.update_of_ne hji] at hj
        exact hQ.written j m hj
  | accept i pending hpc hp =>
    refine ⟨hQ.nodup, hQ.connected, hQ.written, ?_, hQ.printed, .inr ⟨by simp, ?_⟩⟩
    · rw [hwaiting, hpc, hp]
      rfl
    · exact hQ.clear fun j hj => by cases hpc.symm.trans hj
  | read i m hpc hm =>
    refine ⟨hQ.nodup, hQ.connected, hQ.written, ?_, hQ.printed, .inl ⟨i, rfl, ?_⟩⟩
    · rw [hwaiting, hpc]
      rfl
    · rw [hQ.clear (fun j hj => by cases hpc.symm.trans hj), hQ.written i m hm]
  | print i hpc =>
    rw [hpc] at hwaiting
    have hnext : s.connected[s.printed.length]? = some i := by
      rw [← List.head?_drop, hwaiting]
      rfl
    refine ⟨hQ.nodup, hQ.connected, hQ.written, ?_, ?_, .inr ⟨by simp, rfl⟩⟩
    · rw [List.length_append, List.length_singleton, ← List.drop_drop, hwaiting]
      rfl
    · rw [List.length_append, List.length_singleton, List.take_add_one, hnext, List.map_append, ← hQ.printed,
        hQ.prints hline hpc]
      rfl
  | close hpc =>
    refine ⟨hQ.nodup, hQ.connected, hQ.written, ?_, hQ.printed, .inr ⟨by simp, ?_⟩⟩
    · rw [hwaiting, hpc]
      rfl
    · exact hQ.clear fun j hj => by cases hpc.symm.trans hj

theorem reachable_queued (hline : ∀ i, (0 : UInt8) ∉ line i) {s : State ι} (h : (system buf line).Reachable s) :
    Queued line s := by
  apply h.invariant (I := Queued line)
  · rintro _ rfl
    exact ⟨List.nodup_nil, by simp, fun i m hm => (by cases hm), rfl, rfl, .inr ⟨by simp, rfl⟩⟩
  · exact fun _ _ _ hQ _ hst => queued_step hline hQ hst

/-! ### Who waits for whom -/

/-- How many clients that have connected have not written. -/
def unwritten (s : State ι) : ℕ := (s.connected.filter fun i => s.client i = .write).length

theorem unwritten_lt {s : State ι} {i : ι} (hi : i ∈ s.connected) (hc : s.client i = .write) (m : List UInt8) :
    unwritten { s with client := Function.update s.client i (.gone m) } < unwritten s := by
  simp only [unwritten, ← List.countP_eq_length_filter]
  obtain ⟨as, bs, hconn⟩ := List.append_of_mem hi
  have hle : ∀ l : List ι, l.countP (fun j => Function.update s.client i (.gone m) j = .write) ≤
      l.countP fun j => s.client j = .write := by
    intro l
    apply List.countP_mono_left
    intro j _ hj
    by_cases hji : j = i
    · simp [hji] at hj
    · simpa [hji] using hj
  have has := hle as
  have hbs := hle bs
  simp only [hconn, List.countP_append, List.countP_cons, Function.update_self, hc, decide_true, reduceCtorEq,
    decide_false, if_true, Bool.false_eq_true, if_false]
  omega

/-- The server's steps to the end of the queue. -/
def left (s : State ι) : ℕ :=
  4 * s.pending.length +
    match s.pc with
    | .accept => 0
    | .read _ => 3
    | .print _ => 2
    | .close => 1

/-- As long as a connection waits or is in hand, the server can take a step, or the
client that it waits for. -/
theorem exists_next (buf : ι → Buf UInt8 size) (hline : ∀ i, (0 : UInt8) ∉ line i) {s : State ι} (hQ : Queued line s)
    (h : ¬ (s.pc = .accept ∧ s.pending = [])) :
    ∃ a t, step buf line s a = some t ∧ t.connected = s.connected ∧ left t + unwritten t < left s + unwritten s := by
  cases hpc : s.pc with
  | accept =>
    cases hp : s.pending with
    | nil => exact absurd ⟨hpc, hp⟩ h
    | cons i pending =>
      refine ⟨.server, { s with pc := .read i, pending := pending }, by simp [step, server, hpc, hp], rfl, ?_⟩
      simp only [left, unwritten, hpc, hp, List.length_cons]
      omega
  | read i =>
    obtain ⟨hi, hc | hc⟩ := hQ.reads hpc
    · refine ⟨.client i, { s with client := Function.update s.client i (.gone (message (line i))) }, ?_, rfl, ?_⟩
      · simp [step, client, hc, Datagram.Unix.request_eq (buf i) (hline i)]
      · exact Nat.add_lt_add_left (unwritten_lt hi hc _) _
    · refine ⟨.server, { s with pc := .print i, buf := recvfrom s.buf (message (line i)) },
        by simp [step, server, hpc, hc], rfl, ?_⟩
      simp only [left, unwritten, hpc]
      omega
  | print i =>
    refine ⟨.server, { s with pc := .close, buf := Buf.zeros UInt8 size, printed := s.printed ++ [print s.buf.chars] },
      by simp [step, server, hpc], rfl, ?_⟩
    simp only [left, unwritten, hpc]
    omega
  | close =>
    refine ⟨.server, { s with pc := .accept }, by simp [step, server, hpc], rfl, ?_⟩
    simp only [left, unwritten, hpc]
    omega

/-- The server stays at a client that has not written, and prints nothing. -/
theorem stays_step (hline : ∀ i, (0 : UInt8) ∉ line i) {s t : State ι} {a : Action ι} {i : ι}
    (hs : s.pc = .read i ∧ s.client i = .write) (ha : a ≠ .client i) (h : step buf line s a = some t) :
    (t.pc = .read i ∧ t.client i = .write) ∧ t.printed = s.printed := by
  obtain ⟨hpc, hc⟩ := hs
  cases step_does hline h with
  | connect j hj =>
    have hji : i ≠ j := fun he => by rw [he, hj] at hc; cases hc
    exact ⟨⟨hpc, (Function.update_of_ne hji _ _).trans hc⟩, rfl⟩
  | write j hj =>
    have hji : i ≠ j := fun he => ha (by rw [he])
    exact ⟨⟨hpc, (Function.update_of_ne hji _ _).trans hc⟩, rfl⟩
  | accept j pending hp => cases hpc.symm.trans hp
  | read j m hp hm =>
    obtain rfl := Pc.read.inj (hpc.symm.trans hp)
    cases hc.symm.trans hm
  | print j hp => cases hpc.symm.trans hp
  | close hp => cases hpc.symm.trans hp

theorem stays_run (hline : ∀ i, (0 : UInt8) ∉ line i) {i : ι} : ∀ {as : List (Action ι)} {s t : State ι},
    s.pc = .read i ∧ s.client i = .write → .client i ∉ as → (system buf line).run s as = some t → t.printed = s.printed
  | [], s, t, _, _, hr => by
    rw [System.run_nil] at hr
    rw [Option.some.inj hr]
  | a :: as, s, t, hs, has, hr => by
    obtain ⟨u, hu, hr⟩ := Option.bind_eq_some_iff.mp hr
    obtain ⟨hstay, hprinted⟩ := stays_step hline hs (fun he => has (by rw [he]; exact List.mem_cons_self)) hu
    rw [stays_run hline hstay (fun h => has (List.mem_cons_of_mem a h)) hr, hprinted]

/-- **The lines in order.** Over every run: what is printed are the lines of those
who connected first, each once; all who have connected can have theirs printed; and
while the server reads from a client, it can print more without that client exactly
if the client has written. -/
theorem printed_in_order (hline : ∀ i, (0 : UInt8) ∉ line i) (s : State ι) (h : (system buf line).Reachable s) :
    s.connected.Nodup ∧ s.printed = (s.connected.take s.printed.length).map (fun i => some (message (line i))) ∧
    (∃ as t, (system buf line).run s as = some t ∧ t.printed = s.connected.map fun i => some (message (line i))) ∧
    ∀ i, s.pc = .read i →
      ((∃ as t, .client i ∉ as ∧ (system buf line).run s as = some t ∧ s.printed.length < t.printed.length) ↔
        s.client i ≠ .write) := by
  have hQ := reachable_queued hline h
  refine ⟨hQ.nodup, hQ.printed, ?_, fun i hpc => ⟨?_, fun hw => ?_⟩⟩
  · obtain ⟨as, t, hr, ⟨hQt, hconn⟩, hpc, hp⟩ := System.exists_run_done (M := system buf line)
      (I := fun u => Queued line u ∧ u.connected = s.connected) (D := fun u => u.pc = .accept ∧ u.pending = [])
      (fun u => left u + unwritten u) (fun u hu hd => by
        obtain ⟨a, t, hst, hconn, hlt⟩ := exists_next buf hline hu.1 hd
        exact ⟨a, t, hst, ⟨queued_step hline hu.1 hst, hconn.trans hu.2⟩, hlt⟩) s ⟨hQ, rfl⟩
    refine ⟨as, t, hr, ?_⟩
    have hall : t.connected.length ≤ t.printed.length := by
      rw [← List.drop_eq_nil_iff, hQt.waiting, hpc, hp]
      rfl
    rw [hQt.printed, List.take_of_length_le hall, hconn]
  · rintro ⟨as, t, has, hr, hlt⟩ hw
    rw [stays_run hline ⟨hpc, hw⟩ has hr] at hlt
    exact Nat.lt_irrefl _ hlt
  · have hc : s.client i = .gone (message (line i)) := (hQ.reads hpc).2.resolve_left hw
    refine ⟨[.server, .server], { s with
      pc := .close
      buf := Buf.zeros UInt8 size
      printed := s.printed ++ [print (recvfrom s.buf (message (line i))).chars] }, by simp, ?_, by simp⟩
    simp [System.run, system, step, server, hpc, hc]

/-- Two clients, with arrays of zeros. -/
abbrev two : System (State Bool) (Action Bool) := system (fun _ => Buf.zeros UInt8 size) Datagram.typed

/-- Both connect, and only the second one writes: the server waits for the first. -/
theorem printed_in_order_waits : ∃ s, two.run ⟨.accept, Buf.zeros UInt8 size, [], fun _ => .connect, [], []⟩
    [.client false, .client true, .client true, .server] = some s ∧
    (¬ ∃ as t, .client false ∉ as ∧ two.run s as = some t ∧ s.printed.length < t.printed.length) ∧
    ∃ as t, two.run s as = some t ∧ t.printed = [some [104, 105], some [111, 107]] := by
  have hrun : ∃ s, two.run ⟨.accept, Buf.zeros UInt8 size, [], fun _ => .connect, [], []⟩
      [.client false, .client true, .client true, .server] = some s ∧ s.pc = .read false ∧ s.client false = .write ∧
      s.connected = [false, true] := ⟨_, rfl, rfl, rfl, rfl⟩
  obtain ⟨s, hs, hpc, hc, hconn⟩ := hrun
  obtain ⟨-, -, ⟨as, t, hr, hprinted⟩, hwaits⟩ := @printed_in_order _ _ (fun _ : Bool => Buf.zeros UInt8 size)
    Datagram.typed (fun i => by cases i <;> decide) s (.of_run rfl hs)
  refine ⟨s, hs, fun hmore => (hwaits false hpc).mp hmore hc, as, t, hr, ?_⟩
  rw [hprinted, hconn]
  rfl

end Stream
end Autumn
