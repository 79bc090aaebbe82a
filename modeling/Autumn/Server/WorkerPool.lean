/-
# The worker pool fed by a message queue (`server models/3`)

`main` accepts a connection, packs its descriptor into one `char` of a
two-byte message and sends it to a queue of ten messages; ten workers receive
the messages, widen the `char` back to an `int` and serve that descriptor. A
step is one call of `main` or of a worker; the calls on the queue block.

The packing loses nothing because no descriptor ever exceeds 25: those in use
when `accept` is called are the first five, at most ten that wait in the queue
and at most ten that workers hold (`accepted_small`). So the queue carries the
accepted descriptors themselves, and each connection gets its three calls from
the one worker that took it.

`accepted` and `taken` record, in order, the descriptors `accept` returned and
the workers that received a message; the queue being FIFO, the `k`-th entries
of both are about the `k`-th connection.

Key definitions: `pool`, `Served`, `Inv`, `work`.
Key theorems: `step_moves`, `inv_step`, `accepted_small`, `Inv.served`,
`progress`, `served_once`.
-/
import Mathlib.Algebra.BigOperators.Fin
import Mathlib.Algebra.Order.BigOperators.Group.Finset
import Mathlib.Data.Fintype.Basic
import Autumn.Lib.System
import Autumn.Lib.Update
import Autumn.Server.Common

namespace Autumn
namespace Server
namespace WorkerPool

/-- The number of worker threads. -/
abbrev threads : ℕ := 10

/-- `mes_attr.mq_maxmsg` -/
abbrev maxmsg : ℕ := 10

/-- A message, `char[2]`. -/
abbrev Message := Int8 × Int8

/-- Where a worker is in `customer_service`: not created yet, or before the
named call. -/
inductive Pc
  | absent
  | receive
  | recv
  | send
  | close
  deriving DecidableEq, Repr

/-- A worker with its locals. -/
structure Worker where
  pc : Pc
  message : Message
  cfd : ℤ
  buf : Buf UInt8 bufSize

/-- Where `main` is: before creating thread `i`, before `accept`, or before
`mq_send` with `cfd` accepted. -/
inductive Main
  | create (i : ℕ)
  | accept
  | send (cfd : ℤ)
  deriving DecidableEq, Repr

structure State where
  fds : Fds Desc
  main : Main
  queue : List Message
  workers : Fin threads → Worker
  accepted : List ℤ
  taken : List (Fin threads)
  log : List (Event (Fin threads))

/-- `main` takes its next step, or a worker does; `data` is what arrives at
its `recv`. -/
inductive Action
  | main
  | worker (w : Fin threads) (data : List UInt8)
  deriving DecidableEq, Repr

/-- Worker `w` is now as `x`. -/
def State.setWorker (s : State) (w : Fin threads) (x : Worker) : State :=
  { s with workers := Function.update s.workers w x }

/-- Worker `w` makes a call on its descriptor. -/
def State.record (s : State) (w : Fin threads) (c : Call) (bytes : List UInt8) : State :=
  { s with log := s.log ++ [⟨w, c, (s.workers w).cfd, look s.fds (s.workers w).cfd, bytes⟩] }

/-- The next step of `main`, with room for `openMax` descriptors. -/
def main (openMax : ℕ) (s : State) : Option State :=
  match s.main with
  | .create i =>
    if h : i < threads then
      some { s.setWorker ⟨i, h⟩ { s.workers ⟨i, h⟩ with pc := .receive } with main := .create (i + 1) }
    else some { s with main := .accept }
  | .accept =>
    (s.fds.lowestFree openMax).map fun cfd =>
      { s with
        fds := s.fds.put cfd (.conn s.accepted.length)
        accepted := s.accepted ++ [(cfd : ℤ)]
        main := .send cfd }
  | .send cfd =>
    -- `s[0] = (char) cfd; s[1] = 0;`
    if s.queue.length < maxmsg then
      some { s with queue := s.queue ++ [(Int8.ofInt cfd, 0)], main := .accept }
    else none

/-- The next step of worker `w`. -/
def customer_service (s : State) (w : Fin threads) (data : List UInt8) : Option State :=
  match (s.workers w).pc with
  | .absent => none
  | .receive =>
    match s.queue with
    | [] => none
    | message :: queue =>
      some { s.setWorker w { s.workers w with message, cfd := message.1.toInt, pc := .recv } with
        queue, taken := s.taken ++ [w] }
  | .recv =>
    (receive (s.workers w).buf data).map fun buf =>
      (s.record w .recv data).setWorker w { s.workers w with buf, pc := .send }
  | .send =>
    -- with the `memset` after it
    some ((s.record w .send (s.workers w).buf.chars).setWorker w
      { s.workers w with buf := Buf.zeros UInt8 bufSize, pc := .close })
  | .close =>
    some { (s.record w .close []).setWorker w { s.workers w with pc := .receive } with
      fds := shut s.fds (s.workers w).cfd }

def step (openMax : ℕ) (s : State) : Action → Option State
  | .main => main openMax s
  | .worker w data => customer_service s w data

/-- The descriptors open when the threads are about to be created: the
standard ones, the queue and the listening socket. -/
def initFds : Fds Desc := fun n =>
  if n < 3 then some .std else if n = 3 then some .queue else if n = 4 then some .listener else none

/-- All runs of the server; the workers' locals are not initialised. -/
def pool (openMax : ℕ) : System State Action where
  init s := s.fds = initFds ∧ s.main = .create 0 ∧ s.queue = [] ∧ (∀ w, (s.workers w).pc = .absent) ∧
    s.accepted = [] ∧ s.taken = [] ∧ s.log = []
  step := step openMax

/-! ### What is claimed -/

/-- The descriptor `main` has accepted and not sent. -/
def Main.held : Main → List ℤ
  | .send cfd => [cfd]
  | _ => []

@[simp] theorem held_create (i : ℕ) : (Main.create i).held = [] := rfl

@[simp] theorem held_accept : Main.accept.held = [] := rfl

@[simp] theorem held_send (cfd : ℤ) : (Main.send cfd).held = [cfd] := rfl

/-- How many of its three calls on the connection it holds a worker has made. -/
def Pc.made : Pc → Option ℕ
  | .absent | .receive => none
  | .recv => some 0
  | .send => some 1
  | .close => some 2

/-- Worker `w` holds connection `k`, with `n` calls on it made, and reaches it
under the descriptor value that was accepted. -/
structure Holds (s : State) (w : Fin threads) (k n : ℕ) : Prop where
  made : (s.workers w).pc.made = some n
  taken : s.taken[k]? = some w
  accepted : s.accepted[k]? = some (s.workers w).cfd
  open_ : look s.fds (s.workers w).cfd = some (.conn k)
  calls : calls s.log k = (script w (s.workers w).cfd).take n

/-- Every connection is served once, whole, by one worker, through the
descriptor value accepted. -/
structure Served (s : State) : Prop where
  /-- What is accepted and not taken is in the queue, in order, or held by
  `main`: nothing is lost, duplicated or changed on the way. -/
  pending : s.queue.map (fun m => m.1.toInt) ++ s.main.held = s.accepted.drop s.taken.length
  taken_le : s.taken.length ≤ s.accepted.length
  /-- A connection taken has had its whole script from the worker that took
  it, or that worker is in the middle of it and the descriptor is still its. -/
  taken : ∀ k w fd, s.taken[k]? = some w → s.accepted[k]? = some fd →
    calls s.log k = script w fd ∨ ∃ n, Holds s w k n
  /-- A worker between `mq_receive` and `close` holds a connection. -/
  busy : ∀ w n, (s.workers w).pc.made = some n → ∃ k, Holds s w k n
  /-- No worker touches a connection that no worker has taken. -/
  untouched : ∀ k, s.taken.length ≤ k → calls s.log k = []
  /-- No worker calls on anything but a connection. -/
  conns : ∀ e ∈ s.log, ∃ k, e.on = some (.conn k)

/-- Every connection accepted has been taken and has had its whole script. -/
def AllClosed (s : State) : Prop :=
  s.taken.length = s.accepted.length ∧
    ∀ k w fd, s.taken[k]? = some w → s.accepted[k]? = some fd → calls s.log k = script w fd

/-! ### What a step can do -/

/-- The step, with what it needs. -/
inductive Moves (openMax : ℕ) (s : State) : Action → State → Prop
  | create (i : ℕ) (h : i < threads) : s.main = .create i →
      Moves openMax s .main
        { s.setWorker ⟨i, h⟩ { s.workers ⟨i, h⟩ with pc := .receive } with main := .create (i + 1) }
  | created (i : ℕ) : s.main = .create i → threads ≤ i →
      Moves openMax s .main { s with main := .accept }
  | accept (cfd : ℕ) : s.main = .accept → s.fds.lowestFree openMax = some cfd →
      Moves openMax s .main
        { s with
          fds := s.fds.put cfd (.conn s.accepted.length)
          accepted := s.accepted ++ [(cfd : ℤ)]
          main := .send cfd }
  | queue (cfd : ℤ) : s.main = .send cfd → s.queue.length < maxmsg →
      Moves openMax s .main { s with queue := s.queue ++ [(Int8.ofInt cfd, 0)], main := .accept }
  | take (w : Fin threads) (data : List UInt8) (m : Message) (q : List Message) :
      (s.workers w).pc = .receive → s.queue = m :: q →
      Moves openMax s (.worker w data)
        { s.setWorker w { s.workers w with message := m, cfd := m.1.toInt, pc := .recv } with
          queue := q, taken := s.taken ++ [w] }
  | call (w : Fin threads) (data bytes : List UInt8) (n : ℕ) (c : Call) (x : Worker) :
      (s.workers w).pc.made = some n → x.pc.made = some (n + 1) → x.cfd = (s.workers w).cfd →
      (script w x.cfd)[n]? = some (w, c, x.cfd) →
      Moves openMax s (.worker w data) ((s.record w c bytes).setWorker w x)
  | close (w : Fin threads) (data : List UInt8) : (s.workers w).pc = .close →
      Moves openMax s (.worker w data)
        { (s.record w .close []).setWorker w { s.workers w with pc := .receive } with
          fds := shut s.fds (s.workers w).cfd }

theorem step_moves {openMax : ℕ} {s s' : State} {a : Action} (h : step openMax s a = some s') :
    Moves openMax s a s' := by
  cases a with
  | main =>
    simp only [step, main] at h
    split at h
    · rename_i i hm
      split at h
      · rename_i hi
        cases h
        exact .create i hi hm
      · cases h
        exact .created i hm (by omega)
    · rename_i hm
      obtain ⟨cfd, hcfd, rfl⟩ := Option.map_eq_some_iff.mp h
      exact .accept cfd hm hcfd
    · rename_i cfd hm
      split at h
      · rename_i hq
        cases h
        exact .queue cfd hm hq
      · cases h
  | worker w data =>
    simp only [step, customer_service] at h
    split at h
    · cases h
    · rename_i hp
      split at h
      · cases h
      · rename_i m q hq
        cases h
        exact .take w data m q hp hq
    · rename_i hp
      obtain ⟨buf, -, rfl⟩ := Option.map_eq_some_iff.mp h
      exact .call w data data 0 .recv _ (by rw [hp]; rfl) rfl rfl rfl
    · rename_i hp
      cases h
      exact .call w data _ 1 .send _ (by rw [hp]; rfl) rfl rfl rfl
    · rename_i hp
      cases h
      exact .close w data hp

/-! ### The invariant -/

structure Inv (s : State) : Prop where
  served : Served s
  queue_le : s.queue.length ≤ maxmsg
  small : ∀ fd ∈ s.accepted, 0 ≤ fd ∧ fd < 128
  /-- What is not taken is open. -/
  open_ : ∀ k fd, s.taken.length ≤ k → s.accepted[k]? = some fd → look s.fds fd = some (.conn k)
  /-- A descriptor in use is one of the first five, is not taken, or is held. -/
  table : ∀ n : ℕ, s.fds n ≠ none → n < 5 ∨ (n : ℤ) ∈ s.accepted.drop s.taken.length ∨
    ∃ w, (s.workers w).pc.made ≠ none ∧ (s.workers w).cfd = n
  absent : ∀ w, (s.workers w).pc = .absent ↔ ∃ i, s.main = .create i ∧ i ≤ w.val
  creating : ∀ i, s.main = .create i → s.accepted = []

theorem Holds.frame {s s' : State} {w : Fin threads} {k n : ℕ} (h : Holds s w k n)
    (hw : s'.workers w = s.workers w) (ht : s.taken <+: s'.taken) (ha : s.accepted <+: s'.accepted)
    (ho : look s'.fds (s.workers w).cfd = some (.conn k))
    (hc : Server.calls s'.log k = Server.calls s.log k) : Holds s' w k n where
  made := by rw [hw]; exact h.made
  taken := getElem?_of_prefix ht h.taken
  accepted := by rw [hw]; exact getElem?_of_prefix ha h.accepted
  open_ := by rw [hw]; exact ho
  calls := by rw [hw, hc]; exact h.calls

theorem Holds.ne {s : State} {w w' : Fin threads} {k k' n n' : ℕ} (h : Holds s w k n)
    (h' : Holds s w' k' n') (hne : w ≠ w') : k ≠ k' := by
  rintro rfl
  exact hne (Option.some.inj (h.taken.symm.trans h'.taken))

/-- A step that neither takes nor calls: `main`'s. -/
theorem Served.of_main {s s' : State} (h : Served s)
    (hw : ∀ w, (s'.workers w).pc.made = (s.workers w).pc.made)
    (hw' : ∀ w n, (s.workers w).pc.made = some n → s'.workers w = s.workers w)
    (ht : s'.taken = s.taken) (ha : s.accepted <+: s'.accepted) (hl : s'.log = s.log)
    (ho : ∀ fd d, look s.fds fd = some d → look s'.fds fd = some d)
    (hp : s'.queue.map (fun m => m.1.toInt) ++ s'.main.held = s'.accepted.drop s'.taken.length) :
    Served s' := by
  have hframe : ∀ w k n, Holds s w k n → Holds s' w k n := fun w k n hh =>
    hh.frame (hw' w n hh.made) (ht ▸ List.prefix_refl _) ha (ho _ _ hh.open_) (by rw [hl])
  refine ⟨hp, ?_, fun k w fd hk hfd => ?_, fun w n hn => ?_, fun k hk => ?_, ?_⟩
  · rw [ht]
    exact h.taken_le.trans ha.length_le
  · rw [ht] at hk
    have hlt : k < s.accepted.length := (List.getElem?_eq_some_iff.mp hk).1.trans_le h.taken_le
    have hfd0 := getElem?_of_prefix ha (List.getElem?_eq_getElem hlt)
    rw [hfd0] at hfd
    rw [hl]
    exact (h.taken k w fd hk (by rw [List.getElem?_eq_getElem hlt]; exact hfd)).imp_right
      fun ⟨n, hn⟩ => ⟨n, hframe w k n hn⟩
  · rw [hw] at hn
    obtain ⟨k, hk⟩ := h.busy w n hn
    exact ⟨k, hframe w k n hk⟩
  · rw [hl]
    exact h.untouched k (ht ▸ hk)
  · rw [hl]
    exact h.conns

/-- **The bound on the descriptors**: what `accept` returns is at most 25. -/
theorem accepted_small {openMax : ℕ} {s : State} (hI : Inv s) (hm : s.main = .accept) {cfd : ℕ}
    (h : s.fds.lowestFree openMax = some cfd) : cfd ≤ 25 := by
  set waiting := s.accepted.drop s.taken.length with hwaiting
  let used := Finset.range 5 ∪ (waiting.map Int.toNat).toFinset ∪
    Finset.univ.image fun w => (s.workers w).cfd.toNat
  have hused : ∀ n, s.fds n ≠ none → n ∈ used := by
    intro n hn
    simp only [used, Finset.mem_union, Finset.mem_range, List.mem_toFinset, List.mem_map,
      Finset.mem_image, Finset.mem_univ, true_and]
    rcases hI.table n hn with h5 | hq | ⟨w, -, hw⟩
    · exact .inl (.inl h5)
    · exact .inl (.inr ⟨n, hq, by simp⟩)
    · exact .inr ⟨w, by rw [hw]; simp⟩
  have hlen : waiting.length ≤ 10 := by
    rw [hwaiting, ← hI.served.pending, hm, held_accept, List.append_nil, List.length_map]
    exact hI.queue_le
  have h1 : (waiting.map Int.toNat).toFinset.card ≤ 10 :=
    (List.toFinset_card_le _).trans (by rw [List.length_map]; exact hlen)
  have h2 : (Finset.univ.image fun w => (s.workers w).cfd.toNat).card ≤ 10 :=
    Finset.card_image_le.trans (by simp)
  calc cfd ≤ used.card := Fds.lowestFree_le h hused
    _ ≤ (Finset.range 5).card + (waiting.map Int.toNat).toFinset.card +
        (Finset.univ.image fun w => (s.workers w).cfd.toNat).card :=
      (Finset.card_union_le _ _).trans (Nat.add_le_add_right (Finset.card_union_le _ _) _)
    _ ≤ 25 := by rw [Finset.card_range]; omega

/-- The passage through a `char` keeps a descriptor below 128. -/
theorem char_roundtrip {fd : ℤ} (h : 0 ≤ fd ∧ fd < 128) : (Int8.ofInt fd).toInt = fd :=
  Int8.toInt_ofInt_of_le (by omega) (by omega)

theorem inv_init {openMax : ℕ} {s : State} (h : (pool openMax).init s) : Inv s := by
  obtain ⟨hf, hm, hq, hw, ha, ht, hl⟩ := h
  refine ⟨⟨by simp [hq, hm, ha], by simp [ht], fun k w fd hk => by simp [ht] at hk,
    fun w n hn => by simp [hw, Pc.made] at hn, fun k _ => by rw [hl]; rfl, fun e he => by simp [hl] at he⟩,
    by simp [hq], by simp [ha], fun k fd _ hfd => by simp [ha] at hfd, fun n hn => .inl ?_,
    fun w => by simp [hw, hm], fun i _ => ha⟩
  by_contra h5
  exact hn (by rw [hf, initFds, if_neg (by omega), if_neg (by omega), if_neg (by omega)])

theorem inv_create {s : State} (hI : Inv s) {i : ℕ} (h : i < threads) (hm : s.main = .create i) :
    Inv { s.setWorker ⟨i, h⟩ { s.workers ⟨i, h⟩ with pc := .receive } with main := .create (i + 1) } := by
  have habs : (s.workers ⟨i, h⟩).pc = .absent := (hI.absent _).mpr ⟨i, hm, le_rfl⟩
  have hw : ∀ w, (Function.update s.workers ⟨i, h⟩ { s.workers ⟨i, h⟩ with pc := .receive } w).pc.made =
      (s.workers w).pc.made := by
    intro w
    by_cases hwi : w = ⟨i, h⟩
    · subst hwi
      rw [Function.update_self, habs]
      rfl
    · rw [Function.update_of_ne hwi]
  have hw' : ∀ w n, (s.workers w).pc.made = some n →
      Function.update s.workers ⟨i, h⟩ { s.workers ⟨i, h⟩ with pc := .receive } w = s.workers w := by
    intro w n hn
    refine Function.update_of_ne (fun hwi => ?_) _ _
    rw [hwi, habs] at hn
    cases hn
  refine ⟨hI.served.of_main hw hw' rfl (List.prefix_refl _) rfl (fun _ _ => id) ?_, hI.queue_le,
    hI.small, hI.open_, fun n hn => ?_, fun w => ?_, fun _ _ => hI.creating i hm⟩
  · have := hI.served.pending
    rw [hm] at this
    exact this
  · refine (hI.table n hn).imp_right (Or.imp_right ?_)
    rintro ⟨w, hb, hc⟩
    obtain ⟨m, hm⟩ := Option.ne_none_iff_exists'.mp hb
    exact ⟨w, fun h0 => hb ((hw w).symm.trans h0), (congrArg Worker.cfd (hw' w m hm)).trans hc⟩
  · have h0 := hI.absent w
    simp only [hm, Main.create.injEq, exists_eq_left'] at h0
    by_cases hwi : w = ⟨i, h⟩
    · subst hwi
      simp [State.setWorker]
    · have hne : w.val ≠ i := fun hv => hwi (Fin.ext hv)
      simp only [State.setWorker, Function.update_of_ne hwi, h0, Main.create.injEq, exists_eq_left']
      omega

theorem inv_created {s : State} (hI : Inv s) {i : ℕ} (hm : s.main = .create i) (hi : threads ≤ i) :
    Inv { s with main := .accept } := by
  refine ⟨hI.served.of_main (fun _ => rfl) (fun _ _ _ => rfl) rfl (List.prefix_refl _) rfl (fun _ _ => id) ?_,
    hI.queue_le, hI.small, hI.open_, hI.table, fun w => ?_, fun _ h => by cases h⟩
  · have := hI.served.pending
    rw [hm] at this
    exact this
  · rw [hI.absent w, hm]
    have := w.isLt
    simp only [Main.create.injEq, exists_eq_left', reduceCtorEq, false_and, exists_false, iff_false]
    omega

theorem inv_accept {openMax : ℕ} {s : State} (hI : Inv s) {cfd : ℕ} (hm : s.main = .accept)
    (h : s.fds.lowestFree openMax = some cfd) :
    Inv { s with
      fds := s.fds.put cfd (.conn s.accepted.length)
      accepted := s.accepted ++ [(cfd : ℤ)]
      main := .send cfd } := by
  have hfree : s.fds cfd = none := (Fds.lowestFree_spec.mp h).2.1
  have hsmall := accepted_small hI hm h
  have hkeep : ∀ fd d, look s.fds fd = some d →
      look (s.fds.put cfd (.conn s.accepted.length)) fd = some d := fun _ _ => look_put_of_look hfree _
  have hdrop : (s.accepted ++ [(cfd : ℤ)]).drop s.taken.length =
      s.accepted.drop s.taken.length ++ [(cfd : ℤ)] := List.drop_append_of_le_length hI.served.taken_le
  refine ⟨hI.served.of_main (fun _ => rfl) (fun _ _ _ => rfl) rfl (List.prefix_append _ _) rfl hkeep ?_,
    hI.queue_le, fun fd hfd => ?_, fun k fd hk hfd => ?_, fun n hn => ?_, fun w => ?_, fun _ h => by cases h⟩
  · have := hI.served.pending
    rw [hm, held_accept, List.append_nil] at this
    rw [hdrop, ← this]
    rfl
  · rcases List.mem_append.mp hfd with hfd | hfd
    · exact hI.small fd hfd
    · rw [List.mem_singleton.mp hfd]
      omega
  · rcases lt_or_ge k s.accepted.length with hlt | hge
    · rw [List.getElem?_append_left hlt] at hfd
      exact hkeep _ _ (hI.open_ k fd hk hfd)
    · have hk' : k = s.accepted.length := by
        have := (List.getElem?_eq_some_iff.mp hfd).1
        simp only [List.length_append, List.length_singleton] at this
        omega
      subst hk'
      rw [List.getElem?_concat_length] at hfd
      rw [← Option.some.inj hfd, look_put, if_pos rfl]
  · rw [hdrop, List.mem_append, List.mem_singleton]
    by_cases hnc : n = cfd
    · exact .inr (.inl (.inr (by rw [hnc])))
    · exact (hI.table n fun h0 => hn ((Fds.put_ne _ _ hnc).trans h0)).imp_right (Or.imp_left .inl)
  · rw [hI.absent w, hm]
    simp

theorem inv_queue {s : State} (hI : Inv s) {cfd : ℤ} (hm : s.main = .send cfd)
    (hq : s.queue.length < maxmsg) :
    Inv { s with queue := s.queue ++ [(Int8.ofInt cfd, 0)], main := .accept } := by
  have hp := hI.served.pending
  rw [hm, held_send] at hp
  have hmem : cfd ∈ s.accepted := List.mem_of_mem_drop (hp ▸ by simp : cfd ∈ s.accepted.drop s.taken.length)
  refine ⟨hI.served.of_main (fun _ => rfl) (fun _ _ _ => rfl) rfl (List.prefix_refl _) rfl (fun _ _ => id) ?_,
    ?_, hI.small, hI.open_, hI.table, fun w => ?_, fun _ h => by cases h⟩
  · rw [List.map_append, held_accept, List.append_nil, ← hp, List.map_singleton,
      char_roundtrip (hI.small cfd hmem)]
  · rw [List.length_append, List.length_singleton]
    exact hq
  · rw [hI.absent w, hm]
    simp

/-- A worker that runs before and after a step is not absent. -/
theorem Inv.absent_update {s s' : State} (hI : Inv s) {w : Fin threads} {x : Worker}
    (hw : s'.workers = Function.update s.workers w x) (hm : s'.main = s.main)
    (h0 : (s.workers w).pc ≠ .absent) (hx : x.pc ≠ .absent) (v : Fin threads) :
    (s'.workers v).pc = .absent ↔ ∃ i, s'.main = .create i ∧ i ≤ v.val := by
  rw [hw, hm]
  by_cases hv : v = w
  · subst hv
    rw [Function.update_self]
    exact (iff_of_false hx h0).trans (hI.absent v)
  · rw [Function.update_of_ne hv]
    exact hI.absent v

/-- The state after worker `w` has taken the message `m` from the queue. -/
def State.take (s : State) (w : Fin threads) (m : Message) (q : List Message) : State :=
  { s.setWorker w { s.workers w with message := m, cfd := m.1.toInt, pc := .recv } with
    queue := q, taken := s.taken ++ [w] }

theorem take_workers_self (s : State) (w : Fin threads) (m : Message) (q : List Message) :
    (s.take w m q).workers w = { s.workers w with message := m, cfd := m.1.toInt, pc := .recv } :=
  Function.update_self ..

theorem take_workers_ne (s : State) {v w : Fin threads} (hv : v ≠ w) (m : Message) (q : List Message) :
    (s.take w m q).workers v = s.workers v :=
  Function.update_of_ne hv ..

/-- The head of the queue is the first connection not taken, the rest are those
after it. -/
theorem Served.pending_cons {s : State} (h : Served s) {m : Message} {q : List Message} (hq : s.queue = m :: q) :
    s.accepted[s.taken.length]? = some m.1.toInt ∧
      q.map (fun m => m.1.toInt) ++ s.main.held = s.accepted.drop (s.taken.length + 1) := by
  have hpend := h.pending
  rw [hq, List.map_cons, List.cons_append] at hpend
  constructor
  · rw [← List.head?_drop, ← hpend]
    rfl
  · rw [← List.tail_drop, ← hpend]
    rfl

/-- A worker that takes holds the connection at the head of the queue. -/
theorem Inv.holds_take {s : State} (hI : Inv s) (w : Fin threads) {m : Message} {q : List Message}
    (hq : s.queue = m :: q) : Holds (s.take w m q) w s.taken.length 0 := by
  obtain ⟨hhead, -⟩ := hI.served.pending_cons hq
  refine ⟨by rw [take_workers_self]; rfl, List.getElem?_concat_length, by rw [take_workers_self]; exact hhead,
    ?_, hI.served.untouched _ le_rfl⟩
  rw [take_workers_self]
  exact hI.open_ _ _ le_rfl hhead

theorem Holds.take {s : State} {v w : Fin threads} {k n : ℕ} (h : Holds s v k n) (m : Message) (q : List Message)
    (hp : (s.workers w).pc = .receive) : v ≠ w ∧ Holds (s.take w m q) v k n := by
  have hv : v ≠ w := by
    rintro rfl
    have := h.made
    rw [hp] at this
    cases this
  exact ⟨hv, h.frame (take_workers_ne s hv m q) (List.prefix_append _ _) (List.prefix_refl _) h.open_ rfl⟩

theorem Inv.served_take {s : State} (hI : Inv s) {w : Fin threads} {m : Message} {q : List Message}
    (hp : (s.workers w).pc = .receive) (hq : s.queue = m :: q) : Served (s.take w m q) := by
  obtain ⟨hhead, hrest⟩ := hI.served.pending_cons hq
  have hlt : s.taken.length < s.accepted.length := (List.getElem?_eq_some_iff.mp hhead).1
  have hlen : (s.take w m q).taken.length = s.taken.length + 1 := List.length_append
  have hnew := hI.holds_take w hq
  refine ⟨?_, by rw [hlen]; exact hlt, fun k v fd hk hfd => ?_, fun v n hn => ?_, fun k hk => ?_,
    hI.served.conns⟩
  · rw [hlen]
    exact hrest
  · rcases lt_or_ge k s.taken.length with hkt | hkt
    · have hk' : s.taken[k]? = some v := (List.getElem?_append_left hkt).symm.trans hk
      exact (hI.served.taken k v fd hk' hfd).imp_right fun ⟨n, hn⟩ => ⟨n, (hn.take m q hp).2⟩
    · have hkt : k = s.taken.length := by
        have := (List.getElem?_eq_some_iff.mp hk).1
        omega
      subst hkt
      have hv : w = v := Option.some.inj (List.getElem?_concat_length.symm.trans hk)
      exact .inr ⟨0, hv ▸ hnew⟩
  · by_cases hv : v = w
    · subst hv
      rw [take_workers_self] at hn
      cases hn
      exact ⟨_, hnew⟩
    · rw [take_workers_ne s hv] at hn
      obtain ⟨k, hk⟩ := hI.served.busy v n hn
      exact ⟨k, (hk.take m q hp).2⟩
  · exact hI.served.untouched k (by omega)

theorem inv_take {s : State} (hI : Inv s) {w : Fin threads} {m : Message} {q : List Message}
    (hp : (s.workers w).pc = .receive) (hq : s.queue = m :: q) : Inv (s.take w m q) := by
  obtain ⟨hhead, hrest⟩ := hI.served.pending_cons hq
  have hlen : (s.take w m q).taken.length = s.taken.length + 1 := List.length_append
  refine ⟨hI.served_take hp hq, ?_, hI.small, fun k fd hk hfd => ?_, fun n hn => ?_,
    hI.absent_update rfl rfl (by simp [hp]) (by simp), hI.creating⟩
  · have := hI.queue_le
    rw [hq, List.length_cons] at this
    exact (Nat.le_succ _).trans this
  · exact hI.open_ k fd (by omega) hfd
  · refine (hI.table n hn).imp_right ?_
    rintro (hmem | ⟨v, hb, hc⟩)
    · rw [← hI.served.pending, hq] at hmem
      rcases List.mem_cons.mp hmem with hmem | hmem
      · exact .inr ⟨w, by rw [take_workers_self]; exact Option.some_ne_none 0,
          by rw [take_workers_self]; exact hmem.symm⟩
      · exact .inl (by rw [hlen]; exact hrest ▸ hmem)
    · obtain ⟨j, hj⟩ := Option.ne_none_iff_exists'.mp hb
      obtain ⟨i, hi⟩ := hI.served.busy v j hj
      have := take_workers_ne s (hi.take m q hp).1 m q
      exact .inr ⟨v, by rwa [this], by rwa [this]⟩

/-- What a worker's call on the connection it holds changes: afterwards it
holds it still, or was through with it. -/
structure Called (s s' : State) (w : Fin threads) (k n : ℕ) (x : Worker) (e : Event (Fin threads)) : Prop where
  holds : Holds s w k n
  workers : s'.workers = Function.update s.workers w x
  main : s'.main = s.main
  queue : s'.queue = s.queue
  accepted : s'.accepted = s.accepted
  taken : s'.taken = s.taken
  log : s'.log = s.log ++ [e]
  on : e.on = some (.conn k)
  keep : ∀ fd d, fd ≠ (s.workers w).cfd → look s.fds fd = some d → look s'.fds fd = some d
  done : (∃ m, Holds s' w k m) ∨ x.pc.made = none ∧ calls s'.log k = script w (s.workers w).cfd

section Called

variable {s s' : State} {w : Fin threads} {k n : ℕ} {x : Worker} {e : Event (Fin threads)}

theorem Called.calls_ne (h : Called s s' w k n x e) {j : ℕ} (hj : k ≠ j) :
    Server.calls s'.log j = Server.calls s.log j := by
  rw [h.log, calls_concat_of_ne h.on hj]

theorem Called.look_ne (h : Called s s' w k n x e) {fd : ℤ} {j : ℕ} (hj : k ≠ j)
    (hfd : look s.fds fd = some (.conn j)) : look s'.fds fd = some (.conn j) := by
  refine h.keep fd _ ?_ hfd
  rintro rfl
  exact hj (by simpa using h.holds.open_.symm.trans hfd)

theorem Called.frame (h : Called s s' w k n x e) {v : Fin threads} {j m : ℕ} (hv : v ≠ w) (hh : Holds s v j m) :
    Holds s' v j m := by
  have hj := h.holds.ne hh hv.symm
  exact hh.frame (by rw [h.workers, Function.update_of_ne hv]) (h.taken ▸ List.prefix_refl _)
    (h.accepted ▸ List.prefix_refl _) (h.look_ne hj hh.open_) (h.calls_ne hj)

theorem Called.served (h : Called s s' w k n x e) (hI : Inv s) : Served s' := by
  have hlt : k < s.taken.length := (List.getElem?_eq_some_iff.mp h.holds.taken).1
  refine ⟨by rw [h.queue, h.main, h.accepted, h.taken]; exact hI.served.pending,
    by rw [h.accepted, h.taken]; exact hI.served.taken_le, fun j v fd hj hfd => ?_, fun v m hmade => ?_,
    fun j hj => ?_, fun e' he' => ?_⟩
  · rw [h.taken] at hj
    rw [h.accepted] at hfd
    by_cases hjk : k = j
    · subst hjk
      obtain rfl : w = v := Option.some.inj (h.holds.taken.symm.trans hj)
      have hcfd : (s.workers w).cfd = fd := Option.some.inj (h.holds.accepted.symm.trans hfd)
      exact h.done.symm.imp_left fun hd => hcfd ▸ hd.2
    · rw [h.calls_ne hjk]
      refine (hI.served.taken j v fd hj hfd).imp_right fun ⟨m, hm⟩ => ⟨m, h.frame ?_ hm⟩
      rintro rfl
      -- one worker holds one connection
      exact hjk (by simpa using h.holds.open_.symm.trans hm.open_)
  · by_cases hv : v = w
    · subst hv
      rcases h.done with ⟨m', hm'⟩ | ⟨hnone, -⟩
      · obtain rfl : m' = m := Option.some.inj (hm'.made.symm.trans hmade)
        exact ⟨k, hm'⟩
      · rw [h.workers, Function.update_self, hnone] at hmade
        cases hmade
    · rw [h.workers, Function.update_of_ne hv] at hmade
      obtain ⟨j, hj⟩ := hI.served.busy v m hmade
      exact ⟨j, h.frame hv hj⟩
  · rw [h.taken] at hj
    rw [h.calls_ne (by omega)]
    exact hI.served.untouched j hj
  · rw [h.log] at he'
    rcases List.mem_append.mp he' with he' | he'
    · exact hI.served.conns e' he'
    · rw [List.mem_singleton.mp he']
      exact ⟨k, h.on⟩

theorem inv_worker (hI : Inv s) (h : Called s s' w k n x e) (hx : x.pc ≠ .absent)
    (htable : ∀ m : ℕ, s'.fds m ≠ none →
      s.fds m ≠ none ∧ ((s.workers w).cfd = m → x.pc.made ≠ none)) : Inv s' := by
  have hlt : k < s.taken.length := (List.getElem?_eq_some_iff.mp h.holds.taken).1
  have h0 : (s.workers w).pc ≠ .absent := fun h0 => by
    have := h.holds.made
    rw [h0] at this
    cases this
  refine ⟨h.served hI, by rw [h.queue]; exact hI.queue_le, by rw [h.accepted]; exact hI.small,
    fun j fd hj hfd => ?_, fun m hm0 => ?_, hI.absent_update h.workers h.main h0 hx,
    by rw [h.main, h.accepted]; exact hI.creating⟩
  · rw [h.taken] at hj
    rw [h.accepted] at hfd
    exact h.look_ne (by omega) (hI.open_ j fd hj hfd)
  · rw [h.accepted, h.taken]
    obtain ⟨hm1, hm2⟩ := htable m hm0
    refine (hI.table m hm1).imp_right (Or.imp_right ?_)
    rintro ⟨v, hb, hv⟩
    by_cases hvw : v = w
    · subst hvw
      refine ⟨v, by rw [h.workers, Function.update_self]; exact hm2 hv, ?_⟩
      rcases h.done with ⟨m', hm'⟩ | ⟨hnone, -⟩
      · have hacc := hm'.accepted
        rw [h.accepted, h.holds.accepted] at hacc
        rw [← Option.some.inj hacc, hv]
      · exact absurd hnone (hm2 hv)
    · have hsame : s'.workers v = s.workers v := by rw [h.workers, Function.update_of_ne hvw]
      exact ⟨v, by rwa [hsame], by rwa [hsame]⟩

end Called

theorem inv_call {s : State} (hI : Inv s) {w : Fin threads} {n : ℕ} {c : Call} {bytes : List UInt8}
    {x : Worker} (hn : (s.workers w).pc.made = some n) (hx : x.pc.made = some (n + 1))
    (hcfd : x.cfd = (s.workers w).cfd) (hc : (script w x.cfd)[n]? = some (w, c, x.cfd)) :
    Inv ((s.record w c bytes).setWorker w x) := by
  obtain ⟨k, hk⟩ := hI.served.busy w n hn
  rw [hcfd] at hc
  have hself : ((s.record w c bytes).setWorker w x).workers w = x := Function.update_self ..
  have hholds : Holds ((s.record w c bytes).setWorker w x) w k (n + 1) := by
    refine ⟨by rw [hself, hx], hk.taken, by rw [hself, hcfd]; exact hk.accepted,
      by rw [hself, hcfd]; exact hk.open_, ?_⟩
    rw [hself, hcfd]
    have := calls_concat_script bytes hk.calls hc
    rw [← hk.open_] at this
    exact this
  refine inv_worker hI ⟨hk, rfl, rfl, rfl, rfl, rfl, rfl, hk.open_, fun _ _ _ => id, .inl ⟨n + 1, hholds⟩⟩ ?_
    (fun m hm => ⟨hm, fun _ => ?_⟩)
  · intro h0
    rw [h0] at hx
    cases hx
  · rw [hx]
    exact Option.some_ne_none _

theorem inv_close {s : State} (hI : Inv s) {w : Fin threads} (hp : (s.workers w).pc = .close) :
    Inv { (s.record w .close []).setWorker w { s.workers w with pc := .receive } with
      fds := shut s.fds (s.workers w).cfd } := by
  obtain ⟨k, hk⟩ := hI.served.busy w 2 (by rw [hp]; rfl)
  refine inv_worker hI ⟨hk, rfl, rfl, rfl, rfl, rfl, rfl, hk.open_, fun fd d hfd hd => ?_, .inr ⟨rfl, ?_⟩⟩
    (by simp) (fun m hm => ?_)
  · exact (look_shut _ _ _).trans ((if_neg hfd).trans hd)
  · have := calls_concat_script [] hk.calls (show _ = some (w, Call.close, _) from rfl)
    rw [← hk.open_] at this
    exact this
  · have hm' : look (shut s.fds (s.workers w).cfd) m ≠ none := by rwa [look_natCast]
    rw [look_shut] at hm'
    split at hm'
    · exact absurd rfl hm'
    · rename_i hne
      rw [look_natCast] at hm'
      exact ⟨hm', fun h => absurd h.symm hne⟩

/-- **The step lemma.** -/
theorem inv_step {openMax : ℕ} {s s' : State} {a : Action} (hI : Inv s)
    (h : (pool openMax).step s a = some s') : Inv s' := by
  cases step_moves h with
  | create i hi hm => exact inv_create hI hi hm
  | created i hm hi => exact inv_created hI hm hi
  | accept cfd hm hcfd => exact inv_accept hI hm hcfd
  | queue cfd hm hq => exact inv_queue hI hm hq
  | take w data m q hp hq => exact inv_take hI hp hq
  | call w data bytes n c x hn hx hcfd hc => exact inv_call hI hn hx hcfd hc
  | close w data hp => exact inv_close hI hp

theorem reachable_inv {openMax : ℕ} {s : State} (h : (pool openMax).Reachable s) : Inv s :=
  h.invariant (I := Inv) (fun _ => inv_init) fun _ _ _ hI _ => inv_step hI

/-! ### Progress -/

/-- The calls a worker at `pc` still has to make. -/
def Pc.left (p : Pc) : ℕ := p.made.elim 0 fun n => 3 - n

theorem made_le {p : Pc} {n : ℕ} (h : p.made = some n) : n ≤ 2 := by
  cases p <;> simp [Pc.made] at h <;> omega

/-- The steps left until everything accepted is served. -/
def work (s : State) : ℕ :=
  5 * s.main.held.length + 4 * s.queue.length + ∑ w, (s.workers w).pc.left

theorem Inv.allClosed {s : State} (hI : Inv s) (hm : s.main.held = []) (hq : s.queue = [])
    (hb : ∀ w, (s.workers w).pc.made = none) : AllClosed s := by
  have hp := hI.served.pending
  rw [hm, hq, List.map_nil, List.append_nil, eq_comm, List.drop_eq_nil_iff] at hp
  refine ⟨le_antisymm hI.served.taken_le hp, fun k w fd hk hfd => ?_⟩
  refine (hI.served.taken k w fd hk hfd).resolve_right fun ⟨n, hn⟩ => ?_
  have := hn.made
  rw [hb w] at this
  cases this

/-- A step of a worker, or of `main` with a descriptor in hand, leaves less
work. -/
theorem Moves.work_lt {openMax : ℕ} {s t : State} {a : Action} (h : Moves openMax s a t)
    (hm : a = .main → s.main.held ≠ []) : t.accepted = s.accepted ∧ work t < work s := by
  cases h with
  | create i hi h => exact absurd (by rw [h, held_create]) (hm rfl)
  | created i h hi => exact absurd (by rw [h, held_create]) (hm rfl)
  | accept cfd h hcfd => exact absurd (by rw [h, held_accept]) (hm rfl)
  | queue cfd h hq =>
    refine ⟨rfl, ?_⟩
    simp [work, h]
    omega
  | take w data m q hp hq =>
    have := sum_update (·.pc.left) s.workers w { s.workers w with message := m, cfd := m.1.toInt, pc := .recv }
    have h0 : (s.workers w).pc.left = 0 := by rw [hp]; rfl
    have h3 : Pc.recv.left = 3 := rfl
    refine ⟨rfl, ?_⟩
    simp only [h0, h3] at this
    simp only [work, State.setWorker, hq, List.length_cons]
    omega
  | call w data bytes n c x hn hx hcfd hc =>
    have := sum_update (·.pc.left) s.workers w x
    have h0 : (s.workers w).pc.left = 3 - n := by rw [Pc.left, hn]; rfl
    have h1 : x.pc.left = 3 - (n + 1) := by rw [Pc.left, hx]; rfl
    have h2 := made_le hx
    refine ⟨rfl, ?_⟩
    simp only [work, State.setWorker, State.record]
    omega
  | close w data hp =>
    have := sum_update (·.pc.left) s.workers w { s.workers w with pc := .receive }
    have h1 : (s.workers w).pc.left = 1 := by rw [hp]; rfl
    have h0 : Pc.receive.left = 0 := rfl
    refine ⟨rfl, ?_⟩
    simp only [h0, h1] at this
    simp only [work, State.setWorker, State.record]
    omega

theorem exists_call {s : State} {w : Fin threads} (h : (s.workers w).pc.made ≠ none) :
    ∃ t, customer_service s w [] = some t := by
  unfold customer_service
  cases hp : (s.workers w).pc with
  | absent => rw [hp] at h; exact absurd rfl h
  | receive => rw [hp] at h; exact absurd rfl h
  | recv => exact ⟨_, by rw [receive_nil]; rfl⟩
  | send => exact ⟨_, rfl⟩
  | close => exact ⟨_, rfl⟩

theorem exists_take {s : State} {w : Fin threads} {m : Message} {q : List Message}
    (hp : (s.workers w).pc = .receive) (hq : s.queue = m :: q) : ∃ t, customer_service s w [] = some t := by
  unfold customer_service
  rw [hp, hq]
  exact ⟨_, rfl⟩

/-- A message waits, so the threads have been created: a worker that holds
nothing is at `mq_receive`. -/
theorem Inv.receive {s : State} (hI : Inv s) (hq : s.queue ≠ []) {w : Fin threads}
    (hmade : (s.workers w).pc.made = none) : (s.workers w).pc = .receive := by
  cases hp : (s.workers w).pc with
  | absent =>
    obtain ⟨i, hi, -⟩ := (hI.absent w).mp hp
    have := hI.served.pending
    rw [hI.creating i hi, List.drop_nil, List.append_eq_nil_iff, List.map_eq_nil_iff] at this
    exact absurd this.1 hq
  | receive => rfl
  | recv => rw [hp] at hmade; cases hmade
  | send => rw [hp] at hmade; cases hmade
  | close => rw [hp] at hmade; cases hmade

/-- **Progress.** Until all is served, some step that accepts nothing brings
it nearer. -/
theorem progress (openMax : ℕ) {s : State} (hI : Inv s) (h : ¬ AllClosed s) :
    ∃ a t, (pool openMax).step s a = some t ∧ t.accepted = s.accepted ∧ work t < work s := by
  suffices ∃ a t, step openMax s a = some t ∧ (a = .main → s.main.held ≠ []) by
    obtain ⟨a, t, ht, hm⟩ := this
    exact ⟨a, t, ht, (step_moves ht).work_lt hm⟩
  by_cases hb : ∀ w, (s.workers w).pc.made = none
  · rcases hq : s.queue with _ | ⟨m, q⟩
    · have hm : s.main.held ≠ [] := fun hm => h (hI.allClosed hm hq hb)
      cases hmain : s.main with
      | create i => rw [hmain] at hm; exact absurd rfl hm
      | accept => rw [hmain] at hm; exact absurd rfl hm
      | send cfd =>
        exact ⟨.main, _, by simp only [step, main, hmain]; rw [if_pos (by simp [hq])], fun _ => by simp⟩
    · have hp := hI.receive (hq ▸ List.cons_ne_nil m q) (hb 0)
      obtain ⟨t, ht⟩ := exists_take hp hq
      exact ⟨.worker 0 [], t, ht, fun h => by cases h⟩
  · obtain ⟨w, hw⟩ := not_forall.mp hb
    obtain ⟨t, ht⟩ := exists_call hw
    exact ⟨.worker w [], t, ht, fun h => by cases h⟩

/-- **The worker pool serves every connection exactly once.** In every
reachable state each accepted connection is on its way, unchanged and in
order, or has had its calls from the one worker that took it; and from every
reachable state a run that accepts nothing more gets all of them closed. -/
theorem served_once (openMax : ℕ) :
    (∀ s, (pool openMax).Reachable s → Served s) ∧
    ∀ s, (pool openMax).Reachable s → ∃ as t, (pool openMax).run s as = some t ∧
      t.accepted = s.accepted ∧ AllClosed t := by
  refine ⟨fun s h => (reachable_inv h).served, fun s h => ?_⟩
  obtain ⟨as, t, hr, ⟨-, ha⟩, hd⟩ := System.exists_run_done (I := fun t => Inv t ∧ t.accepted = s.accepted)
    work (fun u ⟨hI, ha⟩ hd => by
      obtain ⟨a, t, ht, hta, hlt⟩ := progress openMax hI hd
      exact ⟨a, t, ht, ⟨inv_step hI ht, hta.trans ha⟩, hlt⟩) s ⟨reachable_inv h, rfl⟩
  exact ⟨as, t, hr, ha, hd⟩

/-- The server as it starts, with zeros for the workers' locals. -/
def start : State :=
  ⟨initFds, .create 0, [], fun _ => ⟨.absent, (0, 0), 0, Buf.zeros UInt8 bufSize⟩, [], [], []⟩

/-- The threads are created and one client is accepted, queued and taken. -/
def oneClient : List Action := List.replicate 13 .main ++ [.worker 3 [], .worker 3 [104, 105]]

theorem served_once_oneClient : ∃ s, (pool 64).run start oneClient = some s ∧ s.accepted = [5] ∧ Served s ∧
    ∃ as t, (pool 64).run s as = some t ∧ t.accepted = [5] ∧ AllClosed t := by
  obtain ⟨h1, h2⟩ := served_once 64
  have h0 : (pool 64).init start := ⟨rfl, rfl, rfl, fun _ => rfl, rfl, rfl, rfl⟩
  have hrun : ∃ s, (pool 64).run start oneClient = some s ∧ s.accepted = [5] := ⟨_, rfl, rfl⟩
  obtain ⟨s, hs, ha⟩ := hrun
  obtain ⟨as, t, hr, hta, hc⟩ := h2 s (.of_run h0 hs)
  exact ⟨s, hs, ha, h1 s (.of_run h0 hs), as, t, hr, hta.trans ha, hc⟩

end WorkerPool
end Server
end Autumn
