/-
# Ten threads on five listening sockets (`server models/4`)

`main` opens a listener on each of five ports and creates ten threads. Each of
them waits in `select` for any of the five, then goes through them in order:
from those that `select` found ready it accepts a connection, serves it and
goes on to the next, until it is back at `select`.

All ten watch the same five listeners. Below the limit on descriptors they are
a `Service`, so each client they accept is served once and whole, whatever the
order of the steps (`each_client_served`). But `accept` blocks, and what one thread
found ready another may have accepted meanwhile: a thread gets back to `select`
only if clients wait on all the listeners that are ahead of it. `rests_iff` is
what that means for the server: without new clients it comes to rest, with all threads
created, all served and a thread that watches the ports, exactly if there is such a
thread.

Key definitions: `server`, `State.view`, `Thread.ahead`, `Free`, `Rest`.
Key theorems: `step_view`, `simulates`, `each_client_served`, `not_free_step`,
`nearer`, `rests_iff`.
-/
import Mathlib.Algebra.BigOperators.Fin
import Mathlib.Algebra.Order.BigOperators.Group.Finset
import Autumn.Lib.Update
import Autumn.Server.Service

namespace Autumn
namespace Server
namespace Select

open Service (Hand Served Replied AllClosed Main Created update_comp_eq)

/-- The number of threads. -/
abbrev threads : ℕ := 10

/-- The number of listeners. -/
abbrev ports : ℕ := 5

/-- `BACKLOG` -/
abbrev backlog : ℕ := 5

/-- Where a thread is in `customer_service`: not created yet, before `select`,
before the body of the loop over the listeners for `i`, or before the named
call in it. -/
inductive Pc
  | absent
  | select
  | check (i : ℕ)
  | accept (i : Fin ports)
  | recv (i : Fin ports)
  | send (i : Fin ports)
  | close (i : Fin ports)
  deriving DecidableEq, Repr

/-- A thread with its locals. -/
structure Thread where
  pc : Pc
  readfds : Fin ports → Bool
  cfd : Fin ports → ℤ
  buf : Buf UInt8 bufSize

/-- The process; `waiting i` clients have connected to listener `i` and are not
accepted. -/
structure State where
  fds : Fds Desc
  main : Main
  waiting : Fin ports → ℕ
  t : Fin threads → Thread
  accepted : List (Fin threads × ℤ)
  log : List (Event (Fin threads))

/-- `main` takes its next step, a thread does (`data` is what arrives at its
`recv`), or a client connects to listener `i`. -/
inductive Action
  | main
  | thread (w : Fin threads) (data : List UInt8)
  | connect (i : Fin ports)
  deriving DecidableEq, Repr

/-- Thread `w` is now as `x`. -/
def State.setThread (s : State) (w : Fin threads) (x : Thread) : State :=
  { s with t := Function.update s.t w x }

/-- Thread `w` makes a call on its descriptor of listener `i`. -/
def State.record (s : State) (w : Fin threads) (c : Call) (i : Fin ports) (bytes : List UInt8) : State :=
  { s with log := s.log ++ [⟨w, c, (s.t w).cfd i, look s.fds ((s.t w).cfd i), bytes⟩] }

/-- The next step of `main`. -/
def main (s : State) : Option State :=
  match s.main with
  | .create i =>
    if h : i < threads then
      some { s.setThread ⟨i, h⟩ { s.t ⟨i, h⟩ with pc := .select } with main := .create (i + 1) }
    else some { s with main := .getchar }
  | .getchar => some { s with main := .exited }
  | .exited => none

/-- The next step of thread `w`, with room for `openMax` descriptors. -/
def customer_service (openMax : ℕ) (s : State) (w : Fin threads) (data : List UInt8) : Option State :=
  let x := s.t w
  match x.pc with
  | .absent => none
  | .select =>
    -- the listeners that are ready, or none of them after two seconds
    some (s.setThread w { x with
      readfds := fun i => decide (0 < s.waiting i)
      pc := if ∃ i, 0 < s.waiting i then .check 0 else .select })
  | .check i =>
    if h : i < ports then
      some (s.setThread w { x with pc := if x.readfds ⟨i, h⟩ then .accept ⟨i, h⟩ else .check (i + 1) })
    else some (s.setThread w { x with pc := .select })
  | .accept i =>
    if s.waiting i = 0 then none
    else
      match s.fds.lowestFree openMax with
      | some cfd =>
        some { s.setThread w { x with cfd := Function.update x.cfd i cfd, pc := .recv i } with
          fds := s.fds.put cfd (.conn s.accepted.length)
          waiting := Function.update s.waiting i (s.waiting i - 1)
          accepted := s.accepted ++ [(w, (cfd : ℤ))] }
      -- `EMFILE`, which is not looked at
      | none => some (s.setThread w { x with cfd := Function.update x.cfd i (-1), pc := .recv i })
  | .recv i =>
    (receive x.buf data).map fun buf => (s.record w .recv i data).setThread w { x with buf, pc := .send i }
  | .send i =>
    -- with the `memset` after it
    some ((s.record w .send i x.buf.chars).setThread w
      { x with buf := Buf.zeros UInt8 bufSize, pc := .close i })
  | .close i =>
    some { (s.record w .close i []).setThread w { x with pc := .check (i + 1) } with
      fds := shut s.fds (x.cfd i) }

def step (openMax : ℕ) (s : State) (a : Action) : Option State :=
  if s.main = .exited then none
  else
    match a with
    | .main => main s
    | .thread w data => customer_service openMax s w data
    | .connect i =>
      if s.waiting i < backlog then some { s with waiting := Function.update s.waiting i (s.waiting i + 1) }
      else none

/-- The descriptors open when the threads are about to be created: the standard
ones and what `create_socket` returned for the five ports. -/
def initFds : Fds Desc := fun n => if n < 3 then some .std else if n < 3 + ports then some .listener else none

/-- All runs of the server; `buf` is what the threads' buffers hold at first. -/
def server (openMax : ℕ) (buf : Fin threads → Buf UInt8 bufSize) : System State Action where
  init s := s.fds = initFds ∧ s.main = .create 0 ∧ (∀ i, s.waiting i = 0) ∧ (∀ w, (s.t w).pc = .absent) ∧
    (∀ w, (s.t w).buf = buf w) ∧ s.accepted = [] ∧ s.log = []
  step := step openMax

/-! ### The threads as a service -/

/-- What a thread has in hand. -/
def Thread.hand (x : Thread) : Hand :=
  match x.pc with
  | .absent | .select | .check _ | .accept _ => .free
  | .recv i => .recv (x.cfd i)
  | .send i => .send (x.cfd i)
  | .close i => .close (x.cfd i)

/-- What the threads do with connections. -/
def State.view (s : State) : Service.State (Fin threads) where
  fds := s.fds
  hand := Thread.hand ∘ s.t
  buf := Thread.buf ∘ s.t
  accepted := s.accepted
  log := s.log

theorem update_buf (t : Fin threads → Thread) (w : Fin threads) :
    Function.update (Thread.buf ∘ t) w (t w).buf = Thread.buf ∘ t :=
  update_comp_eq Thread.buf t w rfl

/-- A thread that has nothing in hand before and after, and keeps its buffer. -/
theorem view_setThread {s : State} {w : Fin threads} {x : Thread} (hx : x.hand = (s.t w).hand)
    (hb : x.buf = (s.t w).buf) : (s.setThread w x).view = s.view := by
  simp only [State.view, State.setThread, Function.comp_update]
  rw [update_comp_eq Thread.hand _ _ hx, hb, update_buf]

theorem view_init {openMax : ℕ} {buf : Fin threads → Buf UInt8 bufSize} {s : State}
    (h : (server openMax buf).init s) : (Service.service (3 + ports) openMax buf).init s.view := by
  obtain ⟨hf, -, -, hw, hb, ha, hl⟩ := h
  refine ⟨fun n hn => ?_, fun w => ?_, funext hb, ha, hl⟩
  · by_contra h8
    apply hn
    show s.fds n = none
    rw [hf, initFds, if_neg (by omega), if_neg h8]
  · show (s.t w).hand = .free
    rw [Thread.hand, hw w]

/-- Thread `w` has not been created yet. -/
def State.absent (s : State) (w : Fin threads) : Prop := (s.t w).pc = .absent

theorem absent_setThread (s : State) {v w : Fin threads} (x : Thread) (h : v ≠ w) :
    (s.setThread w x).absent v ↔ s.absent v := by
  simp only [State.absent, State.setThread, Function.update_of_ne h]

theorem absent_setThread_self (s : State) (w : Fin threads) {x : Thread} (h : x.pc ≠ .absent) :
    ¬ (s.setThread w x).absent w := by
  simp only [State.absent, State.setThread, Function.update_self]
  exact h

theorem created_init {openMax : ℕ} {buf : Fin threads → Buf UInt8 bufSize} {s : State}
    (h : (server openMax buf).init s) : Created s.main s.absent := by
  obtain ⟨-, hm, -, hw, -⟩ := h
  rw [hm]
  exact Service.created_zero hw

theorem created_setThread {s : State} (h : Created s.main s.absent) {w : Fin threads} {p : Pc} {x : Thread}
    (hp : (s.t w).pc = p) (hne : p ≠ .absent) (hx : x.pc ≠ .absent) : Created s.main (s.setThread w x).absent :=
  h.keep (fun h => hne (hp.symm.trans h)) (absent_setThread_self s w hx) fun _ hv => absent_setThread s x hv

theorem created_step {openMax : ℕ} {s t : State} {a : Action} (hc : Created s.main s.absent)
    (h : step openMax s a = some t) : Created t.main t.absent := by
  simp only [step] at h
  split at h
  · cases h
  cases a with
  | main =>
    simp only [main] at h
    split at h
    · rename_i i hm
      rw [hm] at hc
      split at h
      · rename_i hi
        cases h
        exact hc.create hi (absent_setThread_self s _ nofun) fun w hw => absent_setThread s _ hw
      · rename_i hi
        cases h
        exact hc.getchar hi
    · rename_i hm
      cases h
      exact (hm ▸ hc).exit
    · cases h
  | connect i =>
    simp only at h
    split at h
    · cases h
      exact hc
    · cases h
  | thread w data =>
    simp only [customer_service] at h
    split at h
    · cases h
    · rename_i hp
      cases h
      exact created_setThread hc hp nofun (by dsimp only; split <;> nofun)
    · rename_i i hp
      split at h
      · cases h
        exact created_setThread hc hp nofun (by dsimp only; split <;> nofun)
      · cases h
        exact created_setThread hc hp nofun nofun
    · rename_i i hp
      split at h
      · cases h
      split at h
      · cases h
        exact created_setThread hc hp nofun nofun
      · cases h
        exact created_setThread hc hp nofun nofun
    · rename_i i hp
      obtain ⟨buf, -, rfl⟩ := Option.map_eq_some_iff.mp h
      exact created_setThread hc hp nofun nofun
    · rename_i i hp
      cases h
      exact created_setThread hc hp nofun nofun
    · rename_i i hp
      cases h
      exact created_setThread hc hp nofun nofun

/-- **A step of the server** is one of the service, or nothing to it. -/
theorem step_view {openMax : ℕ} (hmax : 3 + ports + threads ≤ openMax) {s t : State} {a : Action}
    (hc : Created s.main s.absent) (hI : Service.Inv (3 + ports) s.view) (h : step openMax s a = some t) :
    t.view = s.view ∨ ∃ b, Service.step openMax s.view b = some t.view := by
  simp only [step] at h
  split at h
  · cases h
  cases a with
  | main =>
    left
    simp only [main] at h
    split at h
    · split at h
      · rename_i i hm hi
        cases h
        have hp : (s.t ⟨i, hi⟩).pc = .absent := (hc _).mpr ⟨i, hm, le_rfl⟩
        exact view_setThread (s := s) (w := ⟨i, hi⟩) (x := { s.t ⟨i, hi⟩ with pc := .select })
          (by simp only [Thread.hand, hp]) rfl
      · cases h
        rfl
    · cases h
      rfl
    · cases h
  | connect i =>
    simp only at h
    split at h
    · cases h
      exact .inl rfl
    · cases h
  | thread w data =>
    simp only [customer_service] at h
    split at h
    · cases h
    · rename_i hp
      cases h
      refine .inl (view_setThread ?_ rfl)
      by_cases hr : ∃ i, 0 < s.waiting i
      · simp only [Thread.hand, hp, if_pos hr]
      · simp only [Thread.hand, hp, if_neg hr]
    · rename_i i hp
      split at h
      · rename_i hi
        cases h
        refine .inl (view_setThread ?_ rfl)
        by_cases hr : (s.t w).readfds ⟨i, hi⟩ = true
        · simp only [Thread.hand, hp, if_pos hr]
        · simp only [Thread.hand, hp, if_neg hr]
      · cases h
        exact .inl (view_setThread (by simp only [Thread.hand, hp]) rfl)
    · rename_i i hp
      right
      have hfree : s.view.hand w = .free := by simp only [State.view, Function.comp_apply, Thread.hand, hp]
      obtain ⟨cfd, hcfd⟩ := Service.exists_accept hI hfree (by simpa using hmax)
      have hcfd' : s.fds.lowestFree openMax = some cfd := hcfd
      rw [hcfd'] at h
      split at h
      · cases h
      cases h
      refine ⟨.accept w, ?_⟩
      simp only [Service.step, hfree, hcfd, Option.map_some]
      simp only [State.view, State.setThread, Function.comp_update, update_buf, Thread.hand, Function.update_self]
    · rename_i i hp
      right
      have hrecv : s.view.hand w = .recv ((s.t w).cfd i) := by
        simp only [State.view, Function.comp_apply, Thread.hand, hp]
      obtain ⟨buf, hbuf, rfl⟩ := Option.map_eq_some_iff.mp h
      have hbuf' : receive (s.view.buf w) data = some buf := hbuf
      refine ⟨.recv w data, ?_⟩
      simp only [Service.step, hrecv, hbuf', Option.map_some]
      simp only [State.view, State.setThread, State.record, Function.comp_update, Service.State.record]
      rfl
    · rename_i i hp
      right
      have hsend : s.view.hand w = .send ((s.t w).cfd i) := by
        simp only [State.view, Function.comp_apply, Thread.hand, hp]
      cases h
      refine ⟨.send w, ?_⟩
      simp only [Service.step, hsend]
      simp only [State.view, State.setThread, State.record, Function.comp_update, Service.State.record]
      rfl
    · rename_i i hp
      right
      have hclose : s.view.hand w = .close ((s.t w).cfd i) := by
        simp only [State.view, Function.comp_apply, Thread.hand, hp]
      cases h
      refine ⟨.close w, ?_⟩
      simp only [Service.step, hclose]
      simp only [State.view, State.setThread, State.record, Function.comp_update, Service.State.record, update_buf]
      rfl

/-- **The threads are a service**, whatever the order of their steps. -/
theorem simulates {openMax : ℕ} (hmax : 3 + ports + threads ≤ openMax) (buf : Fin threads → Buf UInt8 bufSize) :
    System.Sim (server openMax buf) (fun _ _ => True) (Service.service (3 + ports) openMax buf)
      (fun s u => u = s.view ∧ Created s.main s.absent) where
  init s h := ⟨s.view, view_init h, rfl, created_init h⟩
  step s u a t hu hR _ h := by
    obtain ⟨rfl, hc⟩ := hR
    have hct := created_step hc h
    rcases step_view hmax hc (Service.reachable_inv hu) h with hv | ⟨b, hb⟩
    · exact ⟨[], s.view, rfl, hv.symm, hct⟩
    · exact ⟨[b], t.view, by rw [System.run_single]; exact hb, rfl, hct⟩

theorem reachable_view {openMax : ℕ} (hmax : 3 + ports + threads ≤ openMax)
    {buf : Fin threads → Buf UInt8 bufSize} {s : State} (h : (server openMax buf).Reachable s) :
    (Service.service (3 + ports) openMax buf).Reachable s.view ∧ Created s.main s.absent := by
  obtain ⟨u, hu, rfl, hc⟩ := (simulates hmax buf).reach h
  exact ⟨hu, hc⟩

/-! ### What is ahead of a thread -/

/-- The thread calls `accept` on listener `i` before it is back at `select`. -/
def Thread.ahead (x : Thread) (i : Fin ports) : Prop :=
  match x.pc with
  | .absent | .select => False
  | .check k => k ≤ i.val ∧ x.readfds i = true
  | .accept k => i = k ∨ k < i ∧ x.readfds i = true
  | .recv k | .send k | .close k => k < i ∧ x.readfds i = true

instance decidableAhead : ∀ (x : Thread) (i : Fin ports), Decidable (x.ahead i)
  | ⟨.absent, _, _, _⟩, _ => inferInstanceAs (Decidable False)
  | ⟨.select, _, _, _⟩, _ => inferInstanceAs (Decidable False)
  | ⟨.check k, readfds, _, _⟩, i => inferInstanceAs (Decidable (k ≤ i.val ∧ readfds i = true))
  | ⟨.accept k, readfds, _, _⟩, i => inferInstanceAs (Decidable (i = k ∨ k < i ∧ readfds i = true))
  | ⟨.recv k, readfds, _, _⟩, i => inferInstanceAs (Decidable (k < i ∧ readfds i = true))
  | ⟨.send k, readfds, _, _⟩, i => inferInstanceAs (Decidable (k < i ∧ readfds i = true))
  | ⟨.close k, readfds, _, _⟩, i => inferInstanceAs (Decidable (k < i ∧ readfds i = true))

/-- Clients wait on all the listeners ahead of the thread. -/
def Free (s : State) (w : Fin threads) : Prop := ∀ i, (s.t w).ahead i → 0 < s.waiting i

instance (s : State) (w : Fin threads) : Decidable (Free s w) := inferInstanceAs (Decidable (∀ _, _))

/-- How many clients have connected. -/
def clients (s : State) : ℕ := s.accepted.length + ∑ i, s.waiting i

/-- All threads have been created, all that connected are accepted and served, and a
thread watches the ports. -/
structure Rest (s : State) : Prop where
  created : ∀ w, (s.t w).pc ≠ .absent
  accepted : ∀ i, s.waiting i = 0
  served : AllClosed s.view
  watches : ∃ w, (s.t w).pc = .select

theorem free_of_select {s : State} {w : Fin threads} (h : (s.t w).pc = .select) : Free s w := by
  intro i hi
  simp [Thread.ahead, h] at hi

/-- A thread's own step: what it still has ahead of it, of the listeners on which
nobody waits. -/
theorem ahead_setThread {s : State} {w : Fin threads} {x : Thread}
    (h : ∀ i, (s.t w).ahead i → s.waiting i = 0 → x.ahead i) (v : Fin threads) (i : Fin ports)
    (hi : (s.t v).ahead i) (h0 : s.waiting i = 0) : ((s.setThread w x).t v).ahead i := by
  rw [State.setThread]
  by_cases hv : v = w
  · subst hv
    simp only [Function.update_self]
    exact h i hi h0
  · simp only [Function.update_of_ne hv]
    exact hi

/-- Of `accept`: one client less waits. -/
theorem sum_waiting_accept {waiting : Fin ports → ℕ} {i : Fin ports} (h : waiting i ≠ 0) :
    ∑ j, Function.update waiting i (waiting i - 1) j + 1 = ∑ j, waiting j := by
  have hsum : ∑ j, Function.update waiting i (waiting i - 1) j + waiting i = ∑ j, waiting j + (waiting i - 1) :=
    sum_update id waiting i (waiting i - 1)
  omega

theorem waiting_accept_le (waiting : Fin ports → ℕ) (i j : Fin ports) :
    Function.update waiting i (waiting i - 1) j ≤ waiting j := by
  by_cases hj : j = i
  · subst hj
    simp
  · rw [Function.update_of_ne hj]

/-- **What a step does to what is ahead**: a listener on which nobody waits stays
ahead of a thread, unless a client connects. -/
theorem step_ahead {openMax : ℕ} {s t : State} {a : Action} (hc : Created s.main s.absent)
    (h : step openMax s a = some t) : clients t = clients s + 1 ∨ clients t = clients s ∧
      (∀ i, t.waiting i ≤ s.waiting i) ∧ ∀ w i, (s.t w).ahead i → s.waiting i = 0 → (t.t w).ahead i := by
  simp only [step] at h
  split at h
  · cases h
  cases a with
  | main =>
    right
    simp only [main] at h
    split at h
    · split at h
      · rename_i i hm hi
        cases h
        have hp : (s.t ⟨i, hi⟩).pc = .absent := (hc _).mpr ⟨i, hm, le_rfl⟩
        refine ⟨rfl, fun _ => le_rfl, ahead_setThread fun j hj => ?_⟩
        simp [Thread.ahead, hp] at hj
      · cases h
        exact ⟨rfl, fun _ => le_rfl, fun _ _ hj _ => hj⟩
    · cases h
      exact ⟨rfl, fun _ => le_rfl, fun _ _ hj _ => hj⟩
    · cases h
  | connect i =>
    left
    simp only at h
    split at h
    · cases h
      have hsum : ∑ j, Function.update s.waiting i (s.waiting i + 1) j + s.waiting i =
          ∑ j, s.waiting j + (s.waiting i + 1) := sum_update id s.waiting i (s.waiting i + 1)
      simp only [clients]
      omega
    · cases h
  | thread w data =>
    right
    simp only [customer_service] at h
    split at h
    · cases h
    · rename_i hp
      cases h
      refine ⟨rfl, fun _ => le_rfl, ahead_setThread fun j hj => ?_⟩
      simp [Thread.ahead, hp] at hj
    · rename_i k hp
      split at h
      · rename_i hk
        cases h
        refine ⟨rfl, fun _ => le_rfl, ahead_setThread fun j hj _ => ?_⟩
        simp only [Thread.ahead, hp] at hj
        by_cases hr : (s.t w).readfds ⟨k, hk⟩ = true
        · simp only [Thread.ahead, if_pos hr]
          refine (Nat.eq_or_lt_of_le hj.1).imp (fun h => Fin.ext h.symm) fun h => ⟨h, hj.2⟩
        · simp only [Thread.ahead, if_neg hr]
          refine ⟨Nat.lt_of_le_of_ne hj.1 ?_, hj.2⟩
          rintro rfl
          exact hr hj.2
      · rename_i hk
        cases h
        refine ⟨rfl, fun _ => le_rfl, ahead_setThread fun j hj _ => ?_⟩
        simp only [Thread.ahead, hp] at hj
        have := j.isLt
        omega
    · rename_i k hp
      split at h
      · cases h
      rename_i hk
      have hahead : ∀ (x : Thread), x.pc = .recv k → x.readfds = (s.t w).readfds →
          ∀ j, (s.t w).ahead j → s.waiting j = 0 → x.ahead j := by
        intro x hx hr j hj h0
        simp only [Thread.ahead, hp, hx, hr] at hj ⊢
        refine hj.resolve_left ?_
        rintro rfl
        exact hk h0
      split at h
      · cases h
        refine ⟨?_, waiting_accept_le s.waiting k, ahead_setThread (hahead _ rfl rfl)⟩
        have := sum_waiting_accept hk
        simp only [clients, List.length_append, List.length_singleton]
        omega
      · cases h
        exact ⟨rfl, fun _ => le_rfl, ahead_setThread (hahead _ rfl rfl)⟩
    · rename_i k hp
      obtain ⟨buf, -, rfl⟩ := Option.map_eq_some_iff.mp h
      refine ⟨rfl, fun _ => le_rfl, ahead_setThread (s := s) fun j hj _ => ?_⟩
      simpa only [Thread.ahead, hp] using hj
    · rename_i k hp
      cases h
      refine ⟨rfl, fun _ => le_rfl, ahead_setThread (s := s) fun j hj _ => ?_⟩
      simpa only [Thread.ahead, hp] using hj
    · rename_i k hp
      cases h
      refine ⟨rfl, fun _ => le_rfl, ahead_setThread (s := s) fun j hj _ => ?_⟩
      simp only [Thread.ahead, hp] at hj ⊢
      exact hj

/-- Without a new client, a thread that is not free does not become free. -/
theorem not_free_step {openMax : ℕ} {s t : State} {a : Action} (hc : Created s.main s.absent)
    (h : step openMax s a = some t) (hclients : clients t = clients s) {w : Fin threads} (hw : ¬ Free s w) :
    ¬ Free t w := by
  obtain hnew | ⟨-, hle, hahead⟩ := step_ahead hc h
  · omega
  simp only [Free, not_forall, not_lt, nonpos_iff_eq_zero] at hw ⊢
  obtain ⟨i, hi, h0⟩ := hw
  exact ⟨i, hahead w i hi h0, Nat.eq_zero_of_le_zero (h0 ▸ hle i)⟩

theorem not_free_run {openMax : ℕ} {buf : Fin threads → Buf UInt8 bufSize} {s t : State} {as : List Action}
    (hc : Created s.main s.absent) (hw : ∀ w, ¬ Free s w) (hr : (server openMax buf).run s as = some t)
    (hclients : clients t = clients s) (w : Fin threads) : ¬ Free t w := by
  let I (u : State) : Prop := Created u.main u.absent ∧
    (clients s < clients u ∨ clients u = clients s ∧ ∀ w, ¬ Free u w)
  have hI : I t := by
    refine System.run_invariant (M := server openMax buf) (I := I) (fun u a v ⟨hcu, hu⟩ hst => ?_)
      ⟨hc, .inr ⟨rfl, hw⟩⟩ hr
    refine ⟨created_step hcu hst, ?_⟩
    have hle := step_ahead hcu hst
    rcases hu with hlt | ⟨heq, hfree⟩
    · exact .inl (by omega)
    · by_cases hv : clients v = clients u
      · exact .inr ⟨hv.trans heq, fun w => not_free_step hcu hst hv (hfree w)⟩
      · exact .inl (by omega)
  obtain ⟨-, hlt | ⟨-, hfree⟩⟩ := hI
  · omega
  · exact hfree w

/-! ### Getting back to `select` -/

/-- How far the thread is from `select` at most: below 90 if it has listeners
ahead of it, which it comes to by itself and where a client pays for what follows;
above if it goes straight back. -/
def Thread.phase (x : Thread) : ℕ :=
  match x.pc with
  | .absent => 300
  | .select => 90
  | .check k => if ∃ i : Fin ports, k ≤ i.val ∧ x.readfds i = true then 2 * (ports - k) + 1 else 100 + (ports - k)
  | .accept k => 2 * (ports - k)
  | .recv _ => 113
  | .send _ => 112
  | .close _ => 111

/-- The steps it takes at most until all is served and thread `w` is at
`select`. -/
def work (w : Fin threads) (s : State) : ℕ :=
  200 * ∑ i, s.waiting i + (s.t w).phase + ∑ v, (s.t v).hand.left + s.main.left threads

theorem phase_check_le (x : Thread) (k : ℕ) : ({ x with pc := .check k } : Thread).phase ≤ 105 := by
  simp only [Thread.phase, ports]
  split
  · omega
  · omega

theorem work_update (w : Fin threads) {s t : State} {v : Fin threads} {x : Thread}
    (ht : t.t = Function.update s.t v x) :
    work w t + 200 * ∑ i, s.waiting i + s.main.left threads + (s.t v).hand.left +
        (if w = v then (s.t w).phase else 0) =
      work w s + 200 * ∑ i, t.waiting i + t.main.left threads + x.hand.left + (if w = v then x.phase else 0) := by
  have hsum : ∑ u, (Function.update s.t v x u).hand.left + (s.t v).hand.left = ∑ u, (s.t u).hand.left + x.hand.left :=
    sum_update (fun x : Thread => x.hand.left) s.t v x
  have hphase : (t.t w).phase + (if w = v then (s.t w).phase else 0) =
      (s.t w).phase + if w = v then x.phase else 0 := by
    rw [ht]
    by_cases hwv : w = v
    · subst hwv
      rw [Function.update_self, if_pos rfl, if_pos rfl, Nat.add_comm]
    · rw [Function.update_of_ne hwv, if_neg hwv, if_neg hwv]
  unfold work
  rw [ht] at hphase ⊢
  omega

/-- A step of `main` or of a thread that brings thread `w` nearer to `select`. -/
def Nearer (openMax : ℕ) (w : Fin threads) (s t : State) : Prop :=
  (∃ a, step openMax s a = some t) ∧ t.main ≠ .exited ∧ clients t = clients s ∧ Free t w ∧ work w t < work w s

theorem nearer_call (openMax : ℕ) {s : State} (hrun : s.main ≠ .exited) {w v : Fin threads} (hw : Free s w)
    (hv : (s.t v).hand ≠ .free) : ∃ t, Nearer openMax w s t := by
  suffices ∃ t x, step openMax s (.thread v []) = some t ∧ t.t = Function.update s.t v x ∧
      x.hand.left + 1 = (s.t v).hand.left ∧ x.phase ≤ (s.t v).phase ∧ (∀ i, x.ahead i → (s.t v).ahead i) ∧
      t.main = s.main ∧ t.waiting = s.waiting ∧ t.accepted = s.accepted by
    obtain ⟨t, x, hst, ht, hleft, hphase, hahead, hm, hwait, hacc⟩ := this
    refine ⟨t, ⟨_, hst⟩, hm ▸ hrun, by rw [clients, clients, hwait, hacc], fun i hi => ?_, ?_⟩
    · rw [hwait]
      rw [ht] at hi
      by_cases hwv : w = v
      · subst hwv
        rw [Function.update_self] at hi
        exact hw i (hahead i hi)
      · rw [Function.update_of_ne hwv] at hi
        exact hw i hi
    · have hwork := work_update w ht
      rw [hm, hwait] at hwork
      split at hwork
      · rename_i hwv
        subst hwv
        omega
      · omega
  simp only [step, if_neg hrun, customer_service]
  split
  · rename_i hp
    simp [Thread.hand, hp] at hv
  · rename_i hp
    simp [Thread.hand, hp] at hv
  · rename_i k hp
    simp [Thread.hand, hp] at hv
  · rename_i k hp
    simp [Thread.hand, hp] at hv
  · rename_i k hp
    rw [receive_nil]
    refine ⟨_, _, rfl, rfl, by simp [Thread.hand, hp, Hand.left], by simp [Thread.phase, hp], fun i hi => ?_, rfl, rfl, rfl⟩
    simpa only [Thread.ahead, hp] using hi
  · rename_i k hp
    refine ⟨_, _, rfl, rfl, by simp [Thread.hand, hp, Hand.left], by simp [Thread.phase, hp], fun i hi => ?_, rfl, rfl, rfl⟩
    simpa only [Thread.ahead, hp] using hi
  · rename_i k hp
    refine ⟨_, _, rfl, rfl, by simp [Thread.hand, hp, Hand.left], ?_, fun i hi => ?_, rfl, rfl, rfl⟩
    · refine (phase_check_le _ _).trans ?_
      simp [Thread.phase, hp]
    · simp only [Thread.ahead, hp] at hi ⊢
      exact hi

theorem nearer_create (openMax : ℕ) {s : State} (hc : Created s.main s.absent) {w v : Fin threads} (hw : Free s w)
    (hv : (s.t v).pc = .absent) : ∃ t, Nearer openMax w s t := by
  obtain ⟨i, hm, hi⟩ := (hc v).mp hv
  have hlt : i < threads := hi.trans_lt v.isLt
  have hpi : (s.t ⟨i, hlt⟩).pc = .absent := (hc _).mpr ⟨i, hm, le_rfl⟩
  refine ⟨{ s.setThread ⟨i, hlt⟩ { s.t ⟨i, hlt⟩ with pc := .select } with main := .create (i + 1) }, ⟨.main, ?_⟩,
    nofun, rfl, fun j hj => ?_, ?_⟩
  · simp only [step, main, hm, reduceCtorEq, if_false, dif_pos hlt]
  · by_cases hwi : w = ⟨i, hlt⟩
    · simp only [State.setThread, ← hwi, Function.update_self, Thread.ahead] at hj
    · simp only [State.setThread, Function.update_of_ne hwi] at hj
      exact hw j hj
  · have hwork := @work_update w s
      { s.setThread ⟨i, hlt⟩ { s.t ⟨i, hlt⟩ with pc := .select } with main := .create (i + 1) } _ _ rfl
    have hx : ({ s.t ⟨i, hlt⟩ with pc := .select } : Thread).phase = 90 := rfl
    have hh : ({ s.t ⟨i, hlt⟩ with pc := .select } : Thread).hand = .free := rfl
    have hleft : (s.t ⟨i, hlt⟩).hand = .free := by simp only [Thread.hand, hpi]
    rw [hx, hh, hleft, hm] at hwork
    simp only [Main.left, State.setThread, Hand.left, threads] at hwork hlt ⊢
    by_cases hwi : w = ⟨i, hlt⟩
    · have hold : (s.t w).phase = 300 := by simp only [hwi, Thread.phase, hpi]
      rw [if_pos hwi, if_pos hwi, hold] at hwork
      omega
    · rw [if_neg hwi, if_neg hwi] at hwork
      omega

/-- A step of thread `w` itself that accepts nothing. -/
theorem nearer_own {openMax : ℕ} {s : State} (hrun : s.main ≠ .exited) {w : Fin threads} {x : Thread}
    (hst : step openMax s (.thread w []) = some (s.setThread w x)) (hfree : (s.t w).hand = .free)
    (hh : x.hand = .free) (hahead : ∀ i, x.ahead i → 0 < s.waiting i) (hphase : x.phase < (s.t w).phase) :
    ∃ t, Nearer openMax w s t := by
  refine ⟨_, ⟨_, hst⟩, hrun, rfl, fun i hi => ?_, ?_⟩
  · simp only [State.setThread, Function.update_self] at hi
    exact hahead i hi
  · have hwork := @work_update w s (s.setThread w x) _ _ rfl
    rw [if_pos rfl, if_pos rfl, hfree, hh] at hwork
    simp only [State.setThread] at hwork ⊢
    omega

theorem nearer_check (openMax : ℕ) {s : State} (hrun : s.main ≠ .exited) {w : Fin threads} (hw : Free s w) {k : ℕ}
    (hp : (s.t w).pc = .check k) : ∃ t, Nearer openMax w s t := by
  have hfree : (s.t w).hand = .free := by simp only [Thread.hand, hp]
  have hphase : (s.t w).phase = if ∃ i : Fin ports, k ≤ i.val ∧ (s.t w).readfds i = true then 2 * (ports - k) + 1
      else 100 + (ports - k) := by simp only [Thread.phase, hp]
  have hahead : ∀ i : Fin ports, k ≤ i.val → (s.t w).readfds i = true → 0 < s.waiting i := by
    intro i hi hr
    apply hw i
    simp only [Thread.ahead, hp]
    exact ⟨hi, hr⟩
  by_cases hk : k < ports
  · by_cases hr : (s.t w).readfds ⟨k, hk⟩ = true
    · refine nearer_own hrun (x := { s.t w with pc := .accept ⟨k, hk⟩ }) ?_ hfree rfl (fun i hi => ?_) ?_
      · simp only [step, if_neg hrun, customer_service, hp, dif_pos hk, if_pos hr]
      · simp only [Thread.ahead] at hi
        rcases hi with rfl | ⟨hlt, hri⟩
        · exact hahead _ le_rfl hr
        · exact hahead i hlt.le hri
      · rw [hphase, if_pos ⟨⟨k, hk⟩, le_rfl, hr⟩]
        simp [Thread.phase]
    · refine nearer_own hrun (x := { s.t w with pc := .check (k + 1) }) ?_ hfree rfl (fun i hi => ?_) ?_
      · simp only [step, if_neg hrun, customer_service, hp, dif_pos hk, if_neg hr]
      · simp only [Thread.ahead] at hi
        exact hahead i (by omega) hi.2
      · have hiff : (∃ i : Fin ports, k + 1 ≤ i.val ∧ (s.t w).readfds i = true) ↔
            ∃ i : Fin ports, k ≤ i.val ∧ (s.t w).readfds i = true := by
          refine exists_congr fun i => and_congr_left fun hri => ⟨fun h => by omega, fun h => ?_⟩
          refine Nat.lt_of_le_of_ne h ?_
          rintro rfl
          exact hr hri
        rw [hphase]
        simp only [Thread.phase, hiff, ports] at hk ⊢
        split
        · omega
        · omega
  · refine nearer_own hrun (x := { s.t w with pc := .select }) ?_ hfree rfl (fun i hi => ?_) ?_
    · simp only [step, if_neg hrun, customer_service, hp, dif_neg hk]
    · simp only [Thread.ahead] at hi
    · rw [hphase, if_neg]
      · simp only [Thread.phase]
        omega
      · rintro ⟨i, hi, -⟩
        exact hk (hi.trans_lt i.isLt)

theorem nearer_accept {openMax : ℕ} (hmax : 3 + ports + threads ≤ openMax) {s : State}
    (hI : Service.Inv (3 + ports) s.view) (hrun : s.main ≠ .exited) {w : Fin threads} (hw : Free s w)
    {k : Fin ports} (hp : (s.t w).pc = .accept k) : ∃ t, Nearer openMax w s t := by
  have hfree : (s.t w).hand = .free := by simp only [Thread.hand, hp]
  obtain ⟨cfd, hcfd⟩ := Service.exists_accept hI hfree (by simpa using hmax)
  have hcfd' : s.fds.lowestFree openMax = some cfd := hcfd
  have hk : s.waiting k ≠ 0 := by
    refine (hw k ?_).ne'
    simp only [Thread.ahead, hp, true_or]
  have hsum := sum_waiting_accept hk
  set t : State := { s.setThread w { s.t w with cfd := Function.update (s.t w).cfd k cfd, pc := .recv k } with
      fds := s.fds.put cfd (.conn s.accepted.length)
      waiting := Function.update s.waiting k (s.waiting k - 1)
      accepted := s.accepted ++ [(w, (cfd : ℤ))] } with ht
  have hst : step openMax s (.thread w []) = some t := by
    simp only [step, if_neg hrun, customer_service, hp, if_neg hk, hcfd', ht]
  refine ⟨t, ⟨_, hst⟩, hrun, ?_, fun i hi => ?_, ?_⟩
  · simp only [clients, ht, List.length_append, List.length_singleton]
    omega
  · simp only [ht, State.setThread, Function.update_self, Thread.ahead] at hi
    have hik : i ≠ k := hi.1.ne'
    have hwi : 0 < s.waiting i := by
      apply hw i
      simp only [Thread.ahead, hp]
      exact .inr hi
    simp only [ht, Function.update_of_ne hik]
    exact hwi
  · have hwork := @work_update w s t w _ rfl
    have hold : (s.t w).phase ≤ 10 := by
      simp only [Thread.phase, hp, ports]
      omega
    have hm : t.main = s.main := rfl
    have hphase : ({ s.t w with cfd := Function.update (s.t w).cfd k cfd, pc := .recv k } : Thread).phase = 113 := rfl
    have hleft : ({ s.t w with cfd := Function.update (s.t w).cfd k cfd, pc := .recv k } : Thread).hand.left = 3 := rfl
    have hwait : ∑ i, t.waiting i + 1 = ∑ i, s.waiting i := hsum
    rw [if_pos rfl, if_pos rfl, hfree, hphase, hleft, hm] at hwork
    simp only [Hand.left] at hwork
    omega

/-- **Progress.** While a thread is free, some step brings it nearer to `select`,
until all threads are created and all is served. -/
theorem nearer {openMax : ℕ} (hmax : 3 + ports + threads ≤ openMax) {s : State} (hc : Created s.main s.absent)
    (hI : Service.Inv (3 + ports) s.view) (hrun : s.main ≠ .exited) {w : Fin threads} (hw : Free s w)
    (h : ¬ Rest s) : ∃ t, Nearer openMax w s t := by
  by_cases hcreated : ∀ v, (s.t v).pc ≠ .absent
  · by_cases hhands : ∀ v, (s.t v).hand = .free
    · have hfree := hhands w
      cases hp : (s.t w).pc with
      | absent => exact absurd hp (hcreated w)
      | select =>
        have hready : ∃ i, 0 < s.waiting i := by
          by_contra hno
          simp only [not_exists, not_lt, nonpos_iff_eq_zero] at hno
          exact h ⟨hcreated, hno, hI.allClosed hhands, w, hp⟩
        refine nearer_own hrun (x := { s.t w with readfds := fun i => decide (0 < s.waiting i), pc := .check 0 }) ?_
          hfree rfl (fun i hi => ?_) ?_
        · simp only [step, if_neg hrun, customer_service, hp, if_pos hready]
        · simp only [Thread.ahead, decide_eq_true_eq] at hi
          exact hi.2
        · obtain ⟨i, hi⟩ := hready
          simp only [Thread.phase, hp]
          rw [if_pos ⟨i, Nat.zero_le _, decide_eq_true hi⟩]
          decide
      | check k => exact nearer_check openMax hrun hw hp
      | accept k => exact nearer_accept hmax hI hrun hw hp
      | recv k => simp [Thread.hand, hp] at hfree
      | send k => simp [Thread.hand, hp] at hfree
      | close k => simp [Thread.hand, hp] at hfree
    · obtain ⟨v, hv⟩ := not_forall.mp hhands
      exact nearer_call openMax hrun hw hv
  · push Not at hcreated
    obtain ⟨v, hv⟩ := hcreated
    exact nearer_create openMax hc hw hv

/-- **The clients a thread accepts are served once, whole, by that thread**, which
replies as the loop over its clients does by itself. -/
theorem each_client_served (openMax : ℕ) (hmax : 3 + ports + threads ≤ openMax)
    (buf : Fin threads → Buf UInt8 bufSize) (s : State) (h : (server openMax buf).Reachable s) :
    Served s.view ∧ ∀ w, Replied buf s.view w := by
  obtain ⟨hu, -⟩ := reachable_view hmax h
  exact ⟨(Service.reachable_inv hu).served, Service.reachable_replied hu⟩

/-- The server as it starts, with zeros for the threads' locals. -/
def start : State :=
  ⟨initFds, .create 0, fun _ => 0, fun _ => ⟨.absent, fun _ => false, fun _ => 0, Buf.zeros UInt8 bufSize⟩, [], []⟩

theorem start_init : (server 64 fun _ => Buf.zeros UInt8 bufSize).init start :=
  ⟨rfl, rfl, fun _ => rfl, fun _ => rfl, fun _ => rfl, rfl, rfl⟩

/-- The threads are created, a client connects, and `w` receives from it. -/
def oneClient (w : Fin threads) (i : Fin ports) : List Action :=
  List.replicate 11 .main ++ .connect i :: List.replicate 6 (.thread w [104])

theorem each_client_served_oneClient : ∃ s, (server 64 fun _ => Buf.zeros UInt8 bufSize).run start (oneClient 3 2) = some s ∧
    s.accepted = [(3, 8)] ∧ Served s.view := by
  have hrun : ∃ s, (server 64 fun _ => Buf.zeros UInt8 bufSize).run start (oneClient 3 2) = some s ∧
      s.accepted = [(3, 8)] := ⟨_, rfl, rfl⟩
  obtain ⟨s, hs, ha⟩ := hrun
  exact ⟨s, hs, ha, (each_client_served 64 (by decide) _ s (.of_run start_init hs)).1⟩

/-- **Without new clients the server comes to rest**, with all threads created, all
served and a thread at `select`, exactly if clients wait on all the listeners ahead of
some thread. -/
theorem rests_iff (openMax : ℕ) (hmax : 3 + ports + threads ≤ openMax) (buf : Fin threads → Buf UInt8 bufSize)
    (s : State) (h : (server openMax buf).Reachable s) (hrun : s.main ≠ .exited) :
    (∃ as t, (server openMax buf).run s as = some t ∧ clients t = clients s ∧ Rest t) ↔ ∃ w, Free s w := by
  constructor
  · rintro ⟨as, t, hr, hclients, hrest⟩
    obtain ⟨w, hw⟩ := hrest.watches
    by_contra hno
    obtain ⟨-, hc⟩ := reachable_view hmax h
    exact not_free_run hc (fun v hv => hno ⟨v, hv⟩) hr hclients w (free_of_select hw)
  · rintro ⟨w, hw⟩
    let I (t : State) : Prop := (server openMax buf).Reachable t ∧ t.main ≠ .exited ∧ clients t = clients s ∧ Free t w
    obtain ⟨as, t, hr, ⟨-, -, hclients, -⟩, hd⟩ := System.exists_run_done (M := server openMax buf) (I := I)
      (D := Rest) (work w) (fun u ⟨hu, hmu, hcu, hfu⟩ hd => by
        obtain ⟨hview, hc⟩ := reachable_view hmax hu
        obtain ⟨t, ⟨a, hst⟩, hmt, hct, hft, hlt⟩ := nearer hmax hc (Service.reachable_inv hview) hmu hfu hd
        exact ⟨a, t, hst, ⟨.step hu trivial hst, hmt, hct.trans hcu, hft⟩, hlt⟩) s ⟨h, hrun, rfl, hw⟩
    exact ⟨as, t, hr, hclients, hd⟩

/-- A client of `q`, then one of `p`: `y` sees the first alone, the other threads
both. `y` serves the first and comes back for the second, which `x` serves, and
all ten are in `accept` on `p` or `q` when a client connects to `r`. -/
def overtaken (x y : Fin threads) (others : List (Fin threads)) (p q r : Fin ports) : List Action :=
  List.replicate 11 .main ++ [.connect q, .thread y [], .connect p] ++ (x :: others).map (.thread · []) ++
    List.replicate 12 (.thread y []) ++ List.replicate 6 (.thread x []) ++ others.map (.thread · []) ++ [.connect r]

/-- The last client is not served, whatever the threads do. -/
theorem rests_iff_overtaken :
    ∃ s, (server 64 fun _ => Buf.zeros UInt8 bufSize).run start (overtaken 0 1 [2, 3, 4, 5, 6, 7, 8, 9] 0 1 2) = some s ∧
      0 < s.waiting 2 ∧ ¬ ∃ as t, (server 64 fun _ => Buf.zeros UInt8 bufSize).run s as = some t ∧
        clients t = clients s ∧ Rest t := by
  have hrun : ((server 64 fun _ => Buf.zeros UInt8 bufSize).run start (overtaken 0 1 [2, 3, 4, 5, 6, 7, 8, 9] 0 1 2)).any
      (fun s => decide (0 < s.waiting 2 ∧ s.main ≠ .exited ∧ ∀ w, ¬ Free s w)) = true := by decide +kernel
  obtain ⟨s, hs, hdec⟩ := (Option.any_eq_true _ _).mp hrun
  obtain ⟨hwait, hm, hfree⟩ := of_decide_eq_true hdec
  refine ⟨s, hs, hwait, fun h => ?_⟩
  obtain ⟨w, hw⟩ := (rests_iff 64 (by decide) _ s (.of_run start_init hs) hm).mp h
  exact hfree w hw

end Select
end Server
end Autumn
