/-
# Ten threads on one listening socket (`server models/2`)

`main` creates ten threads and then waits in `getchar`; when that returns, so
does `main`, and the process ends with its threads. Each thread accepts a
connection from the one listener, serves it and accepts again. A step is one
call of a thread, a step of `main`, or a client that connects.

Below the limit on descriptors `accept` never fails, so the threads are a
`Service` (`simulates`): each client is served once, whole, by one thread, and
gets what that thread's loop gives by itself. And no order of steps loses a
client: while the process runs, all threads can be created and all that wait be
served (`progress`).

Key definitions: `server`, `State.view`, `Drained`, `work`.
Key theorems: `step_view`, `simulates`, `progress`, `clients_served`.
-/
import Mathlib.Algebra.BigOperators.Fin
import Autumn.Lib.Update
import Autumn.Server.Service

namespace Autumn
namespace Server
namespace Preforked

open Service (Hand Served Replied AllClosed Main Created update_comp_eq)

/-- The number of threads. -/
abbrev threads : ℕ := 10

/-- `BACKLOG` -/
abbrev backlog : ℕ := 10

/-- Where a thread is in `customer_service`: not created yet, or before the
named call. -/
inductive Pc
  | absent
  | accept
  | recv
  | send
  | close
  deriving DecidableEq, Repr

/-- A thread with its locals. -/
structure Thread where
  pc : Pc
  cfd : ℤ
  buf : Buf UInt8 bufSize

/-- The process; `waiting` clients have connected and are not accepted. -/
structure State where
  fds : Fds Desc
  main : Main
  waiting : ℕ
  t : Fin threads → Thread
  accepted : List (Fin threads × ℤ)
  log : List (Event (Fin threads))

/-- `main` takes its next step, a thread does (`data` is what arrives at its
`recv`), or a client connects. -/
inductive Action
  | main
  | thread (w : Fin threads) (data : List UInt8)
  | connect
  deriving DecidableEq, Repr

/-- Thread `w` is now as `x`. -/
def State.setThread (s : State) (w : Fin threads) (x : Thread) : State :=
  { s with t := Function.update s.t w x }

/-- Thread `w` makes a call on its descriptor. -/
def State.record (s : State) (w : Fin threads) (c : Call) (bytes : List UInt8) : State :=
  { s with log := s.log ++ [⟨w, c, (s.t w).cfd, look s.fds (s.t w).cfd, bytes⟩] }

/-- The next step of `main`. -/
def main (s : State) : Option State :=
  match s.main with
  | .create i =>
    if h : i < threads then
      some { s.setThread ⟨i, h⟩ { s.t ⟨i, h⟩ with pc := .accept } with main := .create (i + 1) }
    else some { s with main := .getchar }
  | .getchar => some { s with main := .exited }
  | .exited => none

/-- The next step of thread `w`, with room for `openMax` descriptors. -/
def customer_service (openMax : ℕ) (s : State) (w : Fin threads) (data : List UInt8) : Option State :=
  match (s.t w).pc with
  | .absent => none
  | .accept =>
    if s.waiting = 0 then none
    else
      match s.fds.lowestFree openMax with
      | some cfd =>
        some { s.setThread w { s.t w with cfd, pc := .recv } with
          fds := s.fds.put cfd (.conn s.accepted.length)
          waiting := s.waiting - 1
          accepted := s.accepted ++ [(w, (cfd : ℤ))] }
      -- `EMFILE`, which is not looked at
      | none => some (s.setThread w { s.t w with cfd := -1, pc := .recv })
  | .recv =>
    (receive (s.t w).buf data).map fun buf =>
      (s.record w .recv data).setThread w { s.t w with buf, pc := .send }
  | .send =>
    -- with the `memset` after it
    some ((s.record w .send (s.t w).buf.chars).setThread w
      { s.t w with buf := Buf.zeros UInt8 bufSize, pc := .close })
  | .close =>
    some { (s.record w .close []).setThread w { s.t w with pc := .accept } with
      fds := shut s.fds (s.t w).cfd }

def step (openMax : ℕ) (s : State) (a : Action) : Option State :=
  if s.main = .exited then none
  else
    match a with
    | .main => main s
    | .thread w data => customer_service openMax s w data
    | .connect => if s.waiting < backlog then some { s with waiting := s.waiting + 1 } else none

/-- The descriptors open when the threads are about to be created: the standard
ones and the listening socket. -/
def initFds : Fds Desc := fun n => if n < 3 then some .std else if n = 3 then some .listener else none

/-- All runs of the server; `buf` is what the threads' buffers hold at first. -/
def server (openMax : ℕ) (buf : Fin threads → Buf UInt8 bufSize) : System State Action where
  init s := s.fds = initFds ∧ s.main = .create 0 ∧ s.waiting = 0 ∧ (∀ w, (s.t w).pc = .absent) ∧
    (∀ w, (s.t w).buf = buf w) ∧ s.accepted = [] ∧ s.log = []
  step := step openMax

/-! ### The threads as a service -/

/-- What a thread has in hand. -/
def Thread.hand (x : Thread) : Hand :=
  match x.pc with
  | .absent | .accept => .free
  | .recv => .recv x.cfd
  | .send => .send x.cfd
  | .close => .close x.cfd

/-- What the threads do with connections. -/
def State.view (s : State) : Service.State (Fin threads) where
  fds := s.fds
  hand := Thread.hand ∘ s.t
  buf := Thread.buf ∘ s.t
  accepted := s.accepted
  log := s.log

theorem update_buf (t : Fin threads → Thread) (w : Fin threads) :
    Function.update (Thread.buf ∘ t) w (t w).buf = Thread.buf ∘ t :=
  update_comp_eq Thread.buf t w rfl

theorem view_init {openMax : ℕ} {buf : Fin threads → Buf UInt8 bufSize} {s : State}
    (h : (server openMax buf).init s) : (Service.service 4 openMax buf).init s.view := by
  obtain ⟨hf, -, -, hw, hb, ha, hl⟩ := h
  refine ⟨fun n hn => ?_, fun w => ?_, funext hb, ha, hl⟩
  · by_contra h4
    apply hn
    show s.fds n = none
    rw [hf, initFds, if_neg (by omega), if_neg (by omega)]
  · show (s.t w).hand = .free
    rw [Thread.hand, hw w]

/-- Thread `w` has not been created yet. -/
def State.absent (s : State) (w : Fin threads) : Prop := (s.t w).pc = .absent

theorem absent_setThread (s : State) {v w : Fin threads} (x : Thread) (h : v ≠ w) :
    (s.setThread w x).absent v ↔ s.absent v := by
  simp only [State.absent, State.setThread, Function.update_of_ne h]

theorem absent_setThread_self (s : State) (w : Fin threads) {x : Thread} (h : x.pc ≠ .absent) :
    ¬ (s.setThread w x).absent w := by
  simp only [State.absent, State.setThread, Function.update_self]
  exact h

theorem created_init {openMax : ℕ} {buf : Fin threads → Buf UInt8 bufSize} {s : State}
    (h : (server openMax buf).init s) : Created s.main s.absent := by
  obtain ⟨-, hm, -, hw, -⟩ := h
  rw [hm]
  exact Service.created_zero hw

theorem created_setThread {s : State} (h : Created s.main s.absent) {w : Fin threads} {p : Pc} {x : Thread}
    (hp : (s.t w).pc = p) (hne : p ≠ .absent) (hx : x.pc ≠ .absent) : Created s.main (s.setThread w x).absent :=
  h.keep (fun h => hne (hp.symm.trans h)) (absent_setThread_self s w hx) fun _ hv => absent_setThread s x hv

theorem created_step {openMax : ℕ} {s t : State} {a : Action} (hc : Created s.main s.absent)
    (h : step openMax s a = some t) : Created t.main t.absent := by
  simp only [step] at h
  split at h
  · cases h
  cases a with
  | main =>
    simp only [main] at h
    split at h
    · rename_i i hm
      rw [hm] at hc
      split at h
      · rename_i hi
        cases h
        exact hc.create hi (absent_setThread_self s _ nofun) fun w hw => absent_setThread s _ hw
      · rename_i hi
        cases h
        exact hc.getchar hi
    · rename_i hm
      cases h
      exact (hm ▸ hc).exit
    · cases h
  | connect =>
    simp only at h
    split at h
    · cases h
      exact hc
    · cases h
  | thread w data =>
    simp only [customer_service] at h
    split at h
    · cases h
    · rename_i hp
      split at h
      · cases h
      split at h
      · cases h
        exact created_setThread hc hp nofun nofun
      · cases h
        exact created_setThread hc hp nofun nofun
    · rename_i hp
      obtain ⟨buf, -, rfl⟩ := Option.map_eq_some_iff.mp h
      exact created_setThread hc hp nofun nofun
    · rename_i hp
      cases h
      exact created_setThread hc hp nofun nofun
    · rename_i hp
      cases h
      exact created_setThread hc hp nofun nofun

/-- **A step of the server** is one of the service, or nothing to it. -/
theorem step_view {openMax : ℕ} (hmax : 4 + threads ≤ openMax) {s t : State} {a : Action} (hc : Created s.main s.absent)
    (hI : Service.Inv 4 s.view) (h : step openMax s a = some t) :
    t.view = s.view ∨ ∃ b, Service.step openMax s.view b = some t.view := by
  simp only [step] at h
  split at h
  · cases h
  cases a with
  | main =>
    left
    simp only [main] at h
    split at h
    · split at h
      · rename_i i hm hi
        cases h
        have hp : (s.t ⟨i, hi⟩).pc = .absent := (hc _).mpr ⟨i, hm, le_rfl⟩
        simp only [State.view, State.setThread, Function.comp_update, update_buf]
        rw [update_comp_eq Thread.hand _ _ (by simp only [Thread.hand, hp])]
      · cases h
        rfl
    · cases h
      rfl
    · cases h
  | connect =>
    simp only at h
    split at h
    · cases h
      exact .inl rfl
    · cases h
  | thread w data =>
    right
    simp only [customer_service] at h
    split at h
    · cases h
    · rename_i hp
      have hfree : s.view.hand w = .free := by simp only [State.view, Function.comp_apply, Thread.hand, hp]
      obtain ⟨cfd, hcfd⟩ := Service.exists_accept hI hfree (by simpa using hmax)
      have hcfd' : s.fds.lowestFree openMax = some cfd := hcfd
      rw [hcfd'] at h
      split at h
      · cases h
      cases h
      refine ⟨.accept w, ?_⟩
      simp only [Service.step, hfree, hcfd, Option.map_some]
      simp only [State.view, State.setThread, Function.comp_update, update_buf]
      rfl
    · rename_i hp
      have hrecv : s.view.hand w = .recv (s.t w).cfd := by
        simp only [State.view, Function.comp_apply, Thread.hand, hp]
      obtain ⟨buf, hbuf, rfl⟩ := Option.map_eq_some_iff.mp h
      have hbuf' : receive (s.view.buf w) data = some buf := hbuf
      refine ⟨.recv w data, ?_⟩
      simp only [Service.step, hrecv, hbuf', Option.map_some]
      simp only [State.view, State.setThread, State.record, Function.comp_update, Service.State.record]
      rfl
    · rename_i hp
      have hsend : s.view.hand w = .send (s.t w).cfd := by
        simp only [State.view, Function.comp_apply, Thread.hand, hp]
      cases h
      refine ⟨.send w, ?_⟩
      simp only [Service.step, hsend]
      simp only [State.view, State.setThread, State.record, Function.comp_update, Service.State.record]
      rfl
    · rename_i hp
      have hclose : s.view.hand w = .close (s.t w).cfd := by
        simp only [State.view, Function.comp_apply, Thread.hand, hp]
      cases h
      refine ⟨.close w, ?_⟩
      simp only [Service.step, hclose]
      simp only [State.view, State.setThread, State.record, Function.comp_update, Service.State.record, update_buf]
      rfl

/-- **The threads are a service**, whatever the order of their steps. -/
theorem simulates {openMax : ℕ} (hmax : 4 + threads ≤ openMax) (buf : Fin threads → Buf UInt8 bufSize) :
    System.Sim (server openMax buf) (fun _ _ => True) (Service.service 4 openMax buf)
      (fun s u => u = s.view ∧ Created s.main s.absent) where
  init s h := ⟨s.view, view_init h, rfl, created_init h⟩
  step s u a t hu hR _ h := by
    obtain ⟨rfl, hc⟩ := hR
    have hct := created_step hc h
    rcases step_view hmax hc (Service.reachable_inv hu) h with hv | ⟨b, hb⟩
    · exact ⟨[], s.view, rfl, hv.symm, hct⟩
    · exact ⟨[b], t.view, by rw [System.run_single]; exact hb, rfl, hct⟩

theorem reachable_view {openMax : ℕ} (hmax : 4 + threads ≤ openMax) {buf : Fin threads → Buf UInt8 bufSize}
    {s : State} (h : (server openMax buf).Reachable s) :
    (Service.service 4 openMax buf).Reachable s.view ∧ Created s.main s.absent := by
  obtain ⟨u, hu, rfl, hc⟩ := (simulates hmax buf).reach h
  exact ⟨hu, hc⟩

/-! ### Progress -/

/-- All threads have been created, and all that connected have been accepted and are
served. -/
structure Drained (s : State) : Prop where
  created : ∀ w, (s.t w).pc ≠ .absent
  accepted : s.waiting = 0
  served : AllClosed s.view

/-- The steps it takes at most to create all threads and serve all that wait. -/
def work (s : State) : ℕ := 4 * s.waiting + ∑ w, (s.t w).hand.left + s.main.left threads

theorem work_update {s t : State} {w : Fin threads} {x : Thread} (ht : t.t = Function.update s.t w x) :
    work t + 4 * s.waiting + (s.t w).hand.left + s.main.left threads =
      work s + 4 * t.waiting + x.hand.left + t.main.left threads := by
  have hsum : ∑ u, (Function.update s.t w x u).hand.left + (s.t w).hand.left = ∑ u, (s.t u).hand.left + x.hand.left :=
    sum_update (fun x : Thread => x.hand.left) s.t w x
  unfold work
  rw [ht]
  omega

theorem exists_call (openMax : ℕ) {s : State} (hrun : s.main ≠ .exited) {w : Fin threads}
    (hw : (s.t w).hand ≠ .free) : ∃ t x, step openMax s (.thread w []) = some t ∧ t.t = Function.update s.t w x ∧
      x.hand.left + 1 = (s.t w).hand.left ∧ t.main = s.main ∧ t.waiting = s.waiting ∧ t.accepted = s.accepted := by
  simp only [step, if_neg hrun, customer_service]
  split
  · rename_i hp
    simp [Thread.hand, hp] at hw
  · rename_i hp
    simp [Thread.hand, hp] at hw
  · rename_i hp
    rw [receive_nil]
    exact ⟨_, _, rfl, rfl, by simp [Thread.hand, hp, Hand.left], rfl, rfl, rfl⟩
  · rename_i hp
    exact ⟨_, _, rfl, rfl, by simp [Thread.hand, hp, Hand.left], rfl, rfl, rfl⟩
  · rename_i hp
    exact ⟨_, _, rfl, rfl, by simp [Thread.hand, hp, Hand.left], rfl, rfl, rfl⟩

theorem step_accept {openMax cfd : ℕ} {s : State} (hrun : s.main ≠ .exited) {w : Fin threads}
    (hw : (s.t w).pc = .accept) (hwait : s.waiting ≠ 0) (hcfd : s.fds.lowestFree openMax = some cfd) :
    step openMax s (.thread w []) =
      some { s.setThread w { s.t w with cfd, pc := .recv } with
        fds := s.fds.put cfd (.conn s.accepted.length)
        waiting := s.waiting - 1
        accepted := s.accepted ++ [(w, (cfd : ℤ))] } := by
  simp only [step, if_neg hrun, customer_service, hw, if_neg hwait, hcfd]

theorem exists_create (openMax : ℕ) {s : State} (hc : Created s.main s.absent) {v : Fin threads}
    (hv : (s.t v).pc = .absent) : ∃ t, step openMax s .main = some t ∧ t.main ≠ .exited ∧
      t.accepted.length + t.waiting = s.accepted.length + s.waiting ∧ work t < work s := by
  obtain ⟨i, hm, hi⟩ := (hc v).mp hv
  have hlt : i < threads := hi.trans_lt v.isLt
  have hpi : (s.t ⟨i, hlt⟩).pc = .absent := (hc _).mpr ⟨i, hm, le_rfl⟩
  set t : State := { s.setThread ⟨i, hlt⟩ { s.t ⟨i, hlt⟩ with pc := .accept } with main := .create (i + 1) } with ht
  have hst : step openMax s .main = some t := by
    simp only [step, main, hm, reduceCtorEq, if_false, dif_pos hlt, ht]
  refine ⟨t, hst, nofun, rfl, ?_⟩
  have hwork := @work_update s t ⟨i, hlt⟩ { s.t ⟨i, hlt⟩ with pc := .accept } rfl
  have hold : (s.t ⟨i, hlt⟩).hand = .free := by simp only [Thread.hand, hpi]
  have hnew : ({ s.t ⟨i, hlt⟩ with pc := .accept } : Thread).hand = .free := rfl
  have hleft : t.main.left threads + 1 = s.main.left threads := by
    rw [hm]
    show threads - (i + 1) + 1 = threads - i
    omega
  have hwait : t.waiting = s.waiting := rfl
  rw [hold, hnew, hwait] at hwork
  omega

/-- **Progress.** Until all is served, some step that lets no client in brings
it nearer. -/
theorem progress {openMax : ℕ} (hmax : 4 + threads ≤ openMax) {s : State} (hc : Created s.main s.absent)
    (hI : Service.Inv 4 s.view) (hrun : s.main ≠ .exited) (h : ¬ Drained s) :
    ∃ a t, step openMax s a = some t ∧ t.main ≠ .exited ∧
      t.accepted.length + t.waiting = s.accepted.length + s.waiting ∧ work t < work s := by
  by_cases hcreated : ∀ w, (s.t w).pc ≠ .absent
  · by_cases hfree : ∀ w, (s.t w).hand = .free
    · have hwait : s.waiting ≠ 0 := fun h0 => h ⟨hcreated, h0, hI.allClosed hfree⟩
      obtain ⟨v⟩ : Nonempty (Fin threads) := ⟨0⟩
      have hp : (s.t v).pc = .accept := by
        have hv := hfree v
        have habs := hcreated v
        revert hv habs
        simp only [Thread.hand]
        cases (s.t v).pc <;> simp
      obtain ⟨cfd, hcfd⟩ := Service.exists_accept hI (hfree v) (by simpa using hmax)
      refine ⟨.thread v [], _, step_accept hrun hp hwait hcfd, hrun, ?_, ?_⟩
      · simp only [List.length_append, List.length_singleton]
        omega
      · have hwork := @work_update s { s.setThread v { s.t v with cfd := cfd, pc := .recv } with
          fds := s.fds.put cfd (.conn s.accepted.length)
          waiting := s.waiting - 1
          accepted := s.accepted ++ [(v, (cfd : ℤ))] } v _ rfl
        have hleft' : ({ s.t v with cfd := cfd, pc := .recv } : Thread).hand.left = 3 := rfl
        rw [hfree, hleft'] at hwork
        simp only [State.setThread, Hand.left] at hwork ⊢
        omega
    · obtain ⟨w, hw⟩ := not_forall.mp hfree
      obtain ⟨t, x, hst, ht, hleft, hm, hwait, hacc⟩ := exists_call openMax hrun hw
      refine ⟨.thread w [], t, hst, hm ▸ hrun, by rw [hacc, hwait], ?_⟩
      have hwork := work_update ht
      rw [hwait, hm] at hwork
      omega
  · push Not at hcreated
    obtain ⟨v, hv⟩ := hcreated
    obtain ⟨t, ht⟩ := exists_create openMax hc hv
    exact ⟨.main, t, ht⟩

/-- **Every client is served once, whole, by one thread**, which replies as the
loop over its clients does by itself; and in every state while the process
runs, the threads can all be created and serve all that wait. -/
theorem clients_served (openMax : ℕ) (hmax : 4 + threads ≤ openMax) (buf : Fin threads → Buf UInt8 bufSize) :
    (∀ s, (server openMax buf).Reachable s → Served s.view ∧ ∀ w, Replied buf s.view w) ∧
    ∀ s, (server openMax buf).Reachable s → s.main ≠ .exited → ∃ as t,
      (server openMax buf).run s as = some t ∧ t.accepted.length = s.accepted.length + s.waiting ∧ Drained t := by
  refine ⟨fun s h => ?_, fun s h hrun => ?_⟩
  · obtain ⟨hu, -⟩ := reachable_view hmax h
    exact ⟨(Service.reachable_inv hu).served, Service.reachable_replied hu⟩
  · let I (t : State) : Prop := (server openMax buf).Reachable t ∧ t.main ≠ .exited ∧
      t.accepted.length + t.waiting = s.accepted.length + s.waiting
    obtain ⟨as, t, hr, ⟨-, -, hlen⟩, hd⟩ := System.exists_run_done (M := server openMax buf) (I := I) (D := Drained)
      work (fun u ⟨hu, hmu, hlen⟩ hd => by
        obtain ⟨hview, hc⟩ := reachable_view hmax hu
        obtain ⟨a, t, ht, hmt, hl, hlt⟩ := progress hmax hc (Service.reachable_inv hview) hmu hd
        exact ⟨a, t, ht, ⟨.step hu trivial ht, hmt, hl.trans hlen⟩, hlt⟩) s ⟨h, hrun, rfl⟩
    refine ⟨as, t, hr, ?_, hd⟩
    rw [hd.accepted, Nat.add_zero] at hlen
    exact hlen

/-- The server as it starts, with zeros for the threads' locals. -/
def start : State := ⟨initFds, .create 0, 0, fun _ => ⟨.absent, 0, Buf.zeros UInt8 bufSize⟩, [], []⟩

/-- The threads are created, two clients connect, and one of them is received from. -/
def twoClients (w : Fin threads) : List Action :=
  List.replicate 11 .main ++ [.connect, .connect, .thread w [], .thread w [104, 105]]

theorem clients_served_twoClients : ∃ s, (server 64 fun _ => Buf.zeros UInt8 bufSize).run start (twoClients 3) = some s ∧
    s.accepted = [(3, 4)] ∧ Served s.view ∧ ∃ as t, (server 64 fun _ => Buf.zeros UInt8 bufSize).run s as = some t ∧
      t.accepted.length = 2 ∧ Drained t := by
  obtain ⟨h1, h2⟩ := clients_served 64 (by decide) fun _ => Buf.zeros UInt8 bufSize
  have h0 : (server 64 fun _ => Buf.zeros UInt8 bufSize).init start :=
    ⟨rfl, rfl, rfl, fun _ => rfl, fun _ => rfl, rfl, rfl⟩
  have hrun : ∃ s, (server 64 fun _ => Buf.zeros UInt8 bufSize).run start (twoClients 3) = some s ∧
      s.accepted = [(3, 4)] ∧ s.waiting = 1 ∧ s.main = .getchar := ⟨_, rfl, rfl, rfl, rfl⟩
  obtain ⟨s, hs, ha, hw, hm⟩ := hrun
  have hreach := System.Reachable.of_run h0 hs
  obtain ⟨as, t, hr, hlen, hd⟩ := h2 s hreach (by rw [hm]; decide)
  refine ⟨s, hs, ha, (h1 s hreach).1, as, t, hr, ?_, hd⟩
  rw [hlen, ha, hw]
  rfl

end Preforked
end Server
end Autumn
