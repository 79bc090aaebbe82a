/-
# What the pooled workers reply (`server models/3`)

In the worker pool the loops of `Autumn.Server.Replies` run side by side, each
over the messages that its worker happens to take. What a worker does with a
connection is what a thread of `Autumn.Server.Service` does; the other steps leave
its buffer and its calls alone. So in every run each worker's replies are those of
the loop over its clients by itself (`pool_replies`): upper case and zeros, but for
its first client, who gets the rest of what the buffer held at the start.

Key definitions: `Worker.hand`, `State.view`, `State.inHand`.
Key theorems: `replied_step`, `replies_eq`, `pool_replies`.
-/
import Autumn.Server.Service
import Autumn.Server.WorkerPool

namespace Autumn
namespace Server
namespace WorkerPool

open Service (Hand Replied exchanged update_comp_eq)

/-- What a worker has in hand. -/
def Worker.hand (x : Worker) : Hand :=
  match x.pc with
  | .absent | .receive => .free
  | .recv => .recv x.cfd
  | .send => .send x.cfd
  | .close => .close x.cfd

/-- What the workers do with connections. -/
def State.view (s : State) : Service.State (Fin threads) where
  fds := s.fds
  hand := Worker.hand ∘ s.workers
  buf := Worker.buf ∘ s.workers
  accepted := []
  log := s.log

theorem update_buf (t : Fin threads → Worker) (w : Fin threads) :
    Function.update (Worker.buf ∘ t) w (t w).buf = Worker.buf ∘ t :=
  update_comp_eq Worker.buf t w rfl

/-- Nobody calls or has a reply in hand that had none before. -/
structure Quiet (s t : State) : Prop where
  buf : t.view.buf = s.view.buf
  log : t.log = s.log
  hand : ∀ w, t.view.hand w = s.view.hand w ∨ s.view.hand w = .free ∧ ∀ cfd, t.view.hand w ≠ .send cfd

theorem quiet_setWorker (s : State) (w : Fin threads) {x : Worker} (hb : x.buf = (s.workers w).buf)
    (hfree : (s.workers w).hand = .free) (hx : ∀ cfd, x.hand ≠ .send cfd) : Quiet s (s.setWorker w x) where
  buf := by
    simp only [State.view, State.setWorker, Function.comp_update, hb, update_buf]
  log := rfl
  hand v := by
    by_cases hv : v = w
    · subst hv
      refine .inr ⟨hfree, fun cfd => ?_⟩
      simp only [State.view, State.setWorker, Function.comp_apply, Function.update_self]
      exact hx cfd
    · refine .inl ?_
      simp only [State.view, State.setWorker, Function.comp_apply, Function.update_of_ne hv]

theorem step_view {openMax : ℕ} {s t : State} {a : Action} (hI : Inv s) (h : step openMax s a = some t) :
    (∃ b, Service.step openMax s.view b = some t.view) ∨ Quiet s t := by
  cases a with
  | main =>
    right
    simp only [step, main] at h
    split at h
    · rename_i i hm
      split at h
      · rename_i hi
        cases h
        have hp : (s.workers ⟨i, hi⟩).pc = .absent := (hI.absent _).mpr ⟨i, hm, le_rfl⟩
        have hq := quiet_setWorker s ⟨i, hi⟩ (x := { s.workers ⟨i, hi⟩ with pc := .receive }) rfl
          (by simp only [Worker.hand, hp]) (by simp [Worker.hand])
        exact ⟨hq.buf, hq.log, hq.hand⟩
      · cases h
        exact ⟨rfl, rfl, fun w => .inl rfl⟩
    · obtain ⟨cfd, -, rfl⟩ := Option.map_eq_some_iff.mp h
      exact ⟨rfl, rfl, fun w => .inl rfl⟩
    · split at h
      · cases h
        exact ⟨rfl, rfl, fun w => .inl rfl⟩
      · cases h
  | worker w data =>
    simp only [step, customer_service] at h
    split at h
    · cases h
    · rename_i hp
      right
      split at h
      · cases h
      · rename_i m q hq
        cases h
        have hq := quiet_setWorker s w (x := { s.workers w with message := m, cfd := m.1.toInt, pc := .recv }) rfl
          (by simp only [Worker.hand, hp]) (by simp [Worker.hand])
        exact ⟨hq.buf, hq.log, hq.hand⟩
    · rename_i hp
      have hrecv : s.view.hand w = .recv (s.workers w).cfd := by
        simp only [State.view, Function.comp_apply, Worker.hand, hp]
      obtain ⟨buf, hbuf, rfl⟩ := Option.map_eq_some_iff.mp h
      have hbuf' : receive (s.view.buf w) data = some buf := hbuf
      refine .inl ⟨.recv w data, ?_⟩
      simp only [Service.step, hrecv, hbuf', Option.map_some]
      simp only [State.view, State.setWorker, State.record, Function.comp_update, Service.State.record]
      rfl
    · rename_i hp
      have hsend : s.view.hand w = .send (s.workers w).cfd := by
        simp only [State.view, Function.comp_apply, Worker.hand, hp]
      cases h
      refine .inl ⟨.send w, ?_⟩
      simp only [Service.step, hsend]
      simp only [State.view, State.setWorker, State.record, Function.comp_update, Service.State.record]
      rfl
    · rename_i hp
      have hclose : s.view.hand w = .close (s.workers w).cfd := by
        simp only [State.view, Function.comp_apply, Worker.hand, hp]
      cases h
      refine .inl ⟨.close w, ?_⟩
      simp only [Service.step, hclose]
      simp only [State.view, State.setWorker, State.record, Function.comp_update, Service.State.record, update_buf]
      rfl

theorem Quiet.replied {buf : Fin threads → Buf UInt8 bufSize} {s t : State} (hq : Quiet s t) (w : Fin threads)
    (hR : Replied buf s.view w) : Replied buf t.view w := by
  have hlog : ∀ c, exchanged c t.view.log w = exchanged c s.view.log w := fun c => congrArg (exchanged c · w) hq.log
  rcases hq.hand w with hw | ⟨hfree, hno⟩
  · exact hR.frame hw (congrFun hq.buf w) hlog
  · obtain ⟨cs, hcs, hl⟩ := hR
    refine ⟨cs, hcs.trans (hlog .recv).symm, ?_⟩
    rw [hfree] at hl
    rw [hl, hlog, congrFun hq.buf w]
    cases ht : t.view.hand w with
    | send cfd => exact absurd ht (hno cfd)
    | _ => rfl

theorem replied_step {openMax : ℕ} {buf : Fin threads → Buf UInt8 bufSize} {s t : State} {a : Action} (hI : Inv s)
    (h : step openMax s a = some t) (w : Fin threads) (hR : Replied buf s.view w) : Replied buf t.view w := by
  rcases step_view hI h with ⟨b, hb⟩ | hq
  · exact Service.replied_step hb w hR
  · exact hq.replied w hR

/-- The reply that worker `w` has in hand. -/
def State.inHand (s : State) (w : Fin threads) : List (ℤ × List UInt8) :=
  match (s.workers w).pc with
  | .send => [((s.workers w).cfd, (s.workers w).buf.chars)]
  | _ => []

/-- What a worker has sent, and the reply in hand, are the replies to what it has
received. -/
theorem replies_eq {buf : Fin threads → Buf UInt8 bufSize} {s : State} {w : Fin threads} (h : Replied buf s.view w) :
    ∃ cs : List Client, cs.map (fun c => (c.cfd, c.data)) = exchanged .recv s.log w ∧
      replies (buf w) cs = exchanged .send s.log w ++ s.inHand w := by
  obtain ⟨cs, hcs, hl⟩ := h
  refine ⟨cs, hcs, ?_⟩
  have hsent := serve_all (buf w) cs
  rw [hl, Option.map_some] at hsent
  rw [← Option.some.inj hsent]
  have hhand : s.view.hand w = (s.workers w).hand := rfl
  rw [hhand, Worker.hand, State.inHand]
  cases (s.workers w).pc with
  | send => rfl
  | absent => exact (List.append_nil _).symm
  | receive => exact (List.append_nil _).symm
  | recv => exact (List.append_nil _).symm
  | close => exact (List.append_nil _).symm

/-- **Each worker replies as its loop does by itself**: in every run of the pool,
what it has sent, with the reply it has in hand, are in order the replies to what it has
received, out of what its buffer held at first. -/
theorem pool_replies (openMax : ℕ) (s₀ : State) (h0 : (pool openMax).init s₀) (as : List Action) (s : State)
    (h : (pool openMax).run s₀ as = some s) (w : Fin threads) :
    ∃ cs : List Client, cs.map (fun c => (c.cfd, c.data)) = exchanged .recv s.log w ∧
      replies (s₀.workers w).buf cs = exchanged .send s.log w ++ s.inHand w := by
  have hinit : Replied (fun w => (s₀.workers w).buf) s₀.view w := by
    obtain ⟨-, -, -, hw, -, -, hl⟩ := h0
    have hfree : s₀.view.hand w = .free := by simp only [State.view, Function.comp_apply, Worker.hand, hw]
    refine ⟨[], ?_, ?_⟩
    · show [] = exchanged .recv s₀.log w
      rw [hl]
      rfl
    · rw [hfree]
      show some _ = some (⟨_, exchanged .send s₀.log w⟩ : Local)
      rw [hl]
      rfl
  have hI : Inv s ∧ Replied (fun w => (s₀.workers w).buf) s.view w := by
    refine System.run_invariant (M := pool openMax)
      (I := fun s => Inv s ∧ Replied (fun w => (s₀.workers w).buf) s.view w) (fun u a t hu hst => ?_)
      ⟨inv_init h0, hinit⟩ h
    exact ⟨inv_step hu.1 hst, replied_step hu.1 hst w hu.2⟩
  exact replies_eq hI.2

/-- The client that worker 3 takes is sent the reply. -/
theorem pool_replies_oneClient : ∃ s cs, (pool 64).run start (oneClient ++ [.worker 3 []]) = some s ∧
    cs.map (fun c : Client => (c.cfd, c.data)) = [(5, [104, 105])] ∧
    exchanged .send s.log 3 = replies (Buf.zeros UInt8 bufSize) cs := by
  have h0 : (pool 64).init start := ⟨rfl, rfl, rfl, fun _ => rfl, rfl, rfl, rfl⟩
  have hrun : ∃ s, (pool 64).run start (oneClient ++ [.worker 3 []]) = some s ∧
      s.inHand 3 = [] ∧ exchanged .recv s.log 3 = [(5, [104, 105])] := ⟨_, rfl, rfl, rfl⟩
  obtain ⟨s, hs, hnone, hrecv⟩ := hrun
  obtain ⟨cs, hcs, hreplies⟩ := pool_replies 64 start h0 _ s hs 3
  refine ⟨s, cs, hs, hcs.trans hrecv, ?_⟩
  rw [hnone, List.append_nil] at hreplies
  exact hreplies.symm

end WorkerPool
end Server
end Autumn
