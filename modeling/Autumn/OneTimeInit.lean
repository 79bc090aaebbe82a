/-
# One-time initialisation (`one_time_init/oni.c`)

`one_time_init(c, init)` locks `c->mutex`, returns 1 if `c->indicator` is
set, and else sets it, runs `init`, unlocks and returns 0. Any number of
threads call it any number of times on one `once_control`; one step of a
thread is one statement, and running `init` is two, its start and its end.

The early `return 1` does not unlock. On the runs in which no call finds the
indicator set the mutex is free whenever every thread is outside
(`reach_ownerCrit`); from any state in which one does, that call returns
owning the mutex and nothing ever frees it (`leak_forever`).

Key definitions: `once`, `Released`, `TestsClear`.
Key theorems: `reachable_crit`, `reach_ownerCrit`, `leak_forever`, `lock_discipline`.
-/
import Mathlib.Logic.Function.Basic
import Autumn.Lib.System

namespace Autumn
namespace OneTimeInit

/-- Where a thread is in `one_time_init`: outside it, or before the named
statement. -/
inductive Pc
  | out
  | lock
  | test
  | set
  | startInit
  | finishInit
  | unlock
  | ret (v : ℕ)
  deriving DecidableEq, Repr

/-- What the calls did, for the record: `init` started or ended in a thread,
a call of a thread returned a value. -/
inductive Event (T : Type)
  | start (t : T)
  | finish (t : T)
  | returned (t : T) (v : ℕ)
  deriving DecidableEq, Repr

/-- The `once_control`, the threads, and the events so far. -/
structure State (T : Type) where
  indicator : Bool
  mutex : Option T
  pc : T → Pc
  events : List (Event T)

/-- A thread calls `one_time_init`, or the thread takes its next step in it. -/
inductive Action (T : Type)
  | call (t : T)
  | next (t : T)
  deriving DecidableEq, Repr

section Model

variable {T : Type} [DecidableEq T]

/-- Thread `t` moves to `p`. -/
def State.goto (s : State T) (t : T) (p : Pc) : State T := { s with pc := Function.update s.pc t p }

/-- `t` takes its next step in `one_time_init`; `none` where it cannot. -/
def one_time_init (s : State T) (t : T) : Option (State T) :=
  match s.pc t with
  | .out => none
  | .lock =>
    match s.mutex with
    | none => some { s.goto t .test with mutex := some t }
    | some _ => none
  -- the early return: the mutex stays locked
  | .test => some (s.goto t (if s.indicator then .ret 1 else .set))
  | .set => some { s.goto t .startInit with indicator := true }
  | .startInit => some { s.goto t .finishInit with events := s.events ++ [.start t] }
  | .finishInit => some { s.goto t .unlock with events := s.events ++ [.finish t] }
  | .unlock => some { s.goto t (.ret 0) with mutex := none }
  | .ret v => some { s.goto t .out with events := s.events ++ [.returned t v] }

def step (s : State T) : Action T → Option (State T)
  | .call t => if s.pc t = .out then some (s.goto t .lock) else none
  | .next t => one_time_init s t

/-- A `once_control` with its mutex free and its indicator false, and every
thread outside. -/
def start : State T := ⟨false, none, fun _ => .out, []⟩

/-- All runs of the threads over one `once_control`. -/
def once (T : Type) [DecidableEq T] : System (State T) (Action T) where
  init s := s = start
  step := step

/-- No thread that is outside `one_time_init` owns the mutex, so it is free
when every thread is outside. -/
def Released (s : State T) : Prop :=
  (∀ t, s.mutex = some t → s.pc t ≠ .out) ∧ ((∀ t, s.pc t = .out) → s.mutex = none)

/-- The step does not test the indicator, or finds it clear. -/
def TestsClear (s : State T) : Action T → Prop
  | .call _ => True
  | .next t => s.pc t = .test → s.indicator = false

instance (s : State T) (a : Action T) : Decidable (TestsClear s a) := by
  cases a <;> unfold TestsClear <;> infer_instance

/-- Between the lock and the unlock. -/
def Pc.crit : Pc → Bool
  | .test | .set | .startInit | .finishInit | .unlock => true
  | .out | .lock | .ret _ => false

@[simp] theorem goto_mutex (s : State T) (t : T) (p : Pc) : (s.goto t p).mutex = s.mutex := rfl

@[simp] theorem goto_indicator (s : State T) (t : T) (p : Pc) :
    (s.goto t p).indicator = s.indicator := rfl

@[simp] theorem goto_pc_self (s : State T) (t : T) (p : Pc) : (s.goto t p).pc t = p := by
  simp [State.goto]

theorem goto_pc_ne (s : State T) {t u : T} (p : Pc) (h : u ≠ t) : (s.goto t p).pc u = s.pc u := by
  simp [State.goto, h]

/-! ### What a step can do -/

/-- The thread that takes the step. -/
def Action.thread : Action T → T
  | .call t => t
  | .next t => t

/-- What a step does to the mutex, the indicator and its thread's program
counter. -/
inductive Moves (s s' : State T) : Action T → Prop
  | call (t : T) : s.pc t = .out → s'.mutex = s.mutex → s'.pc t = .lock → Moves s s' (.call t)
  | lock (t : T) : s.pc t = .lock → s.mutex = none → s'.mutex = some t → s'.pc t = .test →
      Moves s s' (.next t)
  | early (t : T) : s.pc t = .test → s.indicator = true → s'.mutex = s.mutex → s'.pc t = .ret 1 →
      Moves s s' (.next t)
  | inside (t : T) : (s.pc t).crit = true → s'.mutex = s.mutex → (s'.pc t).crit = true →
      Moves s s' (.next t)
  | unlock (t : T) : s.pc t = .unlock → s'.mutex = none → s'.pc t = .ret 0 → Moves s s' (.next t)
  | ret (t : T) (v : ℕ) : s.pc t = .ret v → s'.mutex = s.mutex → s'.pc t = .out →
      Moves s s' (.next t)

theorem step_moves {s s' : State T} {a : Action T} (h : step s a = some s') : Moves s s' a := by
  cases a with
  | call t =>
    simp only [step] at h
    split at h
    · rename_i hp
      cases h
      exact .call t hp rfl (by simp)
    · cases h
  | next t =>
    simp only [step, one_time_init] at h
    split at h
    · cases h
    · rename_i hp
      split at h
      · rename_i hm
        cases h
        exact .lock t hp hm rfl (by simp)
      · cases h
    · rename_i hp
      cases h
      by_cases hi : s.indicator = true
      · exact .early t hp hi rfl (by simp [hi])
      · exact .inside t (by simp [hp, Pc.crit]) rfl (by simp [hi, Pc.crit])
    · rename_i hp
      cases h
      exact .inside t (by simp [hp, Pc.crit]) rfl (by simp [Pc.crit])
    · rename_i hp
      cases h
      exact .inside t (by simp [hp, Pc.crit]) rfl (by simp [Pc.crit])
    · rename_i hp
      cases h
      exact .inside t (by simp [hp, Pc.crit]) rfl (by simp [Pc.crit])
    · rename_i hp
      cases h
      exact .unlock t hp rfl (by simp)
    · rename_i v hp
      cases h
      exact .ret t v hp rfl (by simp)

theorem step_pc_ne {s s' : State T} {a : Action T} (h : step s a = some s') {u : T}
    (hu : u ≠ a.thread) : s'.pc u = s.pc u := by
  cases a with
  | call t =>
    have hu : u ≠ t := hu
    simp only [step] at h
    split at h
    · cases h
      exact goto_pc_ne _ _ hu
    · cases h
  | next t =>
    have hu : u ≠ t := hu
    simp only [step, one_time_init] at h
    split at h <;> try split at h
    all_goals first | (cases h; exact goto_pc_ne s _ hu) | cases h

/-! ### The invariant of every run -/

/-- Every thread between the lock and the unlock owns the mutex. -/
def CritOwns (s : State T) : Prop := ∀ t, (s.pc t).crit = true → s.mutex = some t

theorem critOwns_step {s s' : State T} {a : Action T} (hI : CritOwns s) (h : step s a = some s') :
    CritOwns s' := by
  intro u hu
  have hne := step_pc_ne h (u := u)
  by_cases he : u = a.thread
  · subst he
    cases step_moves h with
    | call t _ _ hp => rw [Action.thread, hp] at hu; cases hu
    | lock t _ _ hm _ => exact hm
    | early t _ _ _ hp => rw [Action.thread, hp] at hu; cases hu
    | inside t hc hm _ => rw [hm]; exact hI t hc
    | unlock t _ _ hp => rw [Action.thread, hp] at hu; cases hu
    | ret t _ _ _ hp => rw [Action.thread, hp] at hu; cases hu
  · rw [hne he] at hu
    have hown := hI u hu
    cases step_moves h with
    | call t _ hm _ => rw [hm]; exact hown
    | lock t _ hf _ _ => rw [hf] at hown; cases hown
    | early t _ _ hm _ => rw [hm]; exact hown
    | inside t _ hm _ => rw [hm]; exact hown
    | unlock t hp _ _ =>
      have : s.mutex = some t := hI t (by simp [hp, Pc.crit])
      rw [hown] at this
      exact absurd (Option.some.inj this) he
    | ret t _ _ hm _ => rw [hm]; exact hown

/-- In every reachable state a thread between the lock and the unlock owns the
mutex; in particular no two threads are there. -/
theorem reachable_crit {s : State T} (h : (once T).Reachable s) : CritOwns s :=
  h.invariant (I := CritOwns) (fun s hs t ht => by subst hs; exact absurd ht Bool.false_ne_true)
    fun _ _ _ hI _ hst => critOwns_step hI hst

/-! ### Without the early return -/

/-- The owner of the mutex is between the lock and the unlock. -/
def OwnerCrit (s : State T) : Prop := ∀ t, s.mutex = some t → (s.pc t).crit = true

theorem ownerCrit_step {s s' : State T} {a : Action T} (hI : OwnerCrit s) (hok : TestsClear s a)
    (h : step s a = some s') : OwnerCrit s' := by
  intro u hu
  have hne := step_pc_ne h (u := u)
  by_cases he : u = a.thread
  · subst he
    cases step_moves h with
    | call t hp hm _ =>
      rw [hm] at hu
      have := hI t hu
      rw [hp] at this; cases this
    | lock t _ _ _ hp => rw [Action.thread, hp]; rfl
    | early t hp hi _ _ => rw [hok hp] at hi; cases hi
    | inside t _ _ hc => exact hc
    | unlock t _ hm _ => rw [hm] at hu; cases hu
    | ret t v hp hm _ =>
      rw [hm] at hu
      have := hI t hu
      rw [hp] at this; cases this
  · rw [hne he]
    cases step_moves h with
    | call t _ hm _ => rw [hm] at hu; exact hI u hu
    | lock t _ _ hm _ => rw [hm] at hu; exact absurd (Option.some.inj hu).symm he
    | early t _ _ hm _ => rw [hm] at hu; exact hI u hu
    | inside t _ hm _ => rw [hm] at hu; exact hI u hu
    | unlock t _ hm _ => rw [hm] at hu; cases hu
    | ret t _ _ hm _ => rw [hm] at hu; exact hI u hu

theorem reach_ownerCrit {s : State T} (h : (once T).Reach TestsClear s) : OwnerCrit s :=
  h.invariant (I := OwnerCrit) (fun s hs t ht => by subst hs; cases ht)
    fun _ _ _ hI hok hst => ownerCrit_step hI hok hst

omit [DecidableEq T] in
theorem OwnerCrit.released {s : State T} (h : OwnerCrit s) : Released s := by
  have hin : ∀ t, s.mutex = some t → s.pc t ≠ .out := by
    intro t ht hp
    have := h t ht
    rw [hp] at this; cases this
  refine ⟨hin, fun hout => ?_⟩
  cases hm : s.mutex with
  | none => rfl
  | some t => exact absurd (hout t) (hin t hm)

/-! ### After the early return -/

/-- `t` owns the mutex and is not going to unlock it, and no other thread is
past its lock. -/
def Leaked (t : T) (s : State T) : Prop :=
  s.mutex = some t ∧ ∀ u, (s.pc u).crit = false

theorem leaked_step {t : T} {s s' : State T} {a : Action T} (hL : Leaked t s)
    (h : step s a = some s') : Leaked t s' := by
  obtain ⟨hm, hc⟩ := hL
  have hne := fun u => step_pc_ne h (u := u)
  have hrest : (s'.pc a.thread).crit = false → ∀ u, (s'.pc u).crit = false := by
    intro h0 u
    by_cases he : u = a.thread
    · rw [he]; exact h0
    · rw [hne u he]; exact hc u
  cases step_moves h with
  | call t' _ hm' hp => exact ⟨by rw [hm', hm], hrest (by rw [Action.thread, hp]; rfl)⟩
  | lock t' _ hf _ _ => rw [hm] at hf; cases hf
  | early t' hp _ _ _ => have := hc t'; rw [hp] at this; cases this
  | inside t' hcr _ _ => rw [hc t'] at hcr; cases hcr
  | unlock t' hp _ _ => have := hc t'; rw [hp] at this; cases this
  | ret t' v _ hm' hp => exact ⟨by rw [hm', hm], hrest (by rw [Action.thread, hp]; rfl)⟩

/-- A call that finds the indicator set returns owning the mutex, and from
then on the mutex stays locked: no other call ever gets past its lock. -/
theorem leak_forever {s : State T} (h : (once T).Reachable s) {t : T} (hp : s.pc t = .test)
    (hi : s.indicator = true) :
    ∃ s', (once T).run s [.next t, .next t] = some s' ∧ s'.pc t = .out ∧
      ∀ as s'', (once T).run s' as = some s'' → Leaked t s'' := by
  have hown := reachable_crit h
  have hm : s.mutex = some t := hown t (by rw [hp]; rfl)
  set s1 : State T := s.goto t (.ret 1)
  have h1 : step s (.next t) = some s1 := by simp [step, one_time_init, hp, hi, s1]
  obtain ⟨s2, h2, hp2⟩ : ∃ s2, step s1 (.next t) = some s2 ∧ s2.pc t = .out :=
    ⟨{ s1.goto t .out with events := s1.events ++ [.returned t 1] },
      by simp [step, one_time_init, s1], goto_pc_self s1 t .out⟩
  have hL : Leaked t s1 := by
    refine ⟨hm, fun u => ?_⟩
    by_cases he : u = t
    · rw [he, goto_pc_self]; rfl
    · rw [goto_pc_ne _ _ he]
      by_contra hc
      have := hown u (by simpa using hc)
      rw [hm] at this
      exact he (Option.some.inj this).symm
  refine ⟨s2, ?_, hp2, fun as s'' => System.run_invariant (fun _ _ _ => leaked_step) (leaked_step hL h2)⟩
  rw [System.run_cons, show (once T).step s (.next t) = some s1 from h1, Option.bind_some, System.run_single]
  exact h2

/-- **The lock discipline of `one_time_init`.** While no call finds the
indicator set, a thread outside `one_time_init` never owns the mutex; and any
call that finds it set leaves it owning the mutex, for good. -/
theorem lock_discipline :
    (∀ s : State T, (once T).Reach TestsClear s → Released s) ∧
    ∀ (s : State T) (t : T), (once T).Reachable s → s.pc t = .test → s.indicator = true →
      ∃ s', (once T).run s [.next t, .next t] = some s' ∧ ¬ Released s' ∧
        ∀ as s'', (once T).run s' as = some s'' → s''.mutex = some t := by
  refine ⟨fun s h => (reach_ownerCrit h).released, fun s t h hp hi => ?_⟩
  obtain ⟨s', hr, hout, hL⟩ := leak_forever h hp hi
  exact ⟨s', hr, fun hR => hR.1 t (hL [] s' rfl).1 hout, fun as s'' hr' => (hL as s'' hr').1⟩

end Model

/-- Two calls of one thread, one after the other: the second returns 1 and
leaves the mutex locked with every thread outside. -/
def twoCalls : List (Action ℕ) :=
  [.call 0, .next 0, .next 0, .next 0, .next 0, .next 0, .next 0, .next 0,
   .call 0, .next 0, .next 0, .next 0]

theorem not_released : ¬ ∀ s : State ℕ, (once ℕ).Reachable s → Released s := by
  intro h
  have hr : ∃ s, (once ℕ).run start twoCalls = some s ∧ s.mutex = some 0 ∧ s.pc 0 = .out :=
    ⟨_, rfl, rfl, rfl⟩
  obtain ⟨s, hs, hm, hout⟩ := hr
  exact (h s (.of_run rfl hs)).1 0 hm hout

theorem firstCall_meets : (once ℕ).Meets TestsClear start (twoCalls.take 8) := by decide

/-- One call that runs `init`, then a second one up to its test. -/
theorem lock_discipline_twoCalls :
    (∃ s : State ℕ, (once ℕ).run start (twoCalls.take 8) = some s ∧ Released s) ∧
    ∃ s : State ℕ, (once ℕ).run start (twoCalls.take 10) = some s ∧
      ∃ s', (once ℕ).run s [.next 0, .next 0] = some s' ∧ ¬ Released s' ∧
        ∀ as s'', (once ℕ).run s' as = some s'' → s''.mutex = some 0 := by
  obtain ⟨h1, h2⟩ := lock_discipline (T := ℕ)
  refine ⟨⟨_, rfl, h1 _ (.of_run rfl firstCall_meets rfl)⟩, _, rfl,
    h2 _ 0 (.of_run rfl (show (once ℕ).run start (twoCalls.take 10) = some _ from rfl)) rfl rfl⟩

end OneTimeInit
end Autumn
