/-
# One-time initialisation: `init` runs once, before anyone returns

The indicator is set before `init` runs, and only under the mutex. So a run
goes through stages, one after the other (`Stage`): nobody has set the
indicator; one thread has, and is about to run `init`, runs it, has run it and
has yet to unlock, has yet to return; its call has returned 0. Until it
unlocks, all other threads are outside or at the lock, and after that every
call that gets the lock finds the indicator set and returns 1. Which stage a
run is in says what its events are (`At`), and so that they are in order
(`Once`): this holds with the early return, too, although that one never
unlocks.

Key definitions: `Does`, `Stage`, `At`, `Once`.
Key theorems: `step_does`, `at_step`, `init_once`.
-/
import Autumn.OneTimeInit

namespace Autumn
namespace OneTimeInit

variable {T : Type}

/-- What is claimed of the events of a run: `init` is started at most once; at
most one call returns 0, and it is the one in which `init` started and ended;
and a call returns 0 or 1, after `init` has ended. -/
structure Once (es : List (Event T)) : Prop where
  started : (es.filter fun e => e matches .start _).length ≤ 1
  zero : (es.filter fun e => e matches .returned _ 0).length ≤ 1
  ran : ∀ as bs t, es = as ++ .returned t 0 :: bs →
    ∃ as₁ as₂, as = as₁ ++ .start t :: as₂ ∧ .finish t ∈ as₂ ∧ ∀ v, .returned t v ∉ as₂
  complete : ∀ as bs t v, es = as ++ .returned t v :: bs → (v = 0 ∨ v = 1) ∧ ∃ u, .finish u ∈ as

/-! ### What a step does -/

variable [DecidableEq T]

/-- The step, with the state it leads to. -/
inductive Does (s : State T) : Action T → State T → Prop
  | call (t : T) : s.pc t = .out → Does s (.call t) (s.goto t .lock)
  | lock (t : T) : s.pc t = .lock → s.mutex = none →
      Does s (.next t) { s.goto t .test with mutex := some t }
  | early (t : T) : s.pc t = .test → s.indicator = true → Does s (.next t) (s.goto t (.ret 1))
  | test (t : T) : s.pc t = .test → s.indicator = false → Does s (.next t) (s.goto t .set)
  | set (t : T) : s.pc t = .set → Does s (.next t) { s.goto t .startInit with indicator := true }
  | startInit (t : T) : s.pc t = .startInit →
      Does s (.next t) { s.goto t .finishInit with events := s.events ++ [.start t] }
  | finishInit (t : T) : s.pc t = .finishInit →
      Does s (.next t) { s.goto t .unlock with events := s.events ++ [.finish t] }
  | unlock (t : T) : s.pc t = .unlock → Does s (.next t) { s.goto t (.ret 0) with mutex := none }
  | ret (t : T) (v : ℕ) : s.pc t = .ret v →
      Does s (.next t) { s.goto t .out with events := s.events ++ [.returned t v] }

theorem step_does {s s' : State T} {a : Action T} (h : step s a = some s') : Does s a s' := by
  cases a with
  | call t =>
    simp only [step] at h
    split at h
    · rename_i hp
      cases h
      exact .call t hp
    · cases h
  | next t =>
    simp only [step, one_time_init] at h
    split at h
    · cases h
    · rename_i hp
      split at h
      · rename_i hm
        cases h
        exact .lock t hp hm
      · cases h
    · rename_i hp
      cases h
      cases hi : s.indicator with
      | true => exact .early t hp hi
      | false => exact .test t hp hi
    · rename_i hp
      cases h
      exact .set t hp
    · rename_i hp
      cases h
      exact .startInit t hp
    · rename_i hp
      cases h
      exact .finishInit t hp
    · rename_i hp
      cases h
      exact .unlock t hp
    · rename_i v hp
      cases h
      exact .ret t v hp

/-! ### The stages of a run -/

/-- How far a run has come, and the thread that runs `init`. -/
inductive Stage (T : Type)
  | clear
  | starting (t : T)
  | running (t : T)
  | unlocking (t : T)
  | returning (t : T)
  | returned (t : T)

/-- Before the indicator is set. -/
def Pc.early : Pc → Bool
  | .out | .lock | .test | .set => true
  | _ => false

/-- While another thread holds the mutex and runs `init`. -/
def Pc.waits : Pc → Bool
  | .out | .lock => true
  | _ => false

/-- After `init` has run: the call returns 1. -/
def Pc.late : Pc → Bool
  | .out | .lock | .test | .ret 1 => true
  | _ => false

theorem Pc.ret_of_late {n : ℕ} (h : (Pc.ret n).late = true) : n = 1 := by
  rcases n with _ | _ | n
  · cases h
  · rfl
  · cases h

theorem Pc.late_of_waits {p : Pc} (h : p.waits = true) : p.late = true := by
  cases p <;> first | rfl | cases h

/-- Calls of other threads than `t` have returned 1. -/
def Others (t : T) (rs : List (Event T)) : Prop := ∀ e ∈ rs, ∃ u, u ≠ t ∧ e = .returned u 1

/-- Where the threads are and what has happened at a stage. -/
def At (s : State T) : Stage T → Prop
  | .clear => s.indicator = false ∧ s.events = [] ∧ ∀ u, (s.pc u).early = true
  | .starting t => s.indicator = true ∧ s.events = [] ∧ s.pc t = .startInit ∧
      ∀ u, u ≠ t → (s.pc u).waits = true
  | .running t => s.indicator = true ∧ s.events = [.start t] ∧ s.pc t = .finishInit ∧
      ∀ u, u ≠ t → (s.pc u).waits = true
  | .unlocking t => s.indicator = true ∧ s.events = [.start t, .finish t] ∧ s.pc t = .unlock ∧
      ∀ u, u ≠ t → (s.pc u).waits = true
  | .returning t => s.indicator = true ∧ (∃ rs, s.events = .start t :: .finish t :: rs ∧ Others t rs) ∧
      s.pc t = .ret 0 ∧ ∀ u, u ≠ t → (s.pc u).late = true
  | .returned t => s.indicator = true ∧
      (∃ rs qs, s.events = .start t :: .finish t :: (rs ++ .returned t 0 :: qs) ∧
        Others t rs ∧ ∀ e ∈ qs, ∃ u, e = .returned u 1) ∧
      ∀ u, (s.pc u).late = true

theorem forall_goto {s : State T} {t : T} {p : Pc} {P : T → Pc → Prop} (hp : P t p)
    (h : ∀ u, u ≠ t → P u (s.pc u)) (u : T) : P u ((s.goto t p).pc u) := by
  by_cases hu : u = t
  · rw [hu, goto_pc_self]
    exact hp
  · rw [goto_pc_ne s p hu]
    exact h u hu

/-- While `t` has the mutex and the other threads are outside or at the lock,
they get no further. -/
theorem waits_step {s s' : State T} {a : Action T} {t : T} (h : Does s a s') (hm : s.mutex = some t)
    (hw : ∀ u, u ≠ t → (s.pc u).waits = true) (hne : a.thread ≠ t) :
    s'.indicator = s.indicator ∧ s'.events = s.events ∧ s'.pc t = s.pc t ∧
      ∀ u, u ≠ t → (s'.pc u).waits = true := by
  have ha := hw a.thread hne
  cases h with
  | call v hp =>
    refine ⟨rfl, rfl, goto_pc_ne s _ (Ne.symm hne), fun u => ?_⟩
    exact forall_goto (P := fun u p => u ≠ t → p.waits = true) (fun _ => rfl) (fun u _ => hw u) u
  | lock v _ hfree => rw [hm] at hfree; cases hfree
  | early v hp => rw [Action.thread, hp] at ha; cases ha
  | test v hp => rw [Action.thread, hp] at ha; cases ha
  | set v hp => rw [Action.thread, hp] at ha; cases ha
  | startInit v hp => rw [Action.thread, hp] at ha; cases ha
  | finishInit v hp => rw [Action.thread, hp] at ha; cases ha
  | unlock v hp => rw [Action.thread, hp] at ha; cases ha
  | ret v n hp => rw [Action.thread, hp] at ha; cases ha

/-- After `init` a call can only find the indicator set and return 1. -/
theorem late_step {s s' : State T} {a : Action T} (h : Does s a s') (hi : s.indicator = true)
    (hl : (s.pc a.thread).late = true) :
    s'.indicator = true ∧ (s'.pc a.thread).late = true ∧
      (s'.events = s.events ∨ s'.events = s.events ++ [.returned a.thread 1]) := by
  cases h with
  | call v hp => exact ⟨hi, by rw [Action.thread, goto_pc_self]; rfl, .inl rfl⟩
  | lock v hp _ => exact ⟨hi, (congrArg Pc.late (goto_pc_self s v .test)).trans rfl, .inl rfl⟩
  | early v hp _ => exact ⟨hi, by rw [Action.thread, goto_pc_self]; rfl, .inl rfl⟩
  | test v _ hc => rw [hi] at hc; cases hc
  | set v hp => rw [Action.thread, hp] at hl; cases hl
  | startInit v hp => rw [Action.thread, hp] at hl; cases hl
  | finishInit v hp => rw [Action.thread, hp] at hl; cases hl
  | unlock v hp => rw [Action.thread, hp] at hl; cases hl
  | ret v n hp =>
    have hn : n = 1 := by
      rw [Action.thread, hp] at hl
      exact Pc.ret_of_late hl
    subst hn
    exact ⟨hi, (congrArg Pc.late (goto_pc_self s v .out)).trans rfl, .inr rfl⟩

theorem late_others {s s' : State T} {a : Action T} (h : step s a = some s') {P : T → Prop}
    (hl : ∀ u, P u → (s.pc u).late = true) (ha : (s'.pc a.thread).late = true) :
    ∀ u, P u → (s'.pc u).late = true := by
  intro u hu
  by_cases he : u = a.thread
  · rw [he]
    exact ha
  · rw [step_pc_ne h he]
    exact hl u hu

/-- The stage before the indicator is set, and the step that sets it. -/
theorem at_clear_step {s s' : State T} {a : Action T} (hown : CritOwns s) (hA : At s .clear)
    (h : step s a = some s') : ∃ g, At s' g := by
  obtain ⟨hi, he, hp⟩ := hA
  have ha := hp a.thread
  have hstay : ∀ {t : T} {p : Pc}, p.early = true → ∀ u, ((s.goto t p).pc u).early = true :=
    fun hp' => forall_goto (P := fun _ p => p.early = true) hp' fun u _ => hp u
  cases step_does h with
  | call t _ => exact ⟨.clear, hi, he, hstay rfl⟩
  | lock t _ _ => exact ⟨.clear, hi, he, hstay rfl⟩
  | early t _ hset => rw [hi] at hset; cases hset
  | test t _ _ => exact ⟨.clear, hi, he, hstay rfl⟩
  | set t hpt =>
    -- the thread that sets the indicator has the mutex
    have hm : s.mutex = some t := hown t (by rw [hpt]; rfl)
    refine ⟨.starting t, rfl, he, goto_pc_self s t _, fun u hu => ?_⟩
    have hnc : (s.pc u).crit = false := by
      by_contra hc
      have := hown u (by simpa using hc)
      rw [hm] at this
      exact hu (Option.some.inj this).symm
    have hue := hp u
    rw [show ({ s.goto t .startInit with indicator := true } : State T).pc u = s.pc u from goto_pc_ne s _ hu]
    revert hnc hue
    cases s.pc u <;> simp [Pc.crit, Pc.early, Pc.waits]
  | startInit t hpt => rw [Action.thread, hpt] at ha; cases ha
  | finishInit t hpt => rw [Action.thread, hpt] at ha; cases ha
  | unlock t hpt => rw [Action.thread, hpt] at ha; cases ha
  | ret t v hpt => rw [Action.thread, hpt] at ha; cases ha

theorem step_inside {s s' : State T} {a : Action T} (h : step s a = some s') (hp : s.pc a.thread ≠ .out) :
    one_time_init s a.thread = some s' := by
  cases a with
  | call t => rw [step, if_neg (show s.pc t ≠ .out from hp)] at h; cases h
  | next t => exact h

/-- The stages in which `t` has the mutex and runs `init`. -/
theorem at_init_step {s s' : State T} {a : Action T} {t : T} (hown : CritOwns s)
    (hA : At s (.starting t) ∨ At s (.running t) ∨ At s (.unlocking t)) (h : step s a = some s') :
    ∃ g, At s' g := by
  have hd := step_does h
  have hwait : ∀ u, u ≠ t → (s.pc u).waits = true := by
    rcases hA with hA | hA | hA
    · exact hA.2.2.2
    · exact hA.2.2.2
    · exact hA.2.2.2
  have hm : s.mutex = some t := by
    refine hown t ?_
    rcases hA with hA | hA | hA
    · rw [hA.2.2.1]; rfl
    · rw [hA.2.2.1]; rfl
    · rw [hA.2.2.1]; rfl
  by_cases hat : a.thread = t
  · subst hat
    have hstay : ∀ {s' : State T} {p : Pc}, s'.pc = (s.goto a.thread p).pc →
        ∀ u, u ≠ a.thread → (s'.pc u).waits = true := fun hpc u hu => by
      rw [hpc, goto_pc_ne s _ hu]
      exact hwait u hu
    rcases hA with ⟨hi, he, hp, -⟩ | ⟨hi, he, hp, -⟩ | ⟨hi, he, hp, -⟩
    · have h := step_inside h (by rw [hp]; decide)
      simp only [one_time_init, hp, he, List.nil_append, Option.some.injEq] at h
      subst h
      exact ⟨.running a.thread, hi, rfl, goto_pc_self s _ _, hstay rfl⟩
    · have h := step_inside h (by rw [hp]; decide)
      simp only [one_time_init, hp, he, List.singleton_append, Option.some.injEq] at h
      subst h
      exact ⟨.unlocking a.thread, hi, rfl, goto_pc_self s _ _, hstay rfl⟩
    · have h := step_inside h (by rw [hp]; decide)
      simp only [one_time_init, hp, Option.some.injEq] at h
      subst h
      refine ⟨.returning a.thread, hi, ⟨[], he, fun e h => by cases h⟩, goto_pc_self s _ _, fun u hu => ?_⟩
      exact Pc.late_of_waits (hstay rfl u hu)
  · obtain ⟨hi', he', hp', hw'⟩ := waits_step hd hm hwait hat
    rcases hA with ⟨hi, he, hp, -⟩ | ⟨hi, he, hp, -⟩ | ⟨hi, he, hp, -⟩
    · exact ⟨.starting t, hi'.trans hi, he'.trans he, hp'.trans hp, hw'⟩
    · exact ⟨.running t, hi'.trans hi, he'.trans he, hp'.trans hp, hw'⟩
    · exact ⟨.unlocking t, hi'.trans hi, he'.trans he, hp'.trans hp, hw'⟩

/-- The stages in which `init` has run and the mutex was released. -/
theorem at_late_step {s s' : State T} {a : Action T} {t : T} (hA : At s (.returning t) ∨ At s (.returned t))
    (h : step s a = some s') : ∃ g, At s' g := by
  rcases hA with ⟨hi, ⟨rs, he, hrs⟩, hp, hl⟩ | ⟨hi, ⟨rs, qs, he, hrs, hqs⟩, hl⟩
  · by_cases hat : a.thread = t
    · subst hat
      have h := step_inside h (by rw [hp]; decide)
      simp only [one_time_init, hp, he, List.cons_append, Option.some.injEq] at h
      subst h
      refine ⟨.returned a.thread, hi, ⟨rs, [], rfl, hrs, fun e h => by cases h⟩, ?_⟩
      exact forall_goto (P := fun _ p => p.late = true) rfl hl
    · obtain ⟨hi', ha, he'⟩ := late_step (step_does h) hi (hl _ hat)
      refine ⟨.returning t, hi', ?_, (step_pc_ne h (Ne.symm hat)).trans hp, late_others h hl ha⟩
      rcases he' with he' | he'
      · exact ⟨rs, he'.trans he, hrs⟩
      · refine ⟨rs ++ [.returned a.thread 1], by rw [he', he]; rfl, fun e hmem => ?_⟩
        rcases List.mem_append.mp hmem with hmem | hmem
        · exact hrs e hmem
        · exact ⟨a.thread, hat, List.mem_singleton.mp hmem⟩
  · obtain ⟨hi', ha, he'⟩ := late_step (step_does h) hi (hl _)
    refine ⟨.returned t, hi', ?_, fun u => late_others h (P := fun _ => True) (fun u _ => hl u) ha u trivial⟩
    rcases he' with he' | he'
    · exact ⟨rs, qs, he'.trans he, hrs, hqs⟩
    · refine ⟨rs, qs ++ [.returned a.thread 1], by rw [he', he]; simp, hrs, fun e hmem => ?_⟩
      rcases List.mem_append.mp hmem with hmem | hmem
      · exact hqs e hmem
      · exact ⟨a.thread, List.mem_singleton.mp hmem⟩

/-- **The step lemma.** A step stays in its stage or enters the next one. -/
theorem at_step {s s' : State T} {a : Action T} {g : Stage T} (hown : CritOwns s) (hA : At s g)
    (h : step s a = some s') : ∃ g', At s' g' := by
  cases g with
  | clear => exact at_clear_step hown hA h
  | starting t => exact at_init_step hown (.inl hA) h
  | running t => exact at_init_step hown (.inr (.inl hA)) h
  | unlocking t => exact at_init_step hown (.inr (.inr hA)) h
  | returning t => exact at_late_step (.inl hA) h
  | returned t => exact at_late_step (.inr hA) h

theorem reachable_at {s : State T} (h : (once T).Reachable s) : ∃ g, At s g := by
  have hI : CritOwns s ∧ ∃ g, At s g := by
    refine h.invariant (I := fun s => CritOwns s ∧ ∃ g, At s g) (fun s hs => ?_) fun s a s' hI _ hst => ?_
    · have hs : s = start := hs
      subst hs
      exact ⟨fun t ht => absurd ht Bool.false_ne_true, .clear, rfl, rfl, fun _ => rfl⟩
    · obtain ⟨hown, g, hA⟩ := hI
      exact ⟨critOwns_step hown hst, at_step hown hA hst⟩
  exact hI.2

/-! ### The events of a run -/

omit [DecidableEq T] in
/-- Before the first return nothing is claimed but that `init` is started once. -/
theorem Once.of_noReturn {es : List (Event T)} (h1 : (es.filter fun e => e matches .start _).length ≤ 1)
    (hret : ∀ t v, .returned t v ∉ es) : Once es := by
  have hno : ∀ {as bs : List (Event T)} {t : T} {v : ℕ}, es ≠ as ++ .returned t v :: bs := by
    rintro as bs t v rfl
    exact hret t v (by simp)
  refine ⟨h1, ?_, fun as bs t h => absurd h hno, fun as bs t v h => absurd h hno⟩
  rw [List.filter_eq_nil_iff.mpr]
  · exact Nat.zero_le 1
  · intro e he
    cases e with
    | start t => simp
    | finish t => simp
    | returned t v => exact absurd he (hret t v)

omit [DecidableEq T] in
theorem split_return {t u : T} {v : ℕ} {l as bs : List (Event T)}
    (h : .start t :: .finish t :: l = as ++ .returned u v :: bs) :
    ∃ as', as = .start t :: .finish t :: as' ∧ l = as' ++ .returned u v :: bs := by
  match as, h with
  | e :: e' :: as', h =>
    simp only [List.cons_append, List.cons.injEq] at h
    obtain ⟨rfl, rfl, h⟩ := h
    exact ⟨as', rfl, h⟩
  | [e], h => simp at h
  | [], h => simp at h

omit [DecidableEq T] in
/-- The events of `init`, and then returns of which only one is 0, the first of
the thread that ran it. -/
theorem Once.of_returns {t : T} {l : List (Event T)}
    (hl : ∀ e ∈ l, ∃ u v, e = .returned u v ∧ (v = 0 ∨ v = 1))
    (hz : (l.filter fun e => e matches .returned _ 0).length ≤ 1)
    (hran : ∀ as bs u, l = as ++ .returned u 0 :: bs → u = t ∧ ∀ v, .returned t v ∉ as) :
    Once (.start t :: .finish t :: l) := by
  refine ⟨?_, hz, fun as bs u h => ?_, fun as bs u v h => ?_⟩
  · have hstart : l.filter (fun e => e matches .start _) = [] := by
      rw [List.filter_eq_nil_iff]
      intro e he
      obtain ⟨u, v, rfl, -⟩ := hl e he
      simp
    simp [hstart]
  · obtain ⟨as', rfl, hsplit⟩ := split_return h
    obtain ⟨rfl, hno⟩ := hran as' bs u hsplit
    refine ⟨[], .finish u :: as', rfl, List.mem_cons_self, fun v hv => ?_⟩
    rcases List.mem_cons.mp hv with hv | hv
    · cases hv
    · exact hno v hv
  · obtain ⟨as', rfl, hsplit⟩ := split_return h
    obtain ⟨u', v', he, hv⟩ := hl (.returned u v) (by rw [hsplit]; simp)
    cases he
    exact ⟨hv, t, by simp⟩

omit [DecidableEq T] in
theorem not_zero_mem {rs : List (Event T)} (h : ∀ e ∈ rs, ∃ u, e = .returned u 1) (u : T) :
    .returned u 0 ∉ rs := by
  intro hmem
  obtain ⟨v, hv⟩ := h _ hmem
  cases hv

omit [DecidableEq T] in
theorem filter_zero {rs : List (Event T)} (h : ∀ e ∈ rs, ∃ u, e = .returned u 1) :
    rs.filter (fun e => e matches .returned _ 0) = [] := by
  rw [List.filter_eq_nil_iff]
  intro e he
  obtain ⟨u, rfl⟩ := h e he
  simp

omit [DecidableEq T] in
theorem At.once {s : State T} {g : Stage T} (hA : At s g) : Once s.events := by
  cases g with
  | clear => exact hA.2.1 ▸ .of_noReturn (by simp) (by simp)
  | starting t => exact hA.2.1 ▸ .of_noReturn (by simp) (by simp)
  | running t => exact hA.2.1 ▸ .of_noReturn (by simp) (by simp)
  | unlocking t => exact hA.2.1 ▸ .of_noReturn (by simp) (by simp)
  | returning t =>
    obtain ⟨-, ⟨rs, he, hrs⟩, -⟩ := hA
    have hone : ∀ e ∈ rs, ∃ u, e = .returned u 1 := fun e h => (hrs e h).imp fun u hu => hu.2
    rw [he]
    refine .of_returns (fun e h => ?_) (by rw [filter_zero hone]; exact Nat.zero_le 1) fun as bs u h => ?_
    · obtain ⟨u, hu⟩ := hone e h
      exact ⟨u, 1, hu, .inr rfl⟩
    · exact absurd (by rw [h]; simp) (not_zero_mem hone u)
  | returned t =>
    obtain ⟨-, ⟨rs, qs, he, hrs, hqs⟩, -⟩ := hA
    have hone : ∀ e ∈ rs, ∃ u, e = .returned u 1 := fun e h => (hrs e h).imp fun u hu => hu.2
    rw [he]
    refine .of_returns (fun e h => ?_) ?_ fun as bs u h => ?_
    · rcases List.mem_append.mp h with h | h
      · obtain ⟨u, hu⟩ := hone e h
        exact ⟨u, 1, hu, .inr rfl⟩
      rcases List.mem_cons.mp h with rfl | h
      · exact ⟨t, 0, rfl, .inl rfl⟩
      · obtain ⟨u, hu⟩ := hqs e h
        exact ⟨u, 1, hu, .inr rfl⟩
    · rw [List.filter_append, filter_zero hone, List.nil_append, List.filter_cons_of_pos (by rfl),
        filter_zero hqs]
      exact Nat.le_refl 1
    · -- the only return of 0
      obtain ⟨rfl, hu, -⟩ := (List.append_cons_inj_of_notMem (not_zero_mem hone u) (not_zero_mem hqs u)).mp h
      cases hu
      refine ⟨rfl, fun v hv => ?_⟩
      obtain ⟨u, hut, hu⟩ := hrs _ hv
      cases hu
      exact hut rfl

/-- **`init` runs once, and is complete before any call returns**, in every run
of any number of threads and calls. -/
theorem init_once (s : State T) (h : (once T).Reachable s) : Once s.events := by
  obtain ⟨g, hA⟩ := reachable_at h
  exact hA.once

/-- Two calls of one thread: the first runs `init` and returns 0, the second
returns 1. -/
theorem init_once_twoCalls : ∃ s : State ℕ, (once ℕ).run start twoCalls = some s ∧
    s.events = [.start 0, .finish 0, .returned 0 0, .returned 0 1] ∧ Once s.events := by
  have hr : ∃ s : State ℕ, (once ℕ).run start twoCalls = some s ∧
      s.events = [.start 0, .finish 0, .returned 0 0, .returned 0 1] := ⟨_, rfl, rfl⟩
  obtain ⟨s, hs, he⟩ := hr
  exact ⟨s, hs, he, init_once s (.of_run rfl hs)⟩

end OneTimeInit
end Autumn
