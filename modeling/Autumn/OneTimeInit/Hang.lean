/-
# One-time initialisation: which calls return

The early return leaves the mutex locked. So the mutex is locked by two calls at
most: the one that runs `init`, and one that finds the indicator set. However many
calls are made, at most two ever return (`Late`), and a call that has come to the
lock can still return exactly if the mutex is not with a call that finds, or has
found, the indicator set (`Shut`).

Key definitions: `Late`, `Shut`.
Key theorems: `Late.step`, `returns_le`, `shut_step`, `exists_run_out`, `exists_run_free`,
`two_return`.
-/
import Autumn.OneTimeInit.Once

namespace Autumn
namespace OneTimeInit

variable {T : Type} [DecidableEq T]

/-- The event is a call's return of `v`. -/
def Event.returns (v : ℕ) : Event T → Bool
  | .returned _ w => w = v
  | _ => false

/-- The event is a return. -/
def Event.isReturn : Event T → Bool
  | .returned _ _ => true
  | _ => false

/-- How often a call has returned 1. -/
def ones (s : State T) : ℕ := s.events.countP (Event.returns 1)

/-- How far the early return has come: no call has made it, one is making it, one
has. -/
inductive Late (s : State T) : Prop
  | none : ones s = 0 → (∀ u, s.pc u ≠ .ret 1) → Late s
  | leaving (u : T) : ones s = 0 → Leaked u s → s.pc u = .ret 1 → (∀ v, v ≠ u → s.pc v ≠ .ret 1) → Late s
  | left (u : T) : ones s = 1 → Leaked u s → (∀ v, s.pc v ≠ .ret 1) → Late s

/-- The mutex is with a call that finds the indicator set, or has found it. -/
def Shut (s : State T) : Prop :=
  ∃ u, s.mutex = some u ∧ s.indicator = true ∧ (s.pc u = .test ∨ (s.pc u).crit = false)

/-! ### At most two calls return -/

omit [DecidableEq T] in
theorem ones_concat {s s' : State T} {e : Event T} (h : s'.events = s.events ++ [e]) :
    ones s' = ones s + if e.returns 1 then 1 else 0 := by
  rw [ones, h, List.countP_append, List.countP_singleton, ← ones]

theorem step_return {s s' : State T} {a : Action T} (h : step s a = some s') :
    (s.pc a.thread = .test ∧ s' = s.goto a.thread (.ret 1)) ∨
    (∃ v, s.pc a.thread = .ret v ∧ s'.pc a.thread ≠ .ret 1 ∧ ones s' = ones s + if v = 1 then 1 else 0) ∨
    ((∀ v, s.pc a.thread ≠ .ret v) ∧ s'.pc a.thread ≠ .ret 1 ∧ ones s' = ones s) := by
  cases step_does h with
  | early t ht _ => exact .inl ⟨ht, rfl⟩
  | ret t v ht =>
    refine .inr (.inl ⟨v, ht, ?_, ?_⟩)
    · exact ne_of_eq_of_ne (goto_pc_self s t .out) (by simp)
    · rw [ones_concat rfl]
      simp [Event.returns]
  | call t ht => exact .inr (.inr ⟨by simp [Action.thread, ht], by simp [Action.thread], rfl⟩)
  | lock t ht _ => exact .inr (.inr ⟨by simp [Action.thread, ht], ne_of_eq_of_ne (goto_pc_self s t _) (by simp), rfl⟩)
  | test t ht _ => exact .inr (.inr ⟨by simp [Action.thread, ht], by simp [Action.thread], rfl⟩)
  | set t ht => exact .inr (.inr ⟨by simp [Action.thread, ht], ne_of_eq_of_ne (goto_pc_self s t _) (by simp), rfl⟩)
  | startInit t ht =>
    exact .inr (.inr ⟨by simp [Action.thread, ht], ne_of_eq_of_ne (goto_pc_self s t _) (by simp),
      (ones_concat rfl).trans (Nat.add_zero _)⟩)
  | finishInit t ht =>
    exact .inr (.inr ⟨by simp [Action.thread, ht], ne_of_eq_of_ne (goto_pc_self s t _) (by simp),
      (ones_concat rfl).trans (Nat.add_zero _)⟩)
  | unlock t ht => exact .inr (.inr ⟨by simp [Action.thread, ht], ne_of_eq_of_ne (goto_pc_self s t _) (by simp), rfl⟩)

theorem leaked_early {s : State T} {t : T} (hown : CritOwns s) (ht : s.pc t = .test) :
    Leaked t (s.goto t (.ret 1)) := by
  have hm : s.mutex = some t := hown t (by rw [ht]; rfl)
  refine ⟨hm, forall_goto (P := fun _ p => p.crit = false) rfl fun u hu => ?_⟩
  by_contra hc
  have := hown u (by simpa using hc)
  rw [hm] at this
  exact hu (Option.some.inj this).symm

theorem Late.step {s s' : State T} {a : Action T} (hown : CritOwns s) (hL : Late s) (h : step s a = some s') :
    Late s' := by
  have hothers : s'.pc a.thread ≠ .ret 1 → ∀ {P : T → Prop}, (∀ u, P u → s.pc u ≠ .ret 1) →
      ∀ u, P u → s'.pc u ≠ .ret 1 := by
    intro ha P hs u hu
    by_cases hut : u = a.thread
    · rw [hut]
      exact ha
    · rw [step_pc_ne h hut]
      exact hs u hu
  cases hL with
  | none h0 hpc =>
    rcases step_return h with ⟨ht, rfl⟩ | ⟨v, ht, hs', hones⟩ | ⟨-, hs', hones⟩
    · refine .leaving a.thread h0 (leaked_early hown ht) (goto_pc_self s _ _) fun v hv => ?_
      rw [goto_pc_ne s _ hv]
      exact hpc v
    · have hv : v ≠ 1 := fun hv => hpc a.thread (by rw [ht, hv])
      rw [if_neg hv] at hones
      exact .none (hones.trans h0) fun u => hothers hs' (P := fun _ => True) (fun u _ => hpc u) u trivial
    · exact .none (hones.trans h0) fun u => hothers hs' (P := fun _ => True) (fun u _ => hpc u) u trivial
  | leaving u h0 hleak hu hpc =>
    rcases step_return h with ⟨ht, rfl⟩ | ⟨v, ht, hs', hones⟩ | ⟨ha, hs', hones⟩
    · have := hleak.2 a.thread
      rw [ht] at this
      cases this
    · by_cases hau : a.thread = u
      · rw [hau, hu] at ht
        obtain rfl := Pc.ret.inj ht
        refine .left u (by rw [hones, h0]; rfl) (leaked_step hleak h) fun w => ?_
        by_cases hw : w = u
        · rw [hw, ← hau]
          exact hs'
        · exact hothers hs' hpc w hw
      · have hv : v ≠ 1 := fun hv => hpc a.thread hau (by rw [ht, hv])
        rw [if_neg hv] at hones
        exact .leaving u (hones.trans h0) (leaked_step hleak h) ((step_pc_ne h (Ne.symm hau)).trans hu)
          (hothers hs' hpc)
    · have hau : u ≠ a.thread := fun hau => ha 1 (by rw [← hau, hu])
      exact .leaving u (hones.trans h0) (leaked_step hleak h) ((step_pc_ne h hau).trans hu) (hothers hs' hpc)
  | left u h1 hleak hpc =>
    rcases step_return h with ⟨ht, rfl⟩ | ⟨v, ht, hs', hones⟩ | ⟨-, hs', hones⟩
    · have := hleak.2 a.thread
      rw [ht] at this
      cases this
    · have hv : v ≠ 1 := fun hv => hpc a.thread (by rw [ht, hv])
      rw [if_neg hv] at hones
      exact .left u (hones.trans h1) (leaked_step hleak h)
        fun w => hothers hs' (P := fun _ => True) (fun w _ => hpc w) w trivial
    · exact .left u (hones.trans h1) (leaked_step hleak h)
        fun w => hothers hs' (P := fun _ => True) (fun w _ => hpc w) w trivial

theorem reachable_late {s : State T} (h : (once T).Reachable s) : Late s := by
  have hI : CritOwns s ∧ Late s := by
    refine h.invariant (I := fun s => CritOwns s ∧ Late s) (fun s hs => ?_) fun s a s' hI _ hst => ?_
    · have hs : s = start := hs
      subst hs
      exact ⟨fun t ht => absurd ht Bool.false_ne_true, .none rfl fun u => by simp [start]⟩
    · exact ⟨critOwns_step hI.1 hst, hI.2.step hI.1 hst⟩
  exact hI.2

omit [DecidableEq T] in
theorem countP_returns {l : List (Event T)} (hl : ∀ t v, .returned t v ∈ l → v = 0 ∨ v = 1) :
    l.countP Event.isReturn = l.countP (Event.returns 0) + l.countP (Event.returns 1) := by
  induction l with
  | nil => rfl
  | cons e l ih =>
    have ih := ih fun t v hv => hl t v (List.mem_cons_of_mem _ hv)
    rw [List.countP_cons, List.countP_cons, List.countP_cons, ih]
    cases e with
    | start t => rfl
    | finish t => rfl
    | returned t v =>
      rcases hl t v List.mem_cons_self with rfl | rfl
      · exact Nat.add_right_comm _ _ 1
      · exact Nat.add_assoc _ _ 1

omit [DecidableEq T] in
theorem Once.countP_zero {es : List (Event T)} (h : Once es) : es.countP (Event.returns 0) ≤ 1 := by
  rw [List.countP_eq_length_filter]
  refine Nat.le_trans (Nat.le_of_eq (congrArg List.length (List.filter_congr fun e _ => ?_))) h.zero
  cases e with
  | start t => rfl
  | finish t => rfl
  | returned t v =>
    cases v with
    | zero => rfl
    | succ v => rfl

omit [DecidableEq T] in
theorem ones_le {s : State T} (h : Late s) : ones s ≤ 1 := by
  cases h with
  | none h0 => rw [h0]; exact Nat.zero_le 1
  | leaving u h0 => rw [h0]; exact Nat.zero_le 1
  | left u h1 => exact Nat.le_of_eq h1

/-- **At most two calls ever return.** -/
theorem returns_le {s : State T} (h : (once T).Reachable s) : s.events.countP Event.isReturn ≤ 2 := by
  obtain ⟨g, hA⟩ := reachable_at h
  have hOnce : Once s.events := hA.once
  have hones := ones_le (reachable_late h)
  have hzero := hOnce.countP_zero
  rw [countP_returns fun t v hv => ?_]
  · unfold ones at hones
    omega
  · obtain ⟨as, bs, hes⟩ := List.append_of_mem hv
    exact (hOnce.complete as bs t v hes).1

/-! ### Who can still return -/

/-- Once the mutex is with a call that finds the indicator set, a call at the lock
stays there. -/
theorem shut_step {s s' : State T} {a : Action T} {t : T} (hown : CritOwns s) (hS : Shut s) (ht : s.pc t = .lock)
    (h : step s a = some s') : Shut s' ∧ s'.pc t = .lock := by
  obtain ⟨u, hm, hi, hu⟩ := hS
  have hnot : ∀ {v}, (s.pc v).crit = true → s.pc v = .test := by
    intro v hv
    obtain rfl : u = v := Option.some.inj (hm.symm.trans (hown v hv))
    rcases hu with hu | hu
    · exact hu
    · rw [hv] at hu
      cases hu
  have hstay : ∀ {v p}, (p = .test ∨ p.crit = false) → ∀ w, (s.pc w = .test ∨ (s.pc w).crit = false) →
      (s.goto v p).pc w = .test ∨ ((s.goto v p).pc w).crit = false := by
    intro v p hp w hw
    by_cases hwv : w = v
    · rw [hwv, goto_pc_self]
      exact hp
    · rw [goto_pc_ne s p hwv]
      exact hw
  have hlock : ∀ {v p}, s.pc v ≠ .lock → (s.goto v p).pc t = .lock := by
    intro v p hv
    rw [goto_pc_ne s p fun htv => hv (by rw [← htv, ht]), ht]
  cases step_does h with
  | call v hv => exact ⟨⟨u, hm, hi, hstay (.inr rfl) u hu⟩, hlock (by simp [hv])⟩
  | lock v _ hfree => rw [hm] at hfree; cases hfree
  | early v hv _ => exact ⟨⟨u, hm, hi, hstay (.inr rfl) u hu⟩, hlock (by simp [hv])⟩
  | test v _ hc => rw [hi] at hc; cases hc
  | set v hv => have := hnot (by rw [hv]; rfl); rw [hv] at this; cases this
  | startInit v hv => have := hnot (by rw [hv]; rfl); rw [hv] at this; cases this
  | finishInit v hv => have := hnot (by rw [hv]; rfl); rw [hv] at this; cases this
  | unlock v hv => have := hnot (by rw [hv]; rfl); rw [hv] at this; cases this
  | ret v n hv => exact ⟨⟨u, hm, hi, hstay (.inr rfl) u hu⟩, hlock (by simp [hv])⟩

/-- The steps that a call has before it, once it has the mutex. -/
def Pc.rest : Pc → ℕ
  | .test => 6
  | .set => 5
  | .startInit => 4
  | .finishInit => 3
  | .unlock => 2
  | .ret _ => 1
  | .out | .lock => 0

theorem exists_next {s : State T} {t : T} (hl : s.pc t ≠ .lock) (ho : s.pc t ≠ .out) :
    ∃ s', step s (.next t) = some s' ∧ s'.pc t ≠ .lock ∧ (s'.pc t).rest < (s.pc t).rest := by
  have hsome : ∃ s', step s (.next t) = some s' := by
    simp only [step, one_time_init]
    cases hp : s.pc t with
    | out => exact absurd hp ho
    | lock => exact absurd hp hl
    | _ => exact ⟨_, rfl⟩
  obtain ⟨s', hst⟩ := hsome
  have hgoto : ∀ {p}, (s.goto t p).pc t = p := goto_pc_self s t _
  have hnext : ∀ {x : State T} {p q}, x.pc t = p → s.pc t = q → p ≠ .lock ∧ p.rest < q.rest →
      x.pc t ≠ .lock ∧ (x.pc t).rest < (s.pc t).rest := fun hx hs h => by rwa [hx, hs]
  refine ⟨s', hst, ?_⟩
  cases step_does hst with
  | lock _ hp => exact absurd hp hl
  | early _ hp => exact hnext hgoto hp (by decide)
  | test _ hp => exact hnext hgoto hp (by decide)
  | set _ hp => exact hnext hgoto hp (by decide)
  | startInit _ hp => exact hnext hgoto hp (by decide)
  | finishInit _ hp => exact hnext hgoto hp (by decide)
  | unlock _ hp => exact hnext hgoto hp (by decide)
  | ret _ v hp => exact hnext hgoto hp ⟨by decide, Nat.zero_lt_one⟩

/-- **Whoever has got the mutex returns.** -/
theorem exists_run_out {s : State T} {t : T} (hl : s.pc t ≠ .lock) :
    ∃ as s', (once T).run s as = some s' ∧ s'.pc t = .out := by
  obtain ⟨as, s', hr, -, hd⟩ := System.exists_run_done (M := once T) (I := fun x => x.pc t ≠ .lock)
    (D := fun x => x.pc t = .out) (fun x => (x.pc t).rest) (fun x hx hd => by
      obtain ⟨x', hst, hx', hlt⟩ := exists_next hx hd
      exact ⟨.next t, x', hst, hx', hlt⟩) s hl
  exact ⟨as, s', hr, hd⟩

/-- Until the indicator is set the owner of the mutex is on its way to the unlock. -/
theorem reachable_ownerCrit {s : State T} (h : (once T).Reachable s) : s.indicator = false → OwnerCrit s := by
  refine h.invariant (I := fun s => s.indicator = false → OwnerCrit s) (fun s hs _ t ht => ?_)
    fun s a s' hI _ hst hi => ?_
  · have hs : s = start := hs
    subst hs
    cases ht
  · have hclear : s.indicator = false := by
      cases step_does hst with
      | set => cases hi
      | _ => exact hi
    refine ownerCrit_step (hI hclear) ?_ hst
    cases a with
    | call t => trivial
    | next t => exact fun _ => hclear

/-- The mutex is free, or with `u`, which is going to unlock it; the other threads
are where they are in `s`. -/
structure Freeing (s : State T) (u : T) (x : State T) : Prop where
  others : ∀ v, v ≠ u → x.pc v = s.pc v
  mutex : x.mutex = none ∨ (x.pc u).crit = true ∧ (x.pc u = .test → x.indicator = false)

/-- The call that has the mutex takes a step towards the unlock. -/
theorem Freeing.step {s x x' : State T} {u : T} (h : Freeing s u x) (hm : x.mutex ≠ none)
    (hst : OneTimeInit.step x (.next u) = some x') : Freeing s u x' := by
  obtain ⟨hothers, hmutex⟩ := h
  obtain ⟨hcrit, htest⟩ := hmutex.resolve_left hm
  refine ⟨fun v hv => (step_pc_ne hst hv).trans (hothers v hv), ?_⟩
  have hgoto : ∀ {p}, (x.goto u p).pc u = p := goto_pc_self x u _
  cases step_does hst with
  | lock _ hp => rw [hp] at hcrit; cases hcrit
  | early _ hp hi => rw [htest hp] at hi; cases hi
  | test _ hp hi => exact .inr ⟨by rw [hgoto]; rfl, fun _ => hi⟩
  | set _ hp => exact .inr ⟨congrArg Pc.crit hgoto, fun h => nomatch hgoto.symm.trans h⟩
  | startInit _ hp => exact .inr ⟨congrArg Pc.crit hgoto, fun h => nomatch hgoto.symm.trans h⟩
  | finishInit _ hp => exact .inr ⟨congrArg Pc.crit hgoto, fun h => nomatch hgoto.symm.trans h⟩
  | unlock _ hp => exact .inl rfl
  | ret _ v hp => rw [hp] at hcrit; cases hcrit

/-- A call that has the mutex and does not find the indicator set gets to the
unlock; the others stay where they are. -/
theorem exists_run_free {s : State T} {u : T} (hu : (s.pc u).crit = true)
    (hi : s.pc u = .test → s.indicator = false) :
    ∃ as s', (once T).run s as = some s' ∧ s'.mutex = none ∧ ∀ v, v ≠ u → s'.pc v = s.pc v := by
  obtain ⟨as, s', hr, hI, hd⟩ := System.exists_run_done (M := once T) (I := Freeing s u)
    (D := fun x => x.mutex = none) (fun x => (x.pc u).rest) (fun x hx hd => by
      have hcrit := (hx.mutex.resolve_left hd).1
      obtain ⟨x', hst, -, hlt⟩ := exists_next (s := x) (t := u) (fun h => by rw [h] at hcrit; cases hcrit)
        fun h => by rw [h] at hcrit; cases hcrit
      exact ⟨.next u, x', hst, hx.step hd hst, hlt⟩) s ⟨fun _ _ => rfl, .inr ⟨hu, hi⟩⟩
  exact ⟨as, s', hr, hd, hI.others⟩

/-- **A call at the lock can return exactly if the mutex is not with one that finds
the indicator set**, or has found it; and at most two calls ever return. -/
theorem two_return (s : State T) (h : (once T).Reachable s) :
    s.events.countP Event.isReturn ≤ 2 ∧
    ∀ t, s.pc t = .lock → ((∃ as s', (once T).run s as = some s' ∧ s'.pc t = .out) ↔ ¬ Shut s) := by
  refine ⟨returns_le h, fun t ht => ⟨?_, fun hS => ?_⟩⟩
  · rintro ⟨as, s', hr, hout⟩ hS
    have hI : CritOwns s' ∧ Shut s' ∧ s'.pc t = .lock := by
      refine System.run_invariant (M := once T) (I := fun x => CritOwns x ∧ Shut x ∧ x.pc t = .lock)
        (fun x a x' hI hst => ?_) ⟨reachable_crit h, hS, ht⟩ hr
      exact ⟨critOwns_step hI.1 hst, shut_step hI.1 hI.2.1 hI.2.2 hst⟩
    rw [hI.2.2] at hout
    cases hout
  · obtain ⟨as, s', hr, hfree, hlock⟩ : ∃ as s', (once T).run s as = some s' ∧ s'.mutex = none ∧ s'.pc t = .lock := by
      cases hm : s.mutex with
      | none => exact ⟨[], s, rfl, hm, ht⟩
      | some u =>
        -- who has it does not find the indicator set
        have hu : (s.pc u).crit = true ∧ (s.pc u = .test → s.indicator = false) := by
          cases hi : s.indicator with
          | false => exact ⟨reachable_ownerCrit h hi u hm, fun _ => rfl⟩
          | true =>
            refine ⟨?_, fun htest => absurd ⟨u, hm, hi, .inl htest⟩ hS⟩
            by_contra hc
            exact hS ⟨u, hm, hi, .inr (by simpa using hc)⟩
        obtain ⟨as, s', hr, hfree, hothers⟩ := exists_run_free hu.1 hu.2
        have htu : t ≠ u := fun htu => by rw [← htu, ht] at hu; cases hu.1
        exact ⟨as, s', hr, hfree, (hothers t htu).trans ht⟩
    have hst : step s' (.next t) = some { s'.goto t .test with mutex := some t } := by
      simp only [step, one_time_init, hlock, hfree]
    have hpc : ({ s'.goto t .test with mutex := some t } : State T).pc t ≠ .lock :=
      ne_of_eq_of_ne (goto_pc_self s' t .test) (by simp)
    obtain ⟨bs, s'', hr', hout⟩ := exists_run_out hpc
    refine ⟨as ++ .next t :: bs, s'', ?_, hout⟩
    rw [System.run_append, hr, Option.bind_some, System.run_cons]
    show (step s' (.next t)).bind _ = _
    rw [hst, Option.bind_some, hr']

/-- After two calls, a third one. -/
theorem two_return_third : ∃ s : State ℕ, (once ℕ).run start (twoCalls ++ [.call 1]) = some s ∧
    s.events.countP Event.isReturn = 2 ∧ s.events.countP Event.isReturn ≤ 2 ∧
      ¬ ∃ as s', (once ℕ).run s as = some s' ∧ s'.pc 1 = .out := by
  have hr : ∃ s : State ℕ, (once ℕ).run start (twoCalls ++ [.call 1]) = some s ∧
      s.events.countP Event.isReturn = 2 ∧ s.pc 1 = .lock ∧ s.mutex = some 0 ∧ s.indicator = true ∧
      (s.pc 0).crit = false := ⟨_, rfl, rfl, rfl, rfl, rfl, rfl⟩
  obtain ⟨s, hs, htwo, hlock, hm, hi, hc⟩ := hr
  obtain ⟨hle, hreturn⟩ := two_return s (.of_run rfl hs)
  exact ⟨s, hs, htwo, hle, fun hmore => (hreturn 1 hlock).mp hmore ⟨0, hm, hi, .inr hc⟩⟩

end OneTimeInit
end Autumn
