/-
# Transition systems with partial, labelled steps

A program whose threads interleave is a `System`: initial states and, for
each action a scheduler or an environment can choose, a partial step (`none`
where the action is not enabled). A run is a list of actions. `Reach ok`
holds of the states that runs reach whose every step meets `ok` on the state
before it; `Reachable` puts no condition on the steps.

`concat_eq_append_cons` splits a history that is one step longer.
`Reach.invariant` is the induction over runs, once: what the initial states
satisfy and every step keeps holds of every state reached. `Sim.reach` is
forward simulation: what the abstract system's states satisfy, the concrete
system's states satisfy through the relation. `exists_run_done` is progress by
a decreasing measure. `stays_iff_meets` is for exact conditions: a run stays
good if and only if each of its steps meets `ok`; and `run_good_or_bad` where
what one step has spoilt shows only later.

Key definitions: `System`, `System.run`, `System.Reach`, `System.Sim`.
Key theorems: `Reach.invariant`, `Reach.of_run`, `exists_run_done`,
`stays_iff_meets`, `run_good_or_bad`, `Sim.reach`.
-/
import Mathlib.Data.List.Basic
import Mathlib.Data.Option.Basic
import Mathlib.Tactic.TypeStar

namespace Autumn

/-- A history with one more step, split at one of its steps: at the last one, or
at one before it. -/
theorem concat_eq_append_cons {α : Type*} {l p r : List α} {a x : α} (h : l ++ [a] = p ++ x :: r) :
    (r = [] ∧ l = p ∧ a = x) ∨ ∃ r', r = r' ++ [a] ∧ l = p ++ x :: r' := by
  rcases List.eq_nil_or_concat r with rfl | ⟨r', y, rfl⟩
  · obtain ⟨hl, ha⟩ := List.append_inj' h rfl
    exact .inl ⟨rfl, hl, by simpa using ha⟩
  · rw [List.concat_eq_append, ← List.cons_append, ← List.append_assoc] at h
    obtain ⟨hl, ha⟩ := List.append_inj' h rfl
    have hay : a = y := by simpa using ha
    exact .inr ⟨r', by rw [List.concat_eq_append, hay], hl⟩

/-- A labelled transition system: the states a run starts from, and the state
an action leads to, where it is enabled. -/
structure System (σ α : Type*) where
  init : σ → Prop
  step : σ → α → Option σ

namespace System

variable {σ α τ β : Type*} (M : System σ α)

/-- The state after the actions, in order, if each of them is enabled. -/
def run : σ → List α → Option σ
  | s, [] => some s
  | s, a :: as => (M.step s a).bind fun t => run t as

@[simp] theorem run_nil (s : σ) : M.run s [] = some s := rfl

theorem run_cons (s : σ) (a : α) (as : List α) :
    M.run s (a :: as) = (M.step s a).bind fun t => M.run t as := rfl

@[simp] theorem run_single (s : σ) (a : α) : M.run s [a] = M.step s a := by
  rw [run_cons]
  cases M.step s a <;> rfl

theorem run_append : ∀ (s : σ) (as bs : List α),
    M.run s (as ++ bs) = (M.run s as).bind fun t => M.run t bs
  | s, [], bs => rfl
  | s, a :: as, bs => by
    simp only [List.cons_append, run_cons]
    cases M.step s a with
    | none => rfl
    | some t => exact run_append t as bs

theorem run_concat (s : σ) (as : List α) (a : α) :
    M.run s (as ++ [a]) = (M.run s as).bind fun t => M.step t a := by
  simp only [run_append, run_single]

/-- The states reached by runs whose every step meets `ok` on the state
before it. -/
inductive Reach (ok : σ → α → Prop) : σ → Prop
  | init {s : σ} : M.init s → Reach ok s
  | step {s t : σ} {a : α} : Reach ok s → ok s a → M.step s a = some t → Reach ok t

/-- The states any run reaches. -/
def Reachable : σ → Prop := M.Reach fun _ _ => True

/-- Every step the run takes meets `ok` on the state before it. -/
def Meets (ok : σ → α → Prop) : σ → List α → Prop
  | _, [] => True
  | s, a :: as => ok s a ∧ (M.step s a).elim True fun t => Meets ok t as

instance decidableMeets (ok : σ → α → Prop) [∀ s a, Decidable (ok s a)] :
    ∀ (s : σ) (as : List α), Decidable (M.Meets ok s as)
  | _, [] => inferInstanceAs (Decidable True)
  | s, a :: as =>
    match h : M.step s a with
    | none => decidable_of_iff (ok s a) (by simp [Meets, h])
    | some t =>
      have := decidableMeets ok t as
      decidable_of_iff (ok s a ∧ M.Meets ok t as) (by simp [Meets, h])

variable {M}

theorem meets_congr {ok ok' : σ → α → Prop} (h : ∀ s a, ok s a ↔ ok' s a) :
    ∀ (s : σ) (as : List α), M.Meets ok s as ↔ M.Meets ok' s as
  | _, [] => Iff.rfl
  | s, a :: as => by
    rw [Meets, Meets, h]
    cases M.step s a with
    | none => exact Iff.rfl
    | some t => exact and_congr_right fun _ => meets_congr h t as

namespace Reach

variable {ok : σ → α → Prop}

/-- **The invariant rule.** What holds at first and is kept by every step that
meets `ok` holds of every state reached. -/
theorem invariant {I : σ → Prop} (h0 : ∀ s, M.init s → I s)
    (hstep : ∀ s a t, I s → ok s a → M.step s a = some t → I t) {s : σ} (h : M.Reach ok s) :
    I s := by
  induction h with
  | init hs => exact h0 _ hs
  | step _ hok hst ih => exact hstep _ _ _ ih hok hst

theorem run {s : σ} (h : M.Reach ok s) : ∀ {as : List α} {t : σ}, M.Meets ok s as →
    M.run s as = some t → M.Reach ok t := by
  intro as
  induction as generalizing s with
  | nil => intro t _ hr; rw [run_nil] at hr; exact Option.some.inj hr ▸ h
  | cons a as ih =>
    intro t hm hr
    rw [run_cons] at hr
    obtain ⟨u, hu, hr⟩ := Option.bind_eq_some_iff.mp hr
    obtain ⟨hok, hm⟩ := hm
    rw [hu] at hm
    exact ih (.step h hok hu) hm hr

theorem of_run {s t : σ} (h0 : M.init s) {as : List α} (hm : M.Meets ok s as)
    (hr : M.run s as = some t) : M.Reach ok t :=
  (Reach.init h0).run hm hr

end Reach

theorem meets_true : ∀ (s : σ) (as : List α), M.Meets (fun _ _ => True) s as
  | _, [] => trivial
  | s, a :: as => by
    refine ⟨trivial, ?_⟩
    cases M.step s a with
    | none => trivial
    | some t => exact meets_true t as

theorem Reachable.of_run {s t : σ} (h0 : M.init s) {as : List α} (hr : M.run s as = some t) :
    M.Reachable t :=
  Reach.of_run h0 (meets_true s as) hr

/-- **The progress rule.** If from every state that satisfies `I` and is not
done some step keeps `I` and makes the measure smaller, a run from any such
state ends in one that is done. -/
theorem exists_run_done {I D : σ → Prop} (μ : σ → ℕ)
    (h : ∀ s, I s → ¬ D s → ∃ a t, M.step s a = some t ∧ I t ∧ μ t < μ s) (s : σ) (hs : I s) :
    ∃ as t, M.run s as = some t ∧ I t ∧ D t := by
  induction hn : μ s using Nat.strongRecOn generalizing s with
  | ind n ih =>
    by_cases hd : D s
    · exact ⟨[], s, rfl, hs, hd⟩
    obtain ⟨a, t, ht, hI, hlt⟩ := h s hs hd
    obtain ⟨as, u, hu, hIu, hdu⟩ := ih (μ t) (hn ▸ hlt) t hI rfl
    exact ⟨a :: as, u, by rw [run_cons, ht]; exact hu, hIu, hdu⟩

/-- **The exactness rule.** If from every good state every action is enabled, and
leads to a good state exactly if it meets `ok`, then a run stays in good states
exactly if each of its steps meets `ok`; `I` is what all steps keep. -/
theorem stays_iff_meets {I D : σ → Prop} {ok : σ → α → Prop}
    (h : ∀ s a, I s → D s → ∃ t, M.step s a = some t ∧ I t ∧ (D t ↔ ok s a)) :
    ∀ (as : List α) {s : σ}, I s → D s → ((∀ p, p <+: as → ∃ t, M.run s p = some t ∧ D t) ↔ M.Meets ok s as)
  | [], s, _, hd => by
    refine iff_of_true (fun p hp => ?_) trivial
    rw [List.prefix_nil.mp hp]
    exact ⟨s, rfl, hd⟩
  | a :: as, s, hI, hd => by
    obtain ⟨t, ht, hIt, hok⟩ := h s a hI hd
    rw [Meets, ht, Option.elim_some]
    constructor
    · intro hp
      have hdt : D t := by
        obtain ⟨u, hu, hdu⟩ := hp [a] ⟨as, rfl⟩
        rw [run_single, ht] at hu
        exact Option.some.inj hu ▸ hdu
      refine ⟨hok.mp hdt, (stays_iff_meets h as hIt hdt).mp fun p hpre => ?_⟩
      have := hp (a :: p) (List.cons_prefix_cons.mpr ⟨rfl, hpre⟩)
      rwa [run_cons, ht] at this
    · rintro ⟨hsa, hm⟩ p hp
      cases p with
      | nil => exact ⟨s, rfl, hd⟩
      | cons b p =>
        obtain ⟨rfl, hpre⟩ := List.cons_prefix_cons.mp hp
        rw [run_cons, ht]
        exact (stays_iff_meets h as hIt (hok.mpr hsa)).mpr hm p hpre

theorem run_invariant {I : σ → Prop} (hstep : ∀ s a t, I s → M.step s a = some t → I t) :
    ∀ {as : List α} {s t : σ}, I s → M.run s as = some t → I t
  | [], s, t, hs, hr => by
    rw [run_nil] at hr
    exact Option.some.inj hr ▸ hs
  | a :: as, s, t, hs, hr => by
    rw [run_cons] at hr
    obtain ⟨u, hu, hr⟩ := Option.bind_eq_some_iff.mp hr
    exact run_invariant hstep (hstep s a u hs hu) hr

/-- **The dividing rule.** If a step from a good state leads to a good one where it
meets `ok`, and to a bad one where it does not, and bad states stay bad, then a
run ends in a good or a bad state as all its steps meet `ok` or not. -/
theorem run_good_or_bad {G B : σ → Prop} {ok : σ → α → Prop}
    (hgood : ∀ s a t, G s → M.step s a = some t → ok s a ∧ G t ∨ ¬ ok s a ∧ B t)
    (hbad : ∀ s a t, B s → M.step s a = some t → B t) : ∀ {as : List α} {s t : σ}, G s → M.run s as = some t →
      M.Meets ok s as ∧ G t ∨ ¬ M.Meets ok s as ∧ B t
  | [], s, t, hs, hr => by
    rw [run_nil] at hr
    exact .inl ⟨trivial, Option.some.inj hr ▸ hs⟩
  | a :: as, s, t, hs, hr => by
    rw [run_cons] at hr
    obtain ⟨u, hu, hr⟩ := Option.bind_eq_some_iff.mp hr
    rw [Meets, hu, Option.elim_some]
    rcases hgood s a u hs hu with ⟨hok, hgu⟩ | ⟨hok, hbu⟩
    · rw [and_iff_right hok]
      exact run_good_or_bad hgood hbad hgu hr
    · exact .inr ⟨fun h => hok h.1, run_invariant hbad hbu hr⟩

/-- Forward simulation of `M` by `A`: initial states are related to initial
states, and a step of `M` that meets `ok` is matched by a run of `A`, from a
state that `A` reaches. -/
structure Sim (M : System σ α) (ok : σ → α → Prop) (A : System τ β) (R : σ → τ → Prop) :
    Prop where
  init : ∀ s, M.init s → ∃ u, A.init u ∧ R s u
  step : ∀ s u a s', A.Reachable u → R s u → ok s a → M.step s a = some s' →
    ∃ bs u', A.run u bs = some u' ∧ R s' u'

/-- Every state of the simulated system is related to a reachable state of the
abstract one. -/
theorem Sim.reach {A : System τ β} {ok : σ → α → Prop} {R : σ → τ → Prop} (hS : Sim M ok A R)
    {s : σ} (h : M.Reach ok s) : ∃ u, A.Reachable u ∧ R s u := by
  induction h with
  | init hs =>
    obtain ⟨u, hu, hR⟩ := hS.init _ hs
    exact ⟨u, .init hu, hR⟩
  | step _ hok hst ih =>
    obtain ⟨u, hu, hR⟩ := ih
    obtain ⟨bs, u', hr, hR'⟩ := hS.step _ _ _ _ hu hR hok hst
    exact ⟨u', Reach.run hu (meets_true u bs) hr, hR'⟩

end System
end Autumn
