/-
# Calls that hold a semaphore

Threads make calls that change a shared state in several steps, with locals of
their own, and each call holds one binary semaphore from before its first step
until after its last. However the steps of the threads interleave, the shared
state is what the calls make of it one after another, in the order in which
they got the semaphore; while a call holds it, that and the call's own first
steps (`reachable_linear`).

A step can fail (`none`); then the call goes no further, and the semaphore is
not given back.

Key definitions: `Calls`, `Calls.atomic`, `critical`, `Linear`.
Key theorems: `linear_step`, `reachable_linear`, `Linear.quiet`.
-/
import Mathlib.Logic.Function.Basic
import Mathlib.Tactic.Common
import Autumn.Lib.System

namespace Autumn

/-- What calls `C` do to a shared state `S`, with locals `L`. -/
structure Calls (S L C : Type*) where
  init : C → L
  body : C → List (S × L → Option (S × L))

namespace Calls

variable {S L C : Type*}

/-- Steps in order. -/
def runSteps (fs : List (S × L → Option (S × L))) (x : S × L) : Option (S × L) := fs.foldlM (fun x f => f x) x

variable (K : Calls S L C)

/-- The whole call at once. -/
def atomic (c : C) (s : S) : Option S := (runSteps (K.body c) (s, K.init c)).map Prod.fst

/-- The calls one after another. -/
def atomics {ι : Type*} (calls : List (ι × C)) (s : S) : Option S := calls.foldlM (fun s e => K.atomic e.2 s) s

theorem foldlM_concat {α β : Type*} (f : β → α → Option β) (as : List α) (a : α) (b : β) :
    (as ++ [a]).foldlM f b = (as.foldlM f b).bind fun b => f b a := by
  rw [List.foldlM_append, Option.bind_eq_bind]
  refine congrArg _ (funext fun b' => ?_)
  rw [List.foldlM_cons]
  exact bind_pure (f b' a)

theorem runSteps_append_cons {fs : List (S × L → Option (S × L))} {f : S × L → Option (S × L)}
    {gs : List (S × L → Option (S × L))} {x y z : S × L} (h : runSteps (fs ++ f :: gs) x = some y)
    (hfs : runSteps fs x = some z) : ∃ w, f z = some w := by
  rw [runSteps, List.foldlM_append, ← runSteps, hfs, Option.bind_eq_bind, Option.bind_some, List.foldlM_cons] at h
  obtain ⟨w, hw, -⟩ := Option.bind_eq_some_iff.mp h
  exact ⟨w, hw⟩

theorem runSteps_concat (fs : List (S × L → Option (S × L))) (f : S × L → Option (S × L)) (x : S × L) :
    runSteps (fs ++ [f]) x = (runSteps fs x).bind f :=
  foldlM_concat _ fs f x

theorem atomics_concat {ι : Type*} (calls : List (ι × C)) (e : ι × C) (s : S) :
    K.atomics (calls ++ [e]) s = (K.atomics calls s).bind (K.atomic e.2) :=
  foldlM_concat _ calls e s

end Calls

namespace Critical

/-- Where a thread is: outside, before it gets the semaphore for a call, or in
the call with its locals and the steps that are left. -/
inductive Place (S L C : Type*)
  | out
  | wait (c : C)
  | inside (c : C) (l : L) (rest : List (S × L → Option (S × L)))

/-- The thread holds the semaphore. -/
def Place.Inside {S L C : Type*} : Place S L C → Prop
  | .inside _ _ _ => True
  | _ => False

/-- `entered` are the calls that got the semaphore, in order. -/
structure State (ι S L C : Type*) where
  shared : S
  sem : ℕ
  place : ι → Place S L C
  entered : List (ι × C)

inductive Action (ι C : Type*)
  | call (i : ι) (c : C)
  | wait (i : ι)
  | step (i : ι)
  | post (i : ι)

variable {ι S L C : Type*}

section Machine

variable [DecidableEq ι]

def step (K : Calls S L C) (s : State ι S L C) : Action ι C → Option (State ι S L C)
  | .call i c =>
    match s.place i with
    | .out => some { s with place := Function.update s.place i (.wait c) }
    | _ => none
  | .wait i =>
    match s.place i with
    | .wait c =>
      if 0 < s.sem then
        some { s with
          sem := s.sem - 1
          place := Function.update s.place i (.inside c (K.init c) (K.body c))
          entered := s.entered ++ [(i, c)] }
      else none
    | _ => none
  | .step i =>
    match s.place i with
    | .inside c l (f :: rest) =>
      (f (s.shared, l)).map fun x =>
        { s with shared := x.1, place := Function.update s.place i (.inside c x.2 rest) }
    | _ => none
  | .post i =>
    match s.place i with
    | .inside _ _ [] => some { s with sem := s.sem + 1, place := Function.update s.place i .out }
    | _ => none

/-- All runs from the shared state `s₀`, with the semaphore free. -/
def critical (K : Calls S L C) (s₀ : S) : System (State ι S L C) (Action ι C) where
  init s := s.shared = s₀ ∧ s.sem = 1 ∧ (∀ i, s.place i = .out) ∧ s.entered = []
  step := step K

end Machine

/-- The shared state is what the calls so far make of it one after another; while
one of them holds the semaphore, what those before it and its own first steps
make of it. -/
inductive Linear (K : Calls S L C) (s₀ : S) (s : State ι S L C) : Prop
  | free : s.sem = 1 → (∀ i, ¬ (s.place i).Inside) → K.atomics s.entered s₀ = some s.shared → Linear K s₀ s
  | held (i : ι) (c : C) (l : L) (done rest : List (S × L → Option (S × L))) (before : List (ι × C)) (base : S) :
      s.sem = 0 → s.place i = .inside c l rest → (∀ j, j ≠ i → ¬ (s.place j).Inside) → K.body c = done ++ rest →
      Calls.runSteps done (base, K.init c) = some (s.shared, l) → s.entered = before ++ [(i, c)] →
      K.atomics before s₀ = some base → Linear K s₀ s

variable {K : Calls S L C} {s₀ : S}

theorem Linear.quiet {s : State ι S L C} (h : Linear K s₀ s) (hsem : s.sem ≠ 0) :
    s.sem = 1 ∧ (∀ i, ¬ (s.place i).Inside) ∧ K.atomics s.entered s₀ = some s.shared := by
  cases h with
  | free h1 hout hrun => exact ⟨h1, hout, hrun⟩
  | held i c l done rest before base h0 => exact absurd h0 hsem

/-- A call that does not fail as a whole does not fail at its next step. -/
theorem Linear.exists_next {s : State ι S L C} (h : Linear K s₀ s) {i : ι} {c : C} {l : L}
    {f : S × L → Option (S × L)} {rest : List (S × L → Option (S × L))} (hi : s.place i = .inside c l (f :: rest))
    (hok : ∀ before base, s.entered = before ++ [(i, c)] → K.atomics before s₀ = some base →
      ∃ s', K.atomic c base = some s') : ∃ x, f (s.shared, l) = some x := by
  cases h with
  | free hsem hout hrun =>
    have := hout i
    rw [hi] at this
    exact absurd trivial this
  | held k c' l' done rest' before base hsem hk hout hbody hdone hent hbase =>
    have hik : i = k := by
      by_contra hne
      have := hout i hne
      rw [hi] at this
      exact this trivial
    subst hik
    rw [hi, Place.inside.injEq] at hk
    obtain ⟨rfl, rfl, rfl⟩ := hk
    obtain ⟨s', hs'⟩ := hok before base hent hbase
    obtain ⟨x, hx, -⟩ := Option.map_eq_some_iff.mp hs'
    rw [hbody] at hx
    exact Calls.runSteps_append_cons hx hdone

variable [DecidableEq ι]

theorem linear_init {s : State ι S L C} (h : (critical K s₀).init s) : Linear K s₀ s := by
  obtain ⟨hs, hsem, hp, he⟩ := h
  refine .free hsem (fun i hi => ?_) (by rw [he, hs]; rfl)
  rw [hp i] at hi
  exact hi

theorem not_inside_update {place : ι → Place S L C} {i j : ι} {p : Place S L C} (hp : ¬ p.Inside)
    (hj : j ≠ i → ¬ (place j).Inside) : ¬ (Function.update place i p j).Inside := by
  by_cases hji : j = i
  · subst hji
    rw [Function.update_self]
    exact hp
  · rw [Function.update_of_ne hji]
    exact hj hji

theorem Linear.outside {s : State ι S L C} (h : Linear K s₀ s) {i : ι} {p : Place S L C} (hi : ¬ (s.place i).Inside)
    (hp : ¬ p.Inside) : Linear K s₀ { s with place := Function.update s.place i p } := by
  cases h with
  | free hsem hout hrun => exact .free hsem (fun j => not_inside_update hp fun _ => hout j) hrun
  | held k c l done rest before base hsem hk hout hbody hdone hent hbase =>
    have hki : k ≠ i := by
      rintro rfl
      rw [hk] at hi
      exact hi trivial
    refine .held k c l done rest before base hsem ?_ (fun j hj => not_inside_update hp fun _ => hout j hj) hbody
      hdone hent hbase
    rw [← hk]
    exact Function.update_of_ne hki _ _

theorem linear_step {s t : State ι S L C} {a : Action ι C} (hL : Linear K s₀ s) (h : step K s a = some t) :
    Linear K s₀ t := by
  cases a with
  | call i c =>
    simp only [step] at h
    split at h
    · rename_i hp
      cases h
      exact hL.outside (by rw [hp]; exact id) id
    · cases h
  | wait i =>
    simp only [step] at h
    split at h
    · rename_i c hp
      split at h
      · rename_i hsem
        cases h
        cases hL with
        | free h1 hout hrun =>
          refine .held i c (K.init c) [] (K.body c) s.entered s.shared (by simp [h1]) (Function.update_self ..)
            (fun j hj => ?_) rfl rfl rfl hrun
          simp only [Function.update_of_ne hj]
          exact hout j
        | held k c' l done rest before base h0 => omega
      · cases h
    · cases h
  | step i =>
    simp only [step] at h
    split at h
    · rename_i c l f rest hp
      obtain ⟨x, hx, rfl⟩ := Option.map_eq_some_iff.mp h
      cases hL with
      | free hsem hout hrun =>
        have := hout i
        rw [hp] at this
        exact absurd trivial this
      | held k c' l' done rest' before base hsem hk hout hbody hdone hent hbase =>
        have hki : i = k := by
          by_contra hne
          have := hout i hne
          rw [hp] at this
          exact this trivial
        subst hki
        rw [hp, Place.inside.injEq] at hk
        obtain ⟨rfl, rfl, rfl⟩ := hk
        refine .held i c x.2 (done ++ [f]) rest before base hsem (Function.update_self ..) (fun j hj => ?_)
          (by rw [hbody]; simp) ?_ hent hbase
        · simp only [Function.update_of_ne hj]
          exact hout j hj
        · rw [Calls.runSteps_concat, hdone]
          exact hx
    · cases h
  | post i =>
    simp only [step] at h
    split at h
    · rename_i c l hp
      cases h
      cases hL with
      | free hsem hout hrun =>
        have := hout i
        rw [hp] at this
        exact absurd trivial this
      | held k c' l' done rest before base hsem hk hout hbody hdone hent hbase =>
        have hki : i = k := by
          by_contra hne
          have := hout i hne
          rw [hp] at this
          exact this trivial
        subst hki
        rw [hp, Place.inside.injEq] at hk
        obtain ⟨rfl, rfl, rfl⟩ := hk
        rw [List.append_nil] at hbody
        refine .free (by simp [hsem]) (fun j => not_inside_update id (hout j)) ?_
        rw [hent, Calls.atomics_concat, hbase, Option.bind_some, Calls.atomic, hbody, hdone]
        rfl
    · cases h

/-- **Calls that hold the semaphore come one after another**, in every state that
is reached. -/
theorem reachable_linear {s : State ι S L C} (h : (critical K s₀).Reachable s) : Linear K s₀ s :=
  h.invariant (fun _ => linear_init) fun _ _ _ hL _ => linear_step hL

end Critical
end Autumn
