/-
# Letters to one server

Any number of clients write one letter each to a server and wait for the answer.
The server takes the letters as they come, one at a time, and puts its answer into
the box of whoever wrote. What is on its way may get lost, where the post is
`lossy`.

A client that waits has one thing on its way, its letter or the answer, unless
that was lost (`Counts`); what it gets is the answer to its own letter (`Desk`),
and it can get it exactly if nothing of its was lost (`can_read_iff`). The server is
in the state that the letters it took lead to one after another, whatever happens
in between.

Key definitions: `Clerk`, `Post`, `post`, `Counts`, `Desk`.
Key theorems: `step_cases`, `Counts.step`, `Desk.step`, `reachable_counts`,
`reachable_desk`, `can_read_iff`.
-/
import Mathlib.Algebra.Order.Group.Nat
import Mathlib.Data.List.Nodup
import Mathlib.Data.List.Perm.Basic
import Mathlib.Logic.Function.Basic
import Autumn.Lib.System

namespace Autumn

/-- A server: what taking a letter does to its state, and putting the answer. What
it answers depends on the letter alone. -/
structure Clerk (σ μ : Type*) where
  take : σ → μ → σ
  put : σ → μ × σ
  answer : μ → μ
  answers : ∀ s m, (put (take s m)).1 = answer m

/-- The state behind a letter and its answer. -/
def Clerk.serve {σ μ : Type*} (S : Clerk σ μ) (s : σ) (m : μ) : σ := (S.put (S.take s m)).2

/-- How far a client is. -/
inductive Exchange (μ : Type*)
  | ready
  | waiting
  | done (answer : μ)
  deriving DecidableEq, Repr

/-- How many letters the client has written. -/
def Exchange.written {μ : Type*} : Exchange μ → ℕ
  | .ready => 0
  | _ => 1

/-- How many answers it waits for. -/
def Exchange.awaited {μ : Type*} : Exchange μ → ℕ
  | .waiting => 1
  | _ => 0

@[simp] theorem Exchange.written_ready {μ : Type*} : (ready : Exchange μ).written = 0 := rfl

@[simp] theorem Exchange.written_waiting {μ : Type*} : (waiting : Exchange μ).written = 1 := rfl

@[simp] theorem Exchange.written_done {μ : Type*} (m : μ) : (done m).written = 1 := rfl

@[simp] theorem Exchange.awaited_ready {μ : Type*} : (ready : Exchange μ).awaited = 0 := rfl

@[simp] theorem Exchange.awaited_waiting {μ : Type*} : (waiting : Exchange μ).awaited = 1 := rfl

@[simp] theorem Exchange.awaited_done {μ : Type*} (m : μ) : (done m).awaited = 0 := rfl

/-- The server, the letters that it has taken, whose letter it is at; and what is on
its way, or was lost there. -/
structure Post (ι σ μ : Type*) where
  server : σ
  taken : List (ι × μ)
  serving : Option ι
  letters : List (ι × μ)
  box : ι → List μ
  phase : ι → Exchange μ
  lost : List ι

namespace Post

variable {ι σ μ : Type*} [DecidableEq ι]

inductive Action (ι : Type*)
  | write (i : ι)
  | take
  | put
  | read (i : ι)
  | loseLetter (k : ℕ)
  | loseAnswer (i : ι)
  deriving DecidableEq, Repr

/-- `letter i` is what client `i` writes, if it does. -/
def step (S : Clerk σ μ) (letter : ι → Option μ) (lossy : Bool) (s : Post ι σ μ) : Action ι → Option (Post ι σ μ)
  | .write i => match s.phase i, letter i with
    | .ready, some m => some { s with
        letters := s.letters ++ [(i, m)]
        phase := Function.update s.phase i .waiting }
    | _, _ => none
  | .take => match s.serving, s.letters with
    | none, (i, m) :: letters => some { s with
        server := S.take s.server m
        taken := s.taken ++ [(i, m)]
        serving := some i
        letters := letters }
    | _, _ => none
  | .put => match s.serving with
    | some i => some { s with
        server := (S.put s.server).2
        serving := none
        box := Function.update s.box i (s.box i ++ [(S.put s.server).1]) }
    | none => none
  | .read i => match s.phase i, s.box i with
    | .waiting, m :: box => some { s with
        box := Function.update s.box i box
        phase := Function.update s.phase i (.done m) }
    | _, _ => none
  | .loseLetter k => match s.letters[k]? with
    | some (i, _) =>
      if lossy then some { s with letters := s.letters.eraseIdx k, lost := s.lost ++ [i] } else none
    | none => none
  | .loseAnswer i => match s.box i with
    | _ :: box =>
      if lossy then some { s with box := Function.update s.box i box, lost := s.lost ++ [i] } else none
    | [] => none

/-- Nobody has written yet, and the server is in state `s₀`. -/
def post (S : Clerk σ μ) (letter : ι → Option μ) (lossy : Bool) (s₀ : σ) : System (Post ι σ μ) (Action ι) where
  init s := s = ⟨s₀, [], none, [], fun _ => [], fun _ => .ready, []⟩
  step := step S letter lossy

/-- How many letters and answers of a client are on their way. -/
def way (s : Post ι σ μ) (i : ι) : ℕ :=
  (s.letters.map Prod.fst).count i + (if s.serving = some i then 1 else 0) + (s.box i).length

/-- How many letters of a client have come to the server, or will. -/
def written (s : Post ι σ μ) (i : ι) : ℕ := (s.taken.map Prod.fst).count i + (s.letters.map Prod.fst).count i

/-! ### One step -/

section Step

variable {S : Clerk σ μ} {letter : ι → Option μ} {lossy : Bool} {s t : Post ι σ μ} {a : Action ι}

theorem step_cases (h : step S letter lossy s a = some t) :
    (∃ i m, a = .write i ∧ s.phase i = .ready ∧ letter i = some m ∧ t = { s with
      letters := s.letters ++ [(i, m)], phase := Function.update s.phase i .waiting }) ∨
    (∃ i m letters, a = .take ∧ s.serving = none ∧ s.letters = (i, m) :: letters ∧ t = { s with
      server := S.take s.server m, taken := s.taken ++ [(i, m)], serving := some i, letters := letters }) ∨
    (∃ i, a = .put ∧ s.serving = some i ∧ t = { s with
      server := (S.put s.server).2, serving := none,
      box := Function.update s.box i (s.box i ++ [(S.put s.server).1]) }) ∨
    (∃ i m box, a = .read i ∧ s.phase i = .waiting ∧ s.box i = m :: box ∧ t = { s with
      box := Function.update s.box i box, phase := Function.update s.phase i (.done m) }) ∨
    (∃ k i m, a = .loseLetter k ∧ lossy = true ∧ s.letters[k]? = some (i, m) ∧ t = { s with
      letters := s.letters.eraseIdx k, lost := s.lost ++ [i] }) ∨
    (∃ i m box, a = .loseAnswer i ∧ lossy = true ∧ s.box i = m :: box ∧ t = { s with
      box := Function.update s.box i box, lost := s.lost ++ [i] }) := by
  cases a with
  | write i =>
    simp only [step] at h
    split at h
    · rename_i m hi hm
      exact .inl ⟨i, m, rfl, hi, hm, (Option.some.inj h).symm⟩
    · cases h
  | take =>
    simp only [step] at h
    split at h
    · rename_i i m letters hserving hletters
      exact .inr (.inl ⟨i, m, letters, rfl, hserving, hletters, (Option.some.inj h).symm⟩)
    · cases h
  | put =>
    simp only [step] at h
    split at h
    · rename_i i hi
      exact .inr (.inr (.inl ⟨i, rfl, hi, (Option.some.inj h).symm⟩))
    · cases h
  | read i =>
    simp only [step] at h
    split at h
    · rename_i m box hphase hbox
      exact .inr (.inr (.inr (.inl ⟨i, m, box, rfl, hphase, hbox, (Option.some.inj h).symm⟩)))
    · cases h
  | loseLetter k =>
    simp only [step] at h
    split at h
    · rename_i i m hk
      obtain ⟨hl, heq⟩ := Option.ite_none_right_eq_some.mp h
      exact .inr (.inr (.inr (.inr (.inl ⟨k, i, m, rfl, hl, hk, (Option.some.inj heq).symm⟩))))
    · cases h
  | loseAnswer i =>
    simp only [step] at h
    split at h
    · rename_i m box hbox
      obtain ⟨hl, heq⟩ := Option.ite_none_right_eq_some.mp h
      exact .inr (.inr (.inr (.inr (.inr ⟨i, m, box, rfl, hl, hbox, (Option.some.inj heq).symm⟩))))
    · cases h

/-! ### The clients -/

/-- A client writes once, and while it waits it has one thing on its way or lost. -/
structure Counts (s : Post ι σ μ) (i : ι) : Prop where
  once : written s i ≤ (s.phase i).written
  way : way s i + s.lost.count i = (s.phase i).awaited

theorem Counts.step {i : ι} (h : Counts s i) (hst : Post.step S letter lossy s a = some t) : Counts t i := by
  obtain ⟨honce, hway⟩ := h
  unfold written Post.way at *
  rcases step_cases hst with ⟨j, m, rfl, hj, hm, rfl⟩ | ⟨j, m, l, rfl, hs, hl, rfl⟩ | ⟨j, rfl, hs, rfl⟩ |
    ⟨j, m, b, rfl, hj, hb, rfl⟩ | ⟨k, j, m, rfl, -, hk, rfl⟩ | ⟨j, m, b, rfl, -, hb, rfl⟩
  · -- it writes
    by_cases hij : i = j
    · subst hij
      rw [hj, Exchange.written_ready] at honce
      rw [hj, Exchange.awaited_ready] at hway
      constructor
      · simp [written]
        omega
      · simp [Post.way]
        omega
    · constructor
      · simpa [written, hij, Ne.symm hij] using honce
      · simpa [Post.way, hij, Ne.symm hij] using hway
  · -- the letter goes to the server
    simp only [hl, hs, List.map_cons, List.count_cons] at honce hway
    constructor
    · simp only [written, List.map_append, List.map_cons, List.map_nil, List.count_append, List.count_singleton]
      omega
    · simp only [Post.way, Option.some.injEq]
      simpa using hway
  · -- the answer
    constructor
    · exact honce
    · by_cases hij : i = j
      · subst hij
        rw [hs, if_pos rfl] at hway
        simp [Post.way]
        omega
      · simpa [Post.way, hs, hij, Ne.symm hij] using hway
  · -- it reads
    by_cases hij : i = j
    · subst hij
      rw [hj, Exchange.written_waiting] at honce
      rw [hj, hb, List.length_cons, Exchange.awaited_waiting] at hway
      constructor
      · simpa [written] using honce
      · simp only [Post.way, Function.update_self, Exchange.awaited_done]
        omega
    · constructor
      · simpa [written, hij, Ne.symm hij] using honce
      · simpa [Post.way, hij, Ne.symm hij] using hway
  · -- a letter is lost
    have hperm := (List.getElem_cons_eraseIdx_perm (List.getElem?_eq_some_iff.mp hk).1).map Prod.fst
    have hcount := hperm.count_eq i
    rw [(List.getElem?_eq_some_iff.mp hk).2, List.map_cons, List.count_cons] at hcount
    dsimp only at hcount
    constructor
    · simp only [written]
      omega
    · simp only [Post.way, List.count_append, List.count_singleton]
      omega
  · -- an answer
    constructor
    · exact honce
    · by_cases hij : i = j
      · subst hij
        rw [hb, List.length_cons] at hway
        simp [Post.way]
        omega
      · simpa [Post.way, hij, Ne.symm hij] using hway

/-! ### The server -/

/-- What the server has come to by the letters it took, and what it answered. -/
structure Desk (S : Clerk σ μ) (letter : ι → Option μ) (s₀ : σ) (s : Post ι σ μ) : Prop where
  letters : ∀ p ∈ s.letters, letter p.1 = some p.2
  taken : ∀ p ∈ s.taken, letter p.1 = some p.2
  idle : s.serving = none → s.server = (s.taken.map Prod.snd).foldl S.serve s₀
  busy : ∀ i, s.serving = some i → ∃ l m, s.taken = l ++ [(i, m)] ∧
    s.server = S.take ((l.map Prod.snd).foldl S.serve s₀) m
  box : ∀ i, ∀ r ∈ s.box i, (letter i).map S.answer = some r
  done : ∀ i r, s.phase i = .done r → (letter i).map S.answer = some r

theorem Desk.step {s₀ : σ} (h : Desk S letter s₀ s) (hst : Post.step S letter lossy s a = some t) :
    Desk S letter s₀ t := by
  obtain ⟨hletters, htaken, hidle, hbusy, hbox, hdone⟩ := h
  have hrest : ∀ {j m b}, s.box j = m :: b → ∀ i, ∀ r ∈ Function.update s.box j b i,
      (letter i).map S.answer = some r := by
    intro j m b hb
    refine (Function.forall_update_iff s.box fun i c => ∀ r ∈ c, (letter i).map S.answer = some r).mpr
      ⟨fun r hr => hbox j r ?_, fun i _ => hbox i⟩
    rw [hb]
    exact List.mem_cons_of_mem m hr
  rcases step_cases hst with ⟨j, m, rfl, hj, hm, rfl⟩ | ⟨j, m, l, rfl, hs, hl, rfl⟩ | ⟨j, rfl, hs, rfl⟩ |
    ⟨j, m, b, rfl, hj, hb, rfl⟩ | ⟨k, j, m, rfl, -, hk, rfl⟩ | ⟨j, m, b, rfl, -, hb, rfl⟩
  · refine ⟨fun p hp => ?_, htaken, hidle, hbusy, hbox, ?_⟩
    · rcases List.mem_append.mp hp with hp | hp
      · exact hletters p hp
      · rw [List.mem_singleton.mp hp]
        exact hm
    · exact (Function.forall_update_iff s.phase fun i c => ∀ r, c = .done r → (letter i).map S.answer = some r).mpr
        ⟨fun r hr => (nomatch hr), fun i _ => hdone i⟩
  · have hm : letter j = some m := hletters (j, m) (by rw [hl]; exact List.mem_cons_self)
    refine ⟨fun p hp => hletters p (by rw [hl]; exact List.mem_cons_of_mem _ hp), fun p hp => ?_,
      fun hn => (nomatch hn), fun i hi => ?_, hbox, hdone⟩
    · rcases List.mem_append.mp hp with hp | hp
      · exact htaken p hp
      · rw [List.mem_singleton.mp hp]
        exact hm
    · obtain rfl := Option.some.inj hi
      exact ⟨s.taken, m, rfl, by rw [hidle hs]⟩
  · -- the server has done as for a letter of its own
    obtain ⟨l, m, hl, hserver⟩ := hbusy j hs
    have hm : letter j = some m := htaken (j, m) (by rw [hl]; simp)
    refine ⟨hletters, htaken, fun _ => ?_, fun i hi => (nomatch hi), ?_, hdone⟩
    · rw [hl, List.map_append, List.foldl_append, hserver]
      rfl
    · refine (Function.forall_update_iff s.box fun i c => ∀ r ∈ c, (letter i).map S.answer = some r).mpr
        ⟨fun r hr => ?_, fun i _ => hbox i⟩
      rcases List.mem_append.mp hr with hr | hr
      · exact hbox j r hr
      · rw [List.mem_singleton.mp hr, hserver, S.answers, hm]
        rfl
  · refine ⟨hletters, htaken, hidle, hbusy, hrest hb, ?_⟩
    refine (Function.forall_update_iff s.phase fun i c => ∀ r, c = .done r → (letter i).map S.answer = some r).mpr
      ⟨fun r hr => ?_, fun i _ => hdone i⟩
    obtain rfl := Exchange.done.inj hr
    exact hbox j m (by rw [hb]; exact List.mem_cons_self)
  · exact ⟨fun p hp => hletters p (List.mem_of_mem_eraseIdx hp), htaken, hidle, hbusy, hbox, hdone⟩
  · exact ⟨hletters, htaken, hidle, hbusy, hrest hb, hdone⟩

/-- What is lost stays lost, and nothing is where the post loses nothing. -/
theorem lost_step (hst : step S letter lossy s a = some t) :
    s.lost <+: t.lost ∧ (lossy = false → t.lost = s.lost) := by
  rcases step_cases hst with ⟨j, m, rfl, -, -, rfl⟩ | ⟨j, m, l, rfl, -, -, rfl⟩ | ⟨j, rfl, -, rfl⟩ |
    ⟨j, m, b, rfl, -, -, rfl⟩ | ⟨k, j, m, rfl, hl, -, rfl⟩ | ⟨j, m, b, rfl, hl, -, rfl⟩
  · exact ⟨List.prefix_rfl, fun _ => rfl⟩
  · exact ⟨List.prefix_rfl, fun _ => rfl⟩
  · exact ⟨List.prefix_rfl, fun _ => rfl⟩
  · exact ⟨List.prefix_rfl, fun _ => rfl⟩
  · exact ⟨List.prefix_append _ _, fun h => by rw [hl] at h; cases h⟩
  · exact ⟨List.prefix_append _ _, fun h => by rw [hl] at h; cases h⟩

end Step

/-! ### Whole runs -/

section Run

variable {S : Clerk σ μ} {letter : ι → Option μ} {lossy : Bool} {s₀ : σ} {s : Post ι σ μ}

theorem reachable_counts (h : (post S letter lossy s₀).Reachable s) (i : ι) : Counts s i := by
  refine System.Reach.invariant (M := post S letter lossy s₀) (I := fun s => Counts s i) ?_
    (fun _ _ _ hI _ hst => hI.step hst) h
  rintro _ rfl
  exact ⟨Nat.le_refl 0, rfl⟩

theorem nodup_taken (h : (post S letter lossy s₀).Reachable s) : (s.taken.map Prod.fst).Nodup := by
  apply List.nodup_iff_count.mpr
  intro i
  have honce := (reachable_counts h i).once
  have hle : (s.phase i).written ≤ 1 := by cases s.phase i <;> simp
  unfold written at honce
  omega

theorem reachable_desk (h : (post S letter lossy s₀).Reachable s) : Desk S letter s₀ s := by
  refine System.Reach.invariant (M := post S letter lossy s₀) (I := Desk S letter s₀) ?_
    (fun _ _ _ hI _ hst => hI.step hst) h
  rintro _ rfl
  exact ⟨by simp, by simp, fun _ => rfl, fun i hi => (nomatch hi), by simp, fun i r hr => (nomatch hr)⟩

theorem reachable_lost (h : (post S letter false s₀).Reachable s) : s.lost = [] := by
  refine System.Reach.invariant (M := post S letter false s₀) (I := fun s => s.lost = []) ?_ ?_ h
  · rintro _ rfl
    rfl
  · intro s a t hs _ hst
    rw [(lost_step hst).2 rfl, hs]

theorem step_put {j : ι} (hs : s.serving = some j) : step S letter lossy s .put = some { s with
    server := (S.put s.server).2, serving := none,
    box := Function.update s.box j (s.box j ++ [(S.put s.server).1]) } := by
  simp only [step, hs]

theorem step_take {p : ι × μ} {l : List (ι × μ)} (hs : s.serving = none) (hl : s.letters = p :: l) :
    step S letter lossy s .take = some { s with
      server := S.take s.server p.2, taken := s.taken ++ [p], serving := some p.1, letters := l } := by
  simp only [step, hs, hl]

theorem step_read {i : ι} {m : μ} {b : List μ} (hi : s.phase i = .waiting) (hb : s.box i = m :: b) :
    step S letter lossy s (.read i) = some { s with
      box := Function.update s.box i b, phase := Function.update s.phase i (.done m) } := by
  simp only [step, hi, hb]

/-- The steps that the server has before it. -/
def toDo (s : Post ι σ μ) : ℕ := 2 * s.letters.length + s.serving.elim 0 fun _ => 1

/-- If nothing of a client's was lost, there is a step that gets it nearer to its
answer. -/
theorem exists_step {i : ι} (hc : Counts s i) (hi : s.phase i = .waiting) (hlost : i ∉ s.lost) :
    ∃ a t, step S letter lossy s a = some t ∧ t.lost = s.lost ∧ (t.phase i = .waiting ∨ ∃ r, t.phase i = .done r) ∧
      toDo t + (t.phase i).awaited < toDo s + (s.phase i).awaited := by
  cases hs : s.serving with
  | some j =>
    refine ⟨.put, _, step_put hs, rfl, .inl hi, ?_⟩
    simp only [toDo, hs, Option.elim_none, Option.elim_some]
    omega
  | none =>
    cases hl : s.letters with
    | cons p l =>
      refine ⟨.take, _, step_take hs hl, rfl, .inl hi, ?_⟩
      simp only [toDo, hs, hl, Option.elim_none, Option.elim_some, List.length_cons]
      omega
    | nil =>
      have hway := hc.way
      rw [hi, Exchange.awaited_waiting, Post.way, hl, hs, List.count_eq_zero_of_not_mem hlost] at hway
      obtain ⟨m, hm⟩ : ∃ m, s.box i = [m] := List.length_eq_one_iff.mp (by simpa using hway)
      refine ⟨.read i, _, step_read hi hm, rfl, .inr ⟨m, by simp⟩, ?_⟩
      simp [toDo, hi]

/-- A client that waits with nothing of its lost, or has its answer. -/
structure Due (s : Post ι σ μ) (i : ι) : Prop where
  counts : Counts s i
  lost : i ∉ s.lost
  phase : s.phase i = .waiting ∨ ∃ r, s.phase i = .done r

/-- **A client that waits can get its answer exactly if nothing of its was
lost.** -/
theorem can_read_iff {i : ι} (h : (post S letter lossy s₀).Reachable s) (hi : s.phase i = .waiting) :
    (∃ as t r, (post S letter lossy s₀).run s as = some t ∧ t.phase i = .done r) ↔ i ∉ s.lost := by
  constructor
  · rintro ⟨as, t, r, hrun, hr⟩ hlost
    have ht : (post S letter lossy s₀).Reachable t := System.Reach.run h (System.meets_true s as) hrun
    have hway := (reachable_counts ht i).way
    rw [hr, Exchange.awaited_done] at hway
    have hstays : i ∈ t.lost := System.run_invariant (M := post S letter lossy s₀) (I := fun s => i ∈ s.lost)
      (fun s a t hs hst => (lost_step hst).1.subset hs) hlost hrun
    exact absurd (List.count_pos_iff.mpr hstays) (by omega)
  · intro hlost
    have hnext : ∀ u, Due u i → (¬ ∃ r, u.phase i = .done r) → ∃ a t, (post S letter lossy s₀).step u a = some t ∧
        Due t i ∧ toDo t + (t.phase i).awaited < toDo u + (u.phase i).awaited := by
      intro u hu hnot
      obtain ⟨a, t, hst, hsame, hmore, hless⟩ := exists_step hu.counts (hu.phase.resolve_right hnot) hu.lost
      exact ⟨a, t, hst, ⟨hu.counts.step hst, hsame ▸ hu.lost, hmore⟩, hless⟩
    obtain ⟨as, t, hrun, -, r, hr⟩ := System.exists_run_done _ hnext s ⟨reachable_counts h i, hlost, .inl hi⟩
    exact ⟨as, t, r, hrun, hr⟩

end Run

end Post
end Autumn
