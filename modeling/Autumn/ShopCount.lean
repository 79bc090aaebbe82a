/-
# The count of the customers that are through (`threads_shop`)

A customer that has what it needs does `(*(int*)param)++` and leaves the loop.
The increment is outside every mutex, so it is a read and a write, and another
customer may read in between; then both write the same number, and one is not
counted. `sum` is right, whenever no customer is between its read and its write,
exactly in the runs in which none has read while another one was in between
(`counted_iff_alone`). In any other run it never comes to 3, and the loader does
not stop (`loader_runs_on`).

The threads are seen as those of a `Counter`, each step of the shop as a read or
a write of one of them or as none.

Key definitions: `Buy.phase`, `State.counter`, `Quiet`, `Counted`, `Alone`.
Key theorems: `step_counts`, `good_step`, `bad_step`, `counted_iff_alone`,
`loader_runs_on`.
-/
import Autumn.Lib.Counter
import Autumn.Shop

namespace Autumn
namespace Shop

/-- Where a customer is in its increment. -/
def Buy.phase : Buy → Phase
  | .inc v => .between v
  | .done => .through
  | _ => .before

/-- What the threads do with `sum`. -/
def State.counter (s : State) : Counter (Fin 3) := ⟨s.sum, fun i => (s.customers i).pc.phase⟩

/-- Customers that have left the loop. -/
def State.finished (s : State) : ℕ := (Finset.univ.filter fun i => (s.customers i).pc = .done).card

/-- No customer is between the read and the write of its increment. -/
def Quiet (s : State) : Prop := ∀ i v, (s.customers i).pc ≠ .inc v

/-- What is claimed of such a state: `sum` is the number of the customers that
are through, and the loader's condition is false once they all are. -/
structure Counted (s : State) : Prop where
  sum : s.sum = s.finished
  stops : (∀ i, (s.customers i).pc = .done) → ¬ s.sum < 3

/-- A step that does not read `sum` while another customer is in between. -/
def Alone (s : State) : Action → Prop
  | .loader _ => True
  | .customer i _ => (s.customers i).pc = .through → Quiet s

/-! ### The counter -/

theorem phase_eq_between {pc : Buy} {v : ℤ} : pc.phase = .between v ↔ pc = .inc v := by
  cases pc <;> simp [Buy.phase]

theorem phase_eq_through {pc : Buy} : pc.phase = .through ↔ pc = .done := by
  cases pc <;> simp [Buy.phase]

theorem quiet_iff (s : State) : s.counter.Quiet ↔ Quiet s :=
  forall_congr' fun _ => forall_congr' fun _ => not_congr phase_eq_between

theorem written_eq (s : State) : s.counter.written = s.finished := by
  unfold Counter.written State.finished
  congr 1
  ext i
  rw [Finset.mem_filter_univ, Finset.mem_filter_univ]
  exact phase_eq_through

theorem all_done_iff (s : State) : (∀ i, (s.customers i).pc = .done) ↔ ∀ i, s.counter.phase i = .through :=
  forall_congr' fun _ => phase_eq_through.symm

theorem counter_setCustomer (s : State) (i : Fin 3) (c : Customer) :
    (s.setCustomer i c).counter = ⟨s.sum, Function.update s.counter.phase i c.pc.phase⟩ := by
  refine Counter.ext rfl (funext fun k => ?_)
  show (Function.update s.customers i c k).pc.phase = Function.update s.counter.phase i c.pc.phase k
  by_cases hk : k = i
  · rw [hk, Function.update_self, Function.update_self]
  · rw [Function.update_of_ne hk, Function.update_of_ne hk]
    rfl

theorem counter_before {s : State} {i : Fin 3} {c : Customer} (hold : (s.customers i).pc.phase = .before)
    (hnew : c.pc.phase = .before) : (s.setCustomer i c).counter = s.counter := by
  rw [counter_setCustomer, hnew, ← hold]
  exact Counter.ext rfl (Function.update_eq_self i s.counter.phase)

/-- What a step does to the counter and to the loader. -/
inductive Counts (s t : State) : Action → Prop
  | loader (r : ℕ) : t.counter = s.counter → (t.loader = .done → 3 ≤ s.sum) → Counts s t (.loader r)
  | before (i : Fin 3) (r : ℕ) : (s.customers i).pc ≠ .through → t.counter = s.counter → t.loader = s.loader →
      Counts s t (.customer i r)
  | read (i : Fin 3) (r : ℕ) : (s.customers i).pc = .through → t.counter = s.counter.read i → t.loader = s.loader →
      Counts s t (.customer i r)
  | write (i : Fin 3) (r : ℕ) (v : ℤ) : (s.customers i).pc = .inc v → t.counter = s.counter.write i v →
      t.loader = s.loader → Counts s t (.customer i r)

theorem loading_counts {s t : State} {r : ℕ} (h : loading s r = some t) : Counts s t (.loader r) := by
  unfold loading at h
  split at h
  · cases h
    refine .loader r rfl fun hdone => ?_
    by_contra hlt
    rw [if_pos (not_le.mp hlt)] at hdone
    cases hdone
  · cases h
    exact .loader r rfl fun hdone => by cases hdone
  · cases h
    exact .loader r rfl fun hdone => by cases hdone
  · cases h

theorem purchases_counts {s t : State} {i : Fin 3} {r : ℕ} (h : purchases s i r = some t) :
    Counts s t (.customer i r) := by
  unfold purchases at h
  split at h
  · rename_i hp
    cases h
    exact .before i r (by simp [hp]) (counter_before (by rw [hp]; rfl) rfl) rfl
  · rename_i hp
    cases h
    exact .before i r (by simp [hp]) (counter_before (by rw [hp]; rfl) rfl) rfl
  · rename_i j hp
    cases h
    refine .before i r (by simp [hp]) (counter_before (by rw [hp]; rfl) ?_) rfl
    split
    · rfl
    · rfl
  · rename_i j hp
    have hold : (s.customers i).pc.phase = .before := by rw [hp]; rfl
    split at h
    · cases h
      exact .before i r (by simp [hp]) (counter_before hold rfl) rfl
    · cases h
      exact .before i r (by simp [hp]) (counter_before hold rfl) rfl
  · rename_i hp
    cases h
    refine .before i r (by simp [hp]) (counter_before (by rw [hp]; rfl) ?_) rfl
    split
    · rfl
    · rfl
  · rename_i hp
    cases h
    exact .read i r hp (counter_setCustomer s i _) rfl
  · rename_i v hp
    cases h
    have hphase := congrArg Counter.phase (counter_setCustomer s i { s.customers i with pc := .done })
    exact .write i r v hp (Counter.ext rfl hphase) rfl
  · cases h

theorem step_counts {s t : State} {a : Action} (h : shop.step s a = some t) : Counts s t a := by
  cases a with
  | loader r => exact loading_counts h
  | customer i r => exact purchases_counts h

/-! ### Runs -/

/-- Every increment has counted, and the loader has stopped for three of them only. -/
structure Good (s : State) : Prop where
  exact : s.counter.Exact
  loader : s.loader = .done → ∀ i, s.counter.phase i = .through

/-- An increment is lost, and the loader has not stopped. -/
structure Bad (s : State) : Prop where
  short : s.counter.Short
  loader : s.loader ≠ .done

theorem good_start (r : Fin 5 → ℕ) : Good (start r) where
  exact := ⟨rfl, fun i v h => by cases h⟩
  loader h := by cases h

/-- **A step** loses nothing exactly if it is no read while another customer is in
between. -/
theorem good_step (s : State) (a : Action) (t : State) (hs : Good s) (h : shop.step s a = some t) :
    Alone s a ∧ Good t ∨ ¬ Alone s a ∧ Bad t := by
  cases step_counts h with
  | loader r hcounter hstop =>
    refine .inl ⟨trivial, hcounter ▸ hs.exact, fun hdone => ?_⟩
    rw [hcounter]
    apply Counter.through_of_card_le
    have hsum := hs.exact.value
    have hstop : 3 ≤ s.counter.value := hstop hdone
    rw [Fintype.card_fin]
    omega
  | before i r hp hcounter hloader =>
    refine .inl ⟨fun hthrough => absurd hthrough hp, hcounter ▸ hs.exact, ?_⟩
    rw [hcounter, hloader]
    exact hs.loader
  | read i r hp hcounter hloader =>
    have hbefore : s.counter.phase i = .before := by
      show (s.customers i).pc.phase = .before
      rw [hp]
      rfl
    have hrun : t.loader ≠ .done := fun hdone => by
      have := hs.loader (hloader ▸ hdone) i
      rw [hbefore] at this
      cases this
    by_cases hq : s.counter.Quiet
    · exact .inl ⟨fun _ => (quiet_iff s).mp hq, hcounter ▸ hs.exact.read hbefore hq, fun hdone => absurd hdone hrun⟩
    · refine .inr ⟨fun halone => hq ((quiet_iff s).mpr (halone hp)), ?_, hrun⟩
      rw [hcounter]
      exact hs.exact.short hbefore hq
  | write i r v hp hcounter hloader =>
    have hbetween : s.counter.phase i = .between v := phase_eq_between.mpr hp
    refine .inl ⟨fun hthrough => ?_, hcounter ▸ hs.exact.write hbetween, fun hdone => ?_⟩
    · rw [hp] at hthrough
      cases hthrough
    · have := hs.loader (hloader ▸ hdone) i
      rw [hbetween] at this
      cases this

theorem bad_step (s : State) (a : Action) (t : State) (hs : Bad s) (h : shop.step s a = some t) : Bad t := by
  cases step_counts h with
  | loader r hcounter hstop =>
    refine ⟨hcounter ▸ hs.short, fun hdone => ?_⟩
    have hstop : 3 ≤ s.counter.value := hstop hdone
    have hvalue := hs.short.value
    have hcard := s.counter.begun_le_card
    rw [Fintype.card_fin] at hcard
    omega
  | before i r hp hcounter hloader => exact ⟨hcounter ▸ hs.short, hloader ▸ hs.loader⟩
  | read i r hp hcounter hloader =>
    have hbefore : s.counter.phase i = .before := by
      show (s.customers i).pc.phase = .before
      rw [hp]
      rfl
    exact ⟨hcounter ▸ hs.short.read hbefore, hloader ▸ hs.loader⟩
  | write i r v hp hcounter hloader =>
    exact ⟨hcounter ▸ hs.short.write (phase_eq_between.mpr hp), hloader ▸ hs.loader⟩

theorem Good.counted {s : State} (h : Good s) : Counted s := by
  have hsum : s.sum = s.finished := by
    rw [← written_eq]
    exact h.exact.value
  refine ⟨hsum, fun hall => ?_⟩
  have hcard := Counter.written_eq_card_iff.mpr ((all_done_iff s).mp hall)
  rw [written_eq, Fintype.card_fin] at hcard
  omega

theorem Bad.not_counted {s : State} (h : Bad s) (hq : Quiet s) : ¬ Counted s := by
  intro hc
  have hlt := h.short.value_lt ((quiet_iff s).mpr hq)
  rw [written_eq, ← hc.sum] at hlt
  exact lt_irrefl _ hlt

/-- A run from the start loses an increment exactly if a step of it is not alone. -/
theorem run_divides {r : Fin 5 → ℕ} {as : List Action} {s : State} (h : shop.run (start r) as = some s) :
    shop.Meets Alone (start r) as ∧ Good s ∨ ¬ shop.Meets Alone (start r) as ∧ Bad s :=
  System.run_good_or_bad good_step bad_step (good_start r) h

/-- **`sum` counts the customers that are through**, when a run comes to a state
with no customer in between, exactly if none has read it while another one was. -/
theorem counted_iff_alone {r : Fin 5 → ℕ} {as : List Action} {s : State} (h : shop.run (start r) as = some s)
    (hq : Quiet s) : Counted s ↔ shop.Meets Alone (start r) as := by
  rcases run_divides h with ⟨hmeets, hgood⟩ | ⟨hmeets, hbad⟩
  · exact iff_of_true hgood.counted hmeets
  · exact iff_of_false (hbad.not_counted hq) hmeets

/-- **The loader never stops** in a run in which one has. -/
theorem loader_runs_on {r : Fin 5 → ℕ} {as : List Action} {s : State} (h : shop.run (start r) as = some s)
    (hmeets : ¬ shop.Meets Alone (start r) as) : s.loader ≠ .done := by
  rcases run_divides h with ⟨hmeets', -⟩ | ⟨-, hbad⟩
  · exact absurd hmeets' hmeets
  · exact hbad.loader

/-! ### Two runs -/

/-- Customer `i` draws a need of 3000 and buys from the shelves `js`. -/
def buys (i : Fin 3) (js : List ℕ) : List Action :=
  .customer i 0 :: js.flatMap fun j => [.customer i j, .customer i 0, .customer i 0, .customer i 0]

/-- The loader puts 500 on the first shelf. -/
def loads : List Action := [.loader 0, .loader 0, .loader 200]

/-- Customer `i` buys what it needs, and is counted. -/
def oneThrough (i : Fin 3) : List Action := buys i [0, 1, 2] ++ [.customer i 0, .customer i 0]

theorem counted_oneThrough : ∃ s, shop.run (start fun _ => 200) (oneThrough 0) = some s ∧ s.sum = 1 ∧
    (Counted s ↔ shop.Meets Alone (start fun _ => 200) (oneThrough 0)) := by
  have hrun : ∃ s, shop.run (start fun _ => 200) (oneThrough 0) = some s ∧ s.sum = 1 ∧
      ∀ i, (s.customers i).pc = if i = 0 then .done else .start := ⟨_, rfl, rfl, by decide⟩
  obtain ⟨s, hs, hsum, hpc⟩ := hrun
  refine ⟨s, hs, hsum, counted_iff_alone hs fun i v => ?_⟩
  rw [hpc]
  split
  · simp
  · simp

/-- Customers `i`, `j` and `k` buy what they need; `i` and `j` both read `sum`
before either writes it. -/
def threeThrough (i j k : Fin 3) : List Action :=
  buys i [0, 1, 2] ++ buys j [2, 3, 4] ++ (List.replicate 6 loads).flatten ++ buys k [0] ++
    [.customer i 0, .customer j 0, .customer i 0, .customer j 0, .customer k 0, .customer k 0]

/-- **Two of three are counted**, and the loader goes on. -/
theorem two_of_three_counted : ¬ ∀ s, shop.Reachable s → Quiet s → Counted s := by
  intro h
  have hrun : ∃ s, shop.run (start fun _ => 200) (threeThrough 0 1 2) = some s ∧ s.sum = 2 ∧
      ∀ i, (s.customers i).pc = .done := ⟨_, rfl, rfl, by decide⟩
  obtain ⟨s, hs, hsum, hdone⟩ := hrun
  have hquiet : Quiet s := fun i v hi => by
    rw [hdone] at hi
    cases hi
  have hstops := (h s (.of_run ⟨_, rfl⟩ hs) hquiet).stops hdone
  rw [hsum] at hstops
  exact hstops (by decide)

end Shop
end Autumn
