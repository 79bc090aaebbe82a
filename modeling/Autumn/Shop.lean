/-
# The shop (`threads_shop`)

A loader and three customers share five shelves, each with its mutex, and a
count `sum` of the customers that are through. What a thread does under a mutex
is one step here; the customers' test for an empty shelf and the accesses to
`sum` are steps of their own, outside any mutex. `rand()` is the scheduler's
choice.

A customer's section is a sale of what it needs or of what is on the shelf,
whichever is less, whatever happened to the shelf since the test
(`purchases_moves`); so a step moves goods and makes or loses none
(`inv_step`).

Key definitions: `State`, `purchases`, `loading`, `shop`, `Conserved`.
Key theorems: `random_number_mem`, `step_moves`, `inv_step`, `conserved`.
-/
import Mathlib.Algebra.BigOperators.Fin
import Mathlib.Algebra.BigOperators.Group.Finset.Piecewise
import Mathlib.Data.Fintype.Basic
import Autumn.Lib.System
import Autumn.Lib.Update

namespace Autumn
namespace Shop

/-! ### The program -/

/-- `random_number(a, b)`, when `rand()` returns `r`. -/
def random_number (a b : ℤ) (r : ℕ) : ℤ := a + (r : ℤ).tmod (b - a + 1)

theorem random_number_mem {a b : ℤ} (h : a ≤ b) (r : ℕ) :
    a ≤ random_number a b r ∧ random_number a b r ≤ b := by
  have h0 := Int.tmod_nonneg (b - a + 1) (Int.natCast_nonneg r)
  have h1 := Int.tmod_lt_of_pos (r : ℤ) (show 0 < b - a + 1 by omega)
  unfold random_number
  omega

/-- `j = random_number(0, 4)`. -/
def shelf (r : ℕ) : Fin 5 :=
  ⟨(random_number 0 4 r).toNat, by have := random_number_mem (show (0 : ℤ) ≤ 4 by decide) r; omega⟩

/-- Where a customer is in `purchases`, before the named statement. `through`
is behind the test `need == 0`, where `sum` is read. -/
inductive Buy
  | start
  | choose
  | test (j : Fin 5)
  | lock (j : Fin 5)
  | check
  | through
  | inc (v : ℤ)
  | done
  deriving DecidableEq, Repr

/-- Where the loader is in `loading`. -/
inductive Load
  | test
  | choose
  | lock (j : Fin 5)
  | done
  deriving DecidableEq, Repr

structure Customer where
  pc : Buy
  need : ℤ
  deriving DecidableEq, Repr

/-- The shared variables and the threads; and for the record the stock at the
start, what was loaded since, each customer's need as drawn, and what each has
bought. -/
structure State where
  store : Fin 5 → ℤ
  sum : ℤ
  loader : Load
  customers : Fin 3 → Customer
  initial : ℤ
  loaded : ℤ
  wants : Fin 3 → ℤ
  bought : Fin 3 → ℤ

def State.setCustomer (s : State) (i : Fin 3) (c : Customer) : State :=
  { s with customers := Function.update s.customers i c }

/-- Customer `i` goes on at `pc`. -/
def State.goto (s : State) (i : Fin 3) (pc : Buy) : State := s.setCustomer i { s.customers i with pc := pc }

/-- Customer `i` takes `q` from shelf `j`, and goes on at `check`. -/
def State.sell (s : State) (i : Fin 3) (j : Fin 5) (q : ℤ) : State :=
  { s.setCustomer i ⟨.check, (s.customers i).need - q⟩ with
    store := Function.update s.store j (s.store j - q)
    bought := Function.update s.bought i (s.bought i + q) }

/-- The next step of `purchases` in customer `i`; `r` is the next `rand()`. -/
def purchases (s : State) (i : Fin 3) (r : ℕ) : Option State :=
  match (s.customers i).pc with
  | .start => some { s.setCustomer i ⟨.choose, random_number 3000 3500 r⟩ with
      wants := Function.update s.wants i (random_number 3000 3500 r) }
  | .choose => some (s.goto i (.test (shelf r)))
  -- outside the mutex: the shelf may change before the lock
  | .test j => some (s.goto i (if s.store j = 0 then .choose else .lock j))
  | .lock j =>
    if (s.customers i).need ≥ s.store j then some (s.sell i j (s.store j))
    else some (s.sell i j (s.customers i).need)
  | .check => some (s.goto i (if (s.customers i).need = 0 then .through else .choose))
  | .through => some (s.goto i (.inc s.sum))
  | .inc v => some { s.goto i .done with sum := v + 1 }
  | .done => none

/-- The next step of `loading`. -/
def loading (s : State) (r : ℕ) : Option State :=
  match s.loader with
  | .test => some { s with loader := if s.sum < 3 then .choose else .done }
  | .choose => some { s with loader := .lock (shelf r) }
  | .lock j => some { s with
      store := Function.update s.store j (s.store j + random_number 300 500 r)
      loaded := s.loaded + random_number 300 500 r
      loader := .test }
  | .done => none

/-- A thread takes its next step. -/
inductive Action
  | loader (r : ℕ)
  | customer (i : Fin 3) (r : ℕ)
  deriving DecidableEq, Repr

def step (s : State) : Action → Option State
  | .loader r => loading s r
  | .customer i r => purchases s i r

/-- `main` has filled the shelves, by `rand()` for each, and the threads start. -/
def start (r : Fin 5 → ℕ) : State where
  store j := random_number 1000 1200 (r j)
  sum := 0
  loader := .test
  customers _ := ⟨.start, 0⟩
  initial := ∑ j, random_number 1000 1200 (r j)
  loaded := 0
  wants _ := 0
  bought _ := 0

def shop : System State Action where
  init s := ∃ r, s = start r
  step := step

/-- What is claimed: no goods are made or lost, no shelf and no need is
negative, and who is done has bought what it needed. -/
structure Conserved (s : State) : Prop where
  total : ∑ j, s.store j + ∑ i, s.bought i = s.initial + s.loaded
  store : ∀ j, 0 ≤ s.store j
  need : ∀ i, 0 ≤ (s.customers i).need
  done : ∀ i, (s.customers i).pc = .done → s.bought i = s.wants i

/-! ### What a step can do -/

/-- Behind the test `need == 0`. -/
def Buy.past : Buy → Bool
  | .through | .inc _ | .done => true
  | _ => false

/-- The step moves no goods, or draws a need, sells or loads. -/
inductive Moves (s : State) : State → Prop
  | loader (l : Load) : Moves s { s with loader := l }
  | goto (i : Fin 3) (pc : Buy) (n : ℤ) :
      (pc.past = true → (s.customers i).need = 0 ∨ (s.customers i).pc.past = true) →
      pc ≠ .start → Moves s { s.goto i pc with sum := n }
  | draw (i : Fin 3) (n : ℤ) : 0 ≤ n → (s.customers i).pc = .start →
      Moves s { s.setCustomer i ⟨.choose, n⟩ with wants := Function.update s.wants i n }
  | sell (i : Fin 3) (j : Fin 5) : (s.customers i).pc = .lock j →
      Moves s (s.sell i j (min (s.customers i).need (s.store j)))
  | load (j : Fin 5) (q : ℤ) : 0 ≤ q →
      Moves s { s with
        store := Function.update s.store j (s.store j + q)
        loaded := s.loaded + q
        loader := .test }

theorem purchases_moves {s s' : State} {i : Fin 3} {r : ℕ} (h : purchases s i r = some s') : Moves s s' := by
  unfold purchases at h
  split at h
  · rename_i hp
    cases h
    exact .draw i _ (by have := random_number_mem (show (3000 : ℤ) ≤ 3500 by decide) r; omega) hp
  · rename_i hp
    cases h
    exact .goto i _ s.sum (fun hx => by cases hx) (by simp)
  · rename_i j hp
    cases h
    refine .goto i _ s.sum (fun hx => ?_) (by split <;> simp)
    split at hx
    · cases hx
    · cases hx
  · rename_i j hp
    split at h
    · rename_i hge
      cases h
      have := Moves.sell i j hp
      rwa [min_eq_right hge] at this
    · rename_i hlt
      cases h
      have := Moves.sell i j hp
      rwa [min_eq_left (not_le.mp hlt).le] at this
  · rename_i hp
    cases h
    refine .goto i _ s.sum (fun hx => .inl ?_) (by split <;> simp)
    by_contra h0
    rw [if_neg h0] at hx
    cases hx
  · rename_i hp
    cases h
    exact .goto i _ s.sum (fun _ => .inr (by rw [hp]; rfl)) (by simp)
  · rename_i v hp
    cases h
    exact .goto i _ (v + 1) (fun _ => .inr (by rw [hp]; rfl)) (by simp)
  · cases h

theorem loading_moves {s s' : State} {r : ℕ} (h : loading s r = some s') : Moves s s' := by
  unfold loading at h
  split at h
  · cases h
    exact .loader _
  · cases h
    exact .loader _
  · rename_i j _
    cases h
    exact .load j _ (by have := random_number_mem (show (300 : ℤ) ≤ 500 by decide) r; omega)
  · cases h

theorem step_moves {s s' : State} {a : Action} (h : step s a = some s') : Moves s s' := by
  cases a with
  | loader r => exact loading_moves h
  | customer i r => exact purchases_moves h

/-! ### Conservation -/

/-- One account changes by `q`, and so does the sum. -/
theorem sum_update_add {ι : Type} [Fintype ι] [DecidableEq ι] (f : ι → ℤ) (i : ι) (q : ℤ) :
    ∑ k, Function.update f i (f i + q) k = ∑ k, f k + q := by
  have h := sum_update id f i (f i + q)
  simp only [id_eq] at h
  omega

/-- What a customer needs and what it has bought make up what it wanted. -/
structure Account (wants bought : ℤ) (c : Customer) : Prop where
  need : 0 ≤ c.need
  sum : bought + c.need = wants
  fresh : c.pc = .start → bought = 0
  past : c.pc.past = true → c.need = 0

structure Inv (s : State) : Prop where
  total : ∑ j, s.store j + ∑ i, s.bought i = s.initial + s.loaded
  store : ∀ j, 0 ≤ s.store j
  account : ∀ i, Account (s.wants i) (s.bought i) (s.customers i)

theorem Inv.conserves {s : State} (h : Inv s) : Conserved s := by
  refine ⟨h.total, h.store, fun i => (h.account i).need, fun i hi => ?_⟩
  have h1 := (h.account i).sum
  have h2 := (h.account i).past (by rw [hi]; rfl)
  omega

theorem forall_setCustomer {s : State} {i : Fin 3} {c : Customer} {P : Fin 3 → Customer → Prop} (hc : P i c)
    (h : ∀ k, k ≠ i → P k (s.customers k)) (k : Fin 3) : P k ((s.setCustomer i c).customers k) := by
  show P k (Function.update s.customers i c k)
  by_cases hk : k = i
  · subst hk
    rw [Function.update_self]
    exact hc
  · rw [Function.update_of_ne hk]
    exact h k hk

theorem forall_update {ι : Type} [DecidableEq ι] {f : ι → ℤ} {i : ι} {v : ℤ} (hv : 0 ≤ v) (h : ∀ k, 0 ≤ f k) (k : ι) :
    0 ≤ Function.update f i v k := by
  by_cases hk : k = i
  · subst hk
    rwa [Function.update_self]
  · rw [Function.update_of_ne hk]
    exact h k

theorem inv_goto {s : State} (hI : Inv s) {i : Fin 3} {pc : Buy} (n : ℤ)
    (hpast : pc.past = true → (s.customers i).need = 0 ∨ (s.customers i).pc.past = true) (hpc : pc ≠ .start) :
    Inv { s.goto i pc with sum := n } where
  total := hI.total
  store := hI.store
  account := by
    have hi := hI.account i
    apply forall_setCustomer (P := fun k c => Account (s.wants k) (s.bought k) c)
    · exact ⟨hi.need, hi.sum, fun h => absurd h hpc, fun h => (hpast h).elim id hi.past⟩
    · exact fun k _ => hI.account k

theorem inv_draw {s : State} (hI : Inv s) {i : Fin 3} {n : ℤ} (hn : 0 ≤ n) (hp : (s.customers i).pc = .start) :
    Inv { s.setCustomer i ⟨.choose, n⟩ with wants := Function.update s.wants i n } where
  total := hI.total
  store := hI.store
  account := by
    apply forall_setCustomer (P := fun k c => Account (Function.update s.wants i n k) (s.bought k) c)
    · have h0 := (hI.account i).fresh hp
      rw [Function.update_self, h0]
      exact ⟨hn, zero_add n, fun _ => rfl, fun h => by cases h⟩
    · intro k hk
      rw [Function.update_of_ne hk]
      exact hI.account k

theorem inv_sell {s : State} (hI : Inv s) {i : Fin 3} {j : Fin 5} {q : ℤ} (hn : q ≤ (s.customers i).need)
    (hs : q ≤ s.store j) : Inv (s.sell i j q) where
  total := by
    have h1 := sum_update_add s.store j (-q)
    have h2 := sum_update_add s.bought i q
    have h3 := hI.total
    rw [← sub_eq_add_neg] at h1
    show ∑ k, Function.update s.store j (s.store j - q) k +
      ∑ k, Function.update s.bought i (s.bought i + q) k = s.initial + s.loaded
    omega
  store := forall_update (Int.sub_nonneg_of_le hs) hI.store
  account := by
    apply forall_setCustomer (P := fun k c => Account (s.wants k) (Function.update s.bought i (s.bought i + q) k) c)
    · have hi := (hI.account i).sum
      rw [Function.update_self]
      refine ⟨Int.sub_nonneg_of_le hn, ?_, (fun h => by cases h), fun h => by cases h⟩
      show s.bought i + q + ((s.customers i).need - q) = s.wants i
      omega
    · intro k hk
      rw [Function.update_of_ne hk]
      exact hI.account k

theorem inv_load {s : State} (hI : Inv s) (j : Fin 5) {q : ℤ} (hq : 0 ≤ q) :
    Inv { s with
      store := Function.update s.store j (s.store j + q)
      loaded := s.loaded + q
      loader := .test } where
  total := by
    have h1 := sum_update_add s.store j q
    have h2 := hI.total
    show ∑ k, Function.update s.store j (s.store j + q) k + ∑ k, s.bought k = s.initial + (s.loaded + q)
    omega
  store := forall_update (add_nonneg (hI.store j) hq) hI.store
  account := hI.account

/-- **The step lemma.** -/
theorem inv_step {s s' : State} {a : Action} (hI : Inv s) (h : shop.step s a = some s') : Inv s' := by
  cases step_moves h with
  | loader l => exact ⟨hI.total, hI.store, hI.account⟩
  | goto i pc n hpast hpc => exact inv_goto hI n hpast hpc
  | draw i n hn hp => exact inv_draw hI hn hp
  | sell i j hp => exact inv_sell hI (min_le_left _ _) (min_le_right _ _)
  | load j q hq => exact inv_load hI j hq

theorem inv_start (r : Fin 5 → ℕ) : Inv (start r) where
  total := by simp [start]
  store j := by
    have := random_number_mem (show (1000 : ℤ) ≤ 1200 by decide) (r j)
    show 0 ≤ random_number 1000 1200 (r j)
    omega
  account _ := ⟨le_rfl, rfl, fun _ => rfl, fun h => by cases h⟩

/-- **The shop conserves its goods**, in every state reached in any
interleaving and with any random numbers. -/
theorem conserved (s : State) (h : shop.Reachable s) : Conserved s :=
  (h.invariant (I := Inv) (by rintro _ ⟨r, rfl⟩; exact inv_start r) fun _ _ _ hI _ => inv_step hI).conserves

/-- A customer empties a shelf of 1000 and is left with a need of 2000; then the
loader puts 300 on that shelf. -/
def saleAndLoad : List Action := List.replicate 4 (.customer 0 0) ++ List.replicate 3 (.loader 0)

theorem conserved_saleAndLoad : ∃ s, shop.run (start fun _ => 0) saleAndLoad = some s ∧ s.store 0 = 300 ∧
    s.loaded = 300 ∧ (s.customers 0).need = 2000 ∧ Conserved s := by
  have hr : ∃ s, shop.run (start fun _ => 0) saleAndLoad = some s ∧ s.store 0 = 300 ∧ s.loaded = 300 ∧
      (s.customers 0).need = 2000 := ⟨_, rfl, rfl, rfl, rfl⟩
  obtain ⟨s, hs, h0, hl, hn⟩ := hr
  exact ⟨s, hs, h0, hl, hn, conserved s (.of_run ⟨_, rfl⟩ hs)⟩

end Shop
end Autumn
