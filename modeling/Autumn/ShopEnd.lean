/-
# Whether the shop closes (`threads_shop`)

`main` returns when it has joined the loader and the three customers. No mutex
is held while another is taken, so nobody is ever blocked for good; and as long
as every increment of `sum` has counted, the threads can all come to their end
from wherever a run has brought them: a customer buys from a shelf that has
goods, the loader fills one when none has, and once all customers are through
`sum` is 3 and the loader stops. After one lost increment they never do
(`can_end_iff_alone`).

Key definitions: `Ended`, `Wanting`, `stage`, `supply`, `work`.
Key theorems: `wanting_step`, `nearer`, `can_end_iff_alone`.
-/
import Mathlib.Algebra.Order.BigOperators.Group.Finset
import Autumn.ShopCount

namespace Autumn
namespace Shop

/-- `main` can join all threads. -/
def Ended (s : State) : Prop := (∀ i, (s.customers i).pc = .done) ∧ s.loader = .done

/-! ### What customers in the loop need -/

/-- Before its next sale a customer needs something, and never more than 3500. -/
structure Wanting (c : Customer) : Prop where
  pos : c.pc.past = false → c.pc ≠ .start → c.pc ≠ .check → 0 < c.need
  le : c.need ≤ 3500

theorem wanting_step {s t : State} {a : Action} (hI : Inv s) (hW : ∀ i, Wanting (s.customers i))
    (h : shop.step s a = some t) : ∀ i, Wanting (t.customers i) := by
  cases a with
  | loader r =>
    have h' : loading s r = some t := h
    unfold loading at h'
    split at h'
    · cases h'
      exact hW
    · cases h'
      exact hW
    · cases h'
      exact hW
    · cases h'
  | customer i r =>
    have h' : purchases s i r = some t := h
    have hother : ∀ k, k ≠ i → Wanting (s.customers k) := fun k _ => hW k
    unfold purchases at h'
    split at h'
    · cases h'
      have := random_number_mem (show (3000 : ℤ) ≤ 3500 by decide) r
      exact forall_setCustomer (P := fun _ => Wanting) ⟨fun _ _ _ => by dsimp only; omega, this.2⟩ hother
    · rename_i hp
      cases h'
      have hpos := (hW i).pos (by rw [hp]; rfl) (by simp [hp]) (by simp [hp])
      exact forall_setCustomer (P := fun _ => Wanting) ⟨fun _ _ _ => hpos, (hW i).le⟩ hother
    · rename_i j hp
      cases h'
      have hpos := (hW i).pos (by rw [hp]; rfl) (by simp [hp]) (by simp [hp])
      exact forall_setCustomer (P := fun _ => Wanting) ⟨fun _ _ _ => hpos, (hW i).le⟩ hother
    · rename_i j hp
      have hle := (hW i).le
      have hstore := hI.store j
      have hneed := (hI.account i).need
      split at h'
      · cases h'
        exact forall_setCustomer (P := fun _ => Wanting)
          ⟨fun _ _ h => absurd rfl h, (Int.sub_le_self _ hstore).trans hle⟩ hother
      · cases h'
        exact forall_setCustomer (P := fun _ => Wanting)
          ⟨fun _ _ h => absurd rfl h, (Int.sub_le_self _ hneed).trans hle⟩ hother
    · rename_i hp
      cases h'
      refine forall_setCustomer (P := fun _ => Wanting) ⟨fun hpast _ _ => ?_, (hW i).le⟩ hother
      have hneed := (hI.account i).need
      by_contra h0
      have hzero : (s.customers i).need = 0 := by
        dsimp only at h0
        omega
      rw [if_pos hzero] at hpast
      cases hpast
    · rename_i hp
      cases h'
      exact forall_setCustomer (P := fun _ => Wanting) ⟨(fun hpast => by cases hpast), (hW i).le⟩ hother
    · rename_i v hp
      cases h'
      exact forall_setCustomer (P := fun _ => Wanting) ⟨(fun hpast => by cases hpast), (hW i).le⟩ hother
    · cases h'

theorem wanting_start (r : Fin 5 → ℕ) (i : Fin 3) : Wanting ((start r).customers i) :=
  ⟨fun _ h => absurd rfl h, by show (0 : ℤ) ≤ 3500; decide⟩

/-! ### How far the threads are from their end -/

/-- How far a customer is from being through, when the shelves hold `store`. -/
def stage (store : Fin 5 → ℤ) (c : Customer) : ℕ :=
  match c.pc with
  | .start => 350100
  | .choose => 100 * c.need.toNat + 43
  | .test j => 100 * c.need.toNat + if store j = 0 then 44 else 42
  | .lock j => 100 * c.need.toNat + if store j = 0 then 46 else 41
  | .check => 100 * c.need.toNat + 45
  | .through => 40
  | .inc _ => 30
  | .done => 0

/-- How far the loader is from filling a shelf where all are empty, or from its
end where all customers are through. -/
def supply (s : State) : ℕ :=
  if ∀ i, (s.customers i).pc = .done then
    match s.loader with
    | .test => 1
    | .lock _ => 2
    | .choose => 3
    | .done => 0
  else if ∀ j, s.store j = 0 then
    match s.loader with
    | .test => 3
    | .choose => 2
    | .lock _ => 1
    | .done => 0
  else 0

def work (s : State) : ℕ := ∑ i, stage s.store (s.customers i) + supply s

theorem supply_le (s : State) : supply s ≤ 3 := by
  unfold supply
  split
  · split <;> omega
  · split
    · split <;> omega
    · omega

theorem stage_le (store store' : Fin 5 → ℤ) (c : Customer) : stage store' c ≤ stage store c + 5 := by
  unfold stage
  split
  · omega
  · omega
  · split <;> split <;> omega
  · split <;> split <;> omega
  · omega
  · omega
  · omega
  · omega

/-- Where all shelves were empty, it brings the customers nearer. -/
theorem stage_le_of_empty {store : Fin 5 → ℤ} (h : ∀ j, store j = 0) (store' : Fin 5 → ℤ) (c : Customer) :
    stage store' c ≤ stage store c := by
  unfold stage
  split
  · omega
  · omega
  · rw [if_pos (h _)]
    split <;> omega
  · rw [if_pos (h _)]
    split <;> omega
  · omega
  · omega
  · omega
  · omega

theorem supply_eq {s t : State} {i j : Fin 3} (hi : (s.customers i).pc ≠ .done) (hj : (t.customers j).pc ≠ .done)
    (hstore : t.store = s.store) (hloader : t.loader = s.loader) : supply t = supply s := by
  have hs : ¬ ∀ k, (s.customers k).pc = .done := fun h => hi (h i)
  have ht : ¬ ∀ k, (t.customers k).pc = .done := fun h => hj (h j)
  unfold supply
  rw [if_neg hs, if_neg ht, hstore, hloader]

/-- A customer's step in the loop that leaves the shelves as they are. -/
theorem work_lt_of_customer {s : State} {i : Fin 3} {c : Customer} (hi : (s.customers i).pc ≠ .done)
    (hc : c.pc ≠ .done) (h : stage s.store c < stage s.store (s.customers i)) {t : State}
    (ht : t.customers = Function.update s.customers i c) (hstore : t.store = s.store)
    (hloader : t.loader = s.loader) : work t < work s := by
  have hsum : ∑ k, stage s.store (Function.update s.customers i c k) + stage s.store (s.customers i) =
      ∑ k, stage s.store (s.customers k) + stage s.store c := sum_update (stage s.store) s.customers i c
  have hj : (t.customers i).pc ≠ .done := by rw [ht, Function.update_self]; exact hc
  unfold work
  rw [supply_eq hi hj hstore hloader, ht, hstore]
  omega

/-- A step of a customer that pays for what happens to the shelves and to the loader. -/
theorem work_lt_of_drop {s t : State} {i : Fin 3} {c : Customer} (ht : t.customers = Function.update s.customers i c)
    (h : stage s.store c + 19 ≤ stage s.store (s.customers i)) : work t < work s := by
  have hsum : ∑ k, stage s.store (Function.update s.customers i c k) + stage s.store (s.customers i) =
      ∑ k, stage s.store (s.customers k) + stage s.store c := sum_update (stage s.store) s.customers i c
  have hshelves : ∑ k, stage t.store (t.customers k) ≤ ∑ k, (stage s.store (t.customers k) + 5) :=
    Finset.sum_le_sum fun k _ => stage_le _ _ _
  have hthree : ∑ k : Fin 3, (stage s.store (t.customers k) + 5) = ∑ k, stage s.store (t.customers k) + 15 := by
    rw [Finset.sum_add_distrib]
    rfl
  have := supply_le t
  unfold work
  rw [hthree, ht] at hshelves
  rw [ht]
  omega

/-- A step of the loader that leaves the shelves as they are. -/
theorem work_lt_of_loader {s : State} {l : Load} (h : supply { s with loader := l } < supply s) :
    work { s with loader := l } < work s :=
  Nat.add_lt_add_left h (∑ i, stage s.store (s.customers i))

/-! ### Coming to the end -/

theorem shelf_val : ∀ j : Fin 5, shelf j.val = j := by decide

/-- A step that loses no increment and brings the threads nearer to their end. -/
def Nearer (s t : State) : Prop := (∃ a, shop.step s a = some t ∧ Alone s a) ∧ work t < work s

theorem nearer_inc {s : State} {i : Fin 3} {v : ℤ} (hp : (s.customers i).pc = .inc v) : ∃ t, Nearer s t := by
  refine ⟨_, ⟨.customer i 0, show purchases s i 0 = _ by rw [purchases, hp], fun h => ?_⟩, ?_⟩
  · rw [hp] at h
    cases h
  · refine work_lt_of_drop (i := i) (c := { s.customers i with pc := .done }) rfl ?_
    simp [stage, hp]

/-- A customer elsewhere in its loop, when none is in between. -/
theorem nearer_customer {s : State} (hI : Inv s) {i : Fin 3} (hW : Wanting (s.customers i)) (hq : Quiet s)
    (hdone : (s.customers i).pc ≠ .done) (hchoose : (s.customers i).pc ≠ .choose) : ∃ t, Nearer s t := by
  suffices ∃ t, purchases s i 0 = some t ∧ work t < work s by
    obtain ⟨t, ht, hlt⟩ := this
    exact ⟨t, ⟨.customer i 0, ht, fun _ => hq⟩, hlt⟩
  have hneed := (hI.account i).need
  cases hp : (s.customers i).pc with
  | start =>
    have hmem := random_number_mem (show (3000 : ℤ) ≤ 3500 by decide) 0
    have hst : purchases s i 0 = some { s.setCustomer i ⟨.choose, random_number 3000 3500 0⟩ with
        wants := Function.update s.wants i (random_number 3000 3500 0) } := by rw [purchases, hp]
    refine ⟨_, hst, work_lt_of_customer (c := ⟨.choose, random_number 3000 3500 0⟩) hdone nofun ?_ rfl rfl rfl⟩
    simp only [stage, hp]
    omega
  | choose => exact absurd hp hchoose
  | test j =>
    have hst : purchases s i 0 = some (s.goto i (if s.store j = 0 then .choose else .lock j)) := by
      rw [purchases, hp]
    refine ⟨_, hst, work_lt_of_customer (c := { s.customers i with pc := if s.store j = 0 then .choose else .lock j })
      hdone ?_ ?_ rfl rfl rfl⟩
    · dsimp only
      split <;> nofun
    · by_cases h0 : s.store j = 0
      · simp [stage, hp, h0]
      · simp [stage, hp, h0]
  | lock j =>
    have hpos := hW.pos (by rw [hp]; rfl) (by simp [hp]) (by simp [hp])
    have hstore := hI.store j
    obtain ⟨q, hpur, hqn, hq, hqs, hq0⟩ : ∃ q, purchases s i 0 = some (s.sell i j q) ∧ q ≤ (s.customers i).need ∧
        0 ≤ q ∧ q ≤ s.store j ∧ (s.store j ≠ 0 → 1 ≤ q) := by
      rw [purchases, hp]
      by_cases hge : (s.customers i).need ≥ s.store j
      · exact ⟨_, if_pos hge, hge, hstore, le_rfl, fun h => by omega⟩
      · exact ⟨_, if_neg hge, le_rfl, hneed, by omega, fun _ => by omega⟩
    refine ⟨_, hpur, ?_⟩
    by_cases h0 : s.store j = 0
    · obtain rfl : q = 0 := by omega
      refine work_lt_of_customer (c := ⟨.check, (s.customers i).need - 0⟩) hdone nofun ?_ rfl ?_ rfl
      · simp [stage, hp, h0]
      · rw [State.sell, Int.sub_zero]
        exact Function.update_eq_self j s.store
    · refine work_lt_of_drop (c := ⟨.check, (s.customers i).need - q⟩) rfl ?_
      have := hq0 h0
      simp only [stage, hp, if_neg h0]
      omega
  | check =>
    have hst : purchases s i 0 = some (s.goto i (if (s.customers i).need = 0 then .through else .choose)) := by
      rw [purchases, hp]
    refine ⟨_, hst, work_lt_of_customer
      (c := { s.customers i with pc := if (s.customers i).need = 0 then .through else .choose }) hdone ?_ ?_ rfl rfl rfl⟩
    · dsimp only
      split <;> nofun
    · by_cases h0 : (s.customers i).need = 0
      · simp [stage, hp, h0]
      · simp [stage, hp, h0]
  | through =>
    have hst : purchases s i 0 = some (s.goto i (.inc s.sum)) := by rw [purchases, hp]
    refine ⟨_, hst, work_lt_of_customer (c := { s.customers i with pc := .inc s.sum }) hdone nofun ?_ rfl rfl rfl⟩
    simp [stage, hp]
  | inc v => exact absurd hp (hq i v)
  | done => exact absurd hp hdone

theorem nearer_choose {s : State} {i : Fin 3} (hp : (s.customers i).pc = .choose) {j : Fin 5} (hj : s.store j ≠ 0) :
    ∃ t, Nearer s t := by
  have hst : purchases s i j.val = some (s.goto i (.test j)) := by rw [purchases, hp, shelf_val]
  refine ⟨_, ⟨.customer i j.val, hst, fun h => ?_⟩, ?_⟩
  · rw [hp] at h
    cases h
  · refine work_lt_of_customer (i := i) (c := { s.customers i with pc := .test j }) ?_ nofun ?_ rfl rfl rfl
    · rw [hp]
      nofun
    · simp [stage, hp, hj]

/-- The loader goes on where all shelves are empty: until `sum` is 3 it does not
stop. -/
theorem nearer_load {s : State} (hG : Good s) {i : Fin 3} (hi : (s.customers i).pc ≠ .done)
    (hempty : ∀ j, s.store j = 0) : ∃ t, Nearer s t := by
  have hnot : ¬ ∀ k, (s.customers k).pc = .done := fun h => hi (h i)
  have hsum : s.sum < 3 := by
    have hvalue : s.sum = s.counter.written := hG.exact.value
    have hle := Finset.card_le_univ (Finset.univ.filter fun k => s.counter.phase k = .through)
    have hne : s.counter.written ≠ 3 := fun h3 =>
      hnot ((all_done_iff s).mpr (Counter.written_eq_card_iff.mp (h3.trans (Fintype.card_fin 3).symm)))
    have h3 : s.counter.written ≤ 3 := hle.trans_eq (Fintype.card_fin 3)
    omega
  cases hl : s.loader with
  | test =>
    have hst : loading s 0 = some { s with loader := .choose } := by rw [loading, hl, if_pos hsum]
    refine ⟨_, ⟨.loader 0, hst, trivial⟩, work_lt_of_loader ?_⟩
    simp [supply, hnot, hempty, hl]
  | choose =>
    have hst : loading s 0 = some { s with loader := .lock (shelf 0) } := by rw [loading, hl]
    refine ⟨_, ⟨.loader 0, hst, trivial⟩, work_lt_of_loader ?_⟩
    simp [supply, hnot, hempty, hl]
  | lock j =>
    have hmem := random_number_mem (show (300 : ℤ) ≤ 500 by decide) 0
    set store' := Function.update s.store j (s.store j + random_number 300 500 0) with hstore'
    have hst : loading s 0 = some { s with
        store := store', loaded := s.loaded + random_number 300 500 0, loader := .test } := by
      rw [loading, hl]
    refine ⟨_, ⟨.loader 0, hst, trivial⟩, ?_⟩
    have hfull : ¬ ∀ k, store' k = 0 := by
      intro h
      have := h j
      rw [hstore', Function.update_self, hempty] at this
      omega
    have hshelves : ∑ k, stage store' (s.customers k) ≤ ∑ k, stage s.store (s.customers k) :=
      Finset.sum_le_sum fun k _ => stage_le_of_empty hempty _ _
    have hlast : supply s = 1 := by simp [supply, hnot, hempty, hl]
    unfold work
    rw [hlast]
    simp only [supply, if_neg hnot, if_neg hfull]
    omega
  | done => exact absurd ((all_done_iff s).mpr (hG.loader hl) i) hi

theorem nearer_stop {s : State} (hG : Good s) (hall : ∀ i, (s.customers i).pc = .done) (hl : s.loader ≠ .done) :
    ∃ t, Nearer s t := by
  have hstage : ∀ (store : Fin 5 → ℤ) k, stage store (s.customers k) = 0 := fun store k => by simp [stage, hall k]
  cases hload : s.loader with
  | test =>
    have hst : loading s 0 = some { s with loader := .done } := by
      rw [loading, hload, if_neg (hG.counted.stops hall)]
    refine ⟨_, ⟨.loader 0, hst, trivial⟩, work_lt_of_loader ?_⟩
    simp [supply, hall, hload]
  | choose =>
    have hst : loading s 0 = some { s with loader := .lock (shelf 0) } := by rw [loading, hload]
    refine ⟨_, ⟨.loader 0, hst, trivial⟩, work_lt_of_loader ?_⟩
    simp [supply, hall, hload]
  | lock j =>
    have hst : loading s 0 = some { s with
        store := Function.update s.store j (s.store j + random_number 300 500 0)
        loaded := s.loaded + random_number 300 500 0
        loader := .test } := by
      rw [loading, hload]
    refine ⟨_, ⟨.loader 0, hst, trivial⟩, ?_⟩
    simp [work, supply, hall, hload, hstage]
  | done => exact absurd hload hl

/-- **Progress.** While no increment is lost, some step loses none and brings the
threads nearer to their end. -/
theorem nearer {s : State} (hG : Good s) (hI : Inv s) (hW : ∀ i, Wanting (s.customers i)) (h : ¬ Ended s) :
    ∃ t, Nearer s t := by
  by_cases hall : ∀ i, (s.customers i).pc = .done
  · exact nearer_stop hG hall fun hl => h ⟨hall, hl⟩
  · by_cases hq : Quiet s
    · by_cases hbusy : ∃ i, (s.customers i).pc ≠ .done ∧ (s.customers i).pc ≠ .choose
      · obtain ⟨i, hdone, hchoose⟩ := hbusy
        exact nearer_customer hI (hW i) hq hdone hchoose
      · -- all who are not through choose a shelf
        obtain ⟨i, hi⟩ := not_forall.mp hall
        have hchoose : (s.customers i).pc = .choose := by
          by_contra hne
          exact hbusy ⟨i, hi, hne⟩
        by_cases hempty : ∀ j, s.store j = 0
        · exact nearer_load hG hi hempty
        · obtain ⟨j, hj⟩ := not_forall.mp hempty
          exact nearer_choose hchoose hj
    · simp only [Quiet, not_forall, not_not] at hq
      obtain ⟨i, v, hi⟩ := hq
      exact nearer_inc hi

/-- **`main` can still return**, from where a run has brought the threads, exactly if
no customer has read `sum` in it while another one was in between. -/
theorem can_end_iff_alone (r : Fin 5 → ℕ) (as : List Action) (s : State) (h : shop.run (start r) as = some s) :
    (∃ bs t, shop.run s bs = some t ∧ Ended t) ↔ shop.Meets Alone (start r) as := by
  have hkept : Inv s ∧ ∀ i, Wanting (s.customers i) :=
    System.run_invariant (M := shop) (I := fun u => Inv u ∧ ∀ i, Wanting (u.customers i))
      (fun u a v ⟨hI, hW⟩ hst => ⟨inv_step hI hst, wanting_step hI hW hst⟩) ⟨inv_start r, wanting_start r⟩ h
  rcases run_divides h with ⟨hmeets, hG⟩ | ⟨hmeets, hB⟩
  · refine iff_of_true ?_ hmeets
    let I (u : State) : Prop := Good u ∧ Inv u ∧ ∀ i, Wanting (u.customers i)
    obtain ⟨bs, t, hr, -, hd⟩ := System.exists_run_done (M := shop) (I := I) (D := Ended) work
      (fun u ⟨hG, hI, hW⟩ hd => by
        obtain ⟨t, ⟨a, hst, halone⟩, hlt⟩ := nearer hG hI hW hd
        have hGt : Good t := ((good_step u a t hG hst).resolve_right fun h => h.1 halone).2
        exact ⟨a, t, hst, ⟨hGt, inv_step hI hst, wanting_step hI hW hst⟩, hlt⟩) s ⟨hG, hkept⟩
    exact ⟨bs, t, hr, hd⟩
  · refine iff_of_false ?_ hmeets
    rintro ⟨bs, t, hr, -, hl⟩
    exact (System.run_invariant bad_step hB hr).loader hl

/-- After the run in which two customers read `sum` at once, `main` cannot return
any more. -/
theorem can_end_iff_threeThrough : ∃ s, shop.run (start fun _ => 200) (threeThrough 0 1 2) = some s ∧
    ¬ ∃ bs t, shop.run s bs = some t ∧ Ended t := by
  have hrun : ∃ s, shop.run (start fun _ => 200) (threeThrough 0 1 2) = some s ∧ s.sum = 2 ∧
      ∀ i, (s.customers i).pc = .done := ⟨_, rfl, rfl, by decide⟩
  obtain ⟨s, hs, hsum, hdone⟩ := hrun
  refine ⟨s, hs, fun h => ?_⟩
  have hmeets := (can_end_iff_alone _ _ s hs).mp h
  have hG : Good s := ((run_divides hs).resolve_right fun h => h.1 hmeets).2
  have hstops := hG.counted.stops hdone
  rw [hsum] at hstops
  exact hstops (by decide)

end Shop
end Autumn
