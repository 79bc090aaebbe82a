/-
# The phone book's numbering and its block (`structure/struct_home.c`)

Whatever is typed, the records `0 .. amt - 1` lie in the block, each has its
index as its id, and the strings in it end inside it (`Consistent`): an addition
writes the number last, and a removal copies strings that end. So no access of
the four functions leaves a block (`numbering`).

`remove_sub` compares the number typed with `amt - 1` only, so a negative one
passes, and the loop takes it for 0: it deletes the first record
(`remove_missing_iff`).

Key definitions: `Readable`, `Consistent`, `AccessesInside`, `reports`,
`Unchanged`.
Key theorems: `fill_readable`, `consistent_add`, `consistent_remove`,
`amt_eq_tally`, `numbering`, `remove_negative`, `remove_missing_iff`.
-/
import Autumn.PhonebookRefine

namespace Autumn
namespace Phonebook

/-! ### Records whose strings end in them -/

/-- There is a NUL from the last field on. -/
def Readable (r : Record) : Prop := (0 : UInt8) ∈ r.text.chars.drop numberAt

theorem Readable.zero_mem {r : Record} (h : Readable r) {field : ℕ} (hf : field ≤ numberAt) :
    (0 : UInt8) ∈ r.text.chars.drop field := by
  have hdrop : r.text.chars.drop numberAt = (r.text.chars.drop field).drop (numberAt - field) := by
    rw [List.drop_drop]
    congr 1
    omega
  rw [Readable, hdrop] at h
  exact List.mem_of_mem_drop h

theorem Readable.read_eq {r : Record} (h : Readable r) {field : ℕ} (hf : field ≤ numberAt) :
    r.read field = some (cstr (r.text.chars.drop field)) := if_pos (h.zero_mem hf)

theorem Readable.read {r : Record} (h : Readable r) (field : ℕ) (hf : field ≤ numberAt) :
    ∃ w, r.read field = some w ∧ field + w.length < 60 := by
  have hlt := length_cstr_lt (h.zero_mem hf)
  rw [List.length_drop, r.text.size] at hlt
  exact ⟨_, h.read_eq hf, by omega⟩

theorem readable_put {r r' : Record} {w : List UInt8} (h : r.put numberAt w = some r') : Readable r' := by
  obtain ⟨-, hs⟩ := Record.put_eq_some h
  rw [Readable, Buf.drop_store hs]
  simp

theorem fill_readable (r : Record) {x y : Record} (hx : Readable x) (hy : Readable y) :
    ∃ w1 w2 w3 r1 r2 r3, x.read nameAt = some w1 ∧ x.read surnameAt = some w2 ∧ y.read numberAt = some w3 ∧
      r.put nameAt w1 = some r1 ∧ r1.put surnameAt w2 = some r2 ∧ r2.put numberAt w3 = some r3 ∧
      r3.id = r.id ∧ Readable r3 := by
  obtain ⟨w1, e1, l1⟩ := hx.read nameAt (by decide)
  obtain ⟨w2, e2, l2⟩ := hx.read surnameAt (by decide)
  obtain ⟨w3, e3, l3⟩ := hy.read numberAt le_rfl
  obtain ⟨r1, h1⟩ := r.exists_put nameAt w1 l1
  obtain ⟨r2, h2⟩ := r1.exists_put surnameAt w2 l2
  obtain ⟨r3, h3⟩ := r2.exists_put numberAt w3 l3
  have hid : r3.id = r.id := by
    rw [(Record.put_eq_some h3).1, (Record.put_eq_some h2).1, (Record.put_eq_some h1).1]
  exact ⟨w1, w2, w3, r1, r2, r3, e1, e2, e3, h1, h2, h3, hid, readable_put h3⟩

/-! ### The block -/

/-- The records of the book lie in the block, with their indices as ids. -/
structure Consistent (s : Book) : Prop where
  nonneg : 0 ≤ s.amt
  recs : ∀ i : ℕ, (i : ℤ) < s.amt → ∃ r, s.subs[i]? = some r ∧ r.id = i ∧ Readable r

theorem consistent_empty : Consistent empty :=
  ⟨le_rfl, fun i hi => absurd hi (by show ¬ (i : ℤ) < 0; omega)⟩

variable {s s' : Book} {mem : ℕ → Record} {id_r : ℤ}

theorem Consistent.amt (h : Consistent s) : s.amt = s.amt.toNat := (Int.toNat_of_nonneg h.nonneg).symm

/-- What an addition does: it fills the record behind the others. -/
theorem add_sub_eq_some {k : ℕ} (hk : s.amt = k) {name surname number : List UInt8}
    (hadd : add_sub mem name surname number s = some s') : ∃ r r1 r2 r3, (grown mem s)[k]? = some r ∧
      r.put nameAt name = some r1 ∧ r1.put surnameAt surname = some r2 ∧ r2.put numberAt number = some r3 ∧
      s' = ⟨(grown mem s).set k { r3 with id := k }, k + 1⟩ := by
  simp only [add_sub, Option.bind_eq_bind, Option.bind_eq_some_iff, hk, get_natCast, Int.toNat_natCast,
    Option.some.injEq] at hadd
  obtain ⟨r, hr, r1, h1, r2, h2, r3, h3, heq⟩ := hadd
  exact ⟨r, r1, r2, r3, hr, h1, h2, h3, heq.symm⟩

theorem add_keeps {k : ℕ} (hk : s.amt = k) {name surname number : List UInt8}
    (hadd : add_sub mem name surname number s = some s') {i : ℕ} (hi : i < k) {r : Record} (hr : s.subs[i]? = some r) :
    s'.subs[i]? = some r := by
  obtain ⟨-, -, -, r3, -, -, -, -, rfl⟩ := add_sub_eq_some hk hadd
  show ((grown mem s).set k _)[i]? = _
  rw [List.getElem?_set_ne (Nat.ne_of_gt hi)]
  exact (grown_spec mem hk).2 i r hi hr

/-- **An addition** numbers the new record and keeps the others. -/
theorem consistent_add {name surname number : List UInt8} (h : Consistent s)
    (hadd : add_sub mem name surname number s = some s') : Consistent s' ∧ s'.amt = s.amt + 1 := by
  obtain ⟨k, hk⟩ : ∃ k : ℕ, s.amt = k := ⟨_, h.amt⟩
  have hkeeps := fun i (hi : i < k) r hr => add_keeps hk hadd hi (r := r) hr
  obtain ⟨r, r1, r2, r3, hr, -, -, h3, rfl⟩ := add_sub_eq_some hk hadd
  refine ⟨⟨Int.natCast_nonneg (k + 1), fun i hi => ?_⟩, by rw [hk]⟩
  have hlt : i < k + 1 := Int.ofNat_lt.mp hi
  by_cases hik : i = k
  · have hread : Readable r3 := readable_put h3
    rw [hik]
    exact ⟨_, List.getElem?_set_self (List.getElem?_eq_some_iff.mp hr).1, rfl, hread⟩
  · obtain ⟨q, hq, hid, hread⟩ := h.recs i (by omega)
    exact ⟨q, hkeeps i (by omega) q hq, hid, hread⟩

/-- A pass of the loop of `remove_sub` is defined, whatever the number typed. -/
theorem copyOne_readable (h : Consistent s) (id_r : ℤ) (new_subs : List Record) {i : ℕ}
    (hi : (i : ℤ) + 1 < s.amt) (hlen : i < new_subs.length) :
    ∃ r, copyOne s.subs id_r new_subs i = some (new_subs.set i r) ∧ r.id = i ∧ Readable r := by
  obtain ⟨x, hx, -, hxr⟩ := h.recs i (by omega)
  obtain ⟨y, hy, -, hyr⟩ := h.recs (i + 1) (by push_cast; omega)
  rw [← get_natCast] at hx hy
  push_cast at hy
  have hnew : get new_subs i = some new_subs[i] := by rw [get_natCast]; exact List.getElem?_eq_getElem hlen
  by_cases hge : (i : ℤ) ≥ id_r
  · obtain ⟨w1, w2, w3, r1, r2, r3, e1, e2, e3, h1, h2, h3, hid, hread⟩ :=
      fill_readable ({ new_subs[i] with id := i } : Record) hyr hyr
    exact ⟨r3, by simp [copyOne, hnew, hge, hy, e1, e2, e3, h1, h2, h3], hid, hread⟩
  · obtain ⟨w1, w2, w3, r1, r2, r3, e1, e2, e3, h1, h2, h3, hid, hread⟩ :=
      fill_readable ({ new_subs[i] with id := i } : Record) hxr hyr
    exact ⟨r3, by simp [copyOne, hnew, hge, hx, hy, e1, e2, e3, h1, h2, h3], hid, hread⟩

/-- **A removal** is defined; it reports success and leaves one record fewer, or
changes nothing. -/
theorem consistent_remove (mem : ℕ → Record) (id_r : ℤ) (h : Consistent s) :
    ∃ rep s', remove_sub mem id_r s = some (rep, s') ∧ Consistent s' ∧
      ((0 < s.amt ∧ id_r < s.amt ∧ rep = .removed ∧ s'.amt = s.amt - 1) ∨
        ((s.amt = 0 ∨ s.amt ≤ id_r) ∧ rep ≠ .removed ∧ s' = s)) := by
  have hnonneg := h.nonneg
  unfold remove_sub
  by_cases hpos : s.amt > 0
  · rw [if_pos hpos]
    by_cases hbig : id_r > s.amt - 1
    · rw [if_pos hbig]
      exact ⟨_, _, rfl, h, .inr ⟨by omega, by simp, rfl⟩⟩
    · have hn : (s.amt - 1).toNat + 1 = s.amt.toNat := by omega
      -- after `i` passes the first `i` new records are numbered
      obtain ⟨ns, hns, hlen, hrec⟩ := foldlM_range (f := copyOne s.subs id_r) (n := (s.amt - 1).toNat)
        (s := malloc mem (s.amt - 1))
        (fun i ns => ns.length = (s.amt - 1).toNat ∧
          ∀ k, k < i → ∃ r, ns[k]? = some r ∧ r.id = k ∧ Readable r)
        ⟨by simp [malloc], fun k hk => absurd hk (Nat.not_lt_zero k)⟩
        (fun i ns hi ⟨hlen, hrec⟩ => by
          obtain ⟨r, hr, hid, hread⟩ := copyOne_readable h id_r ns (i := i) (by omega) (by omega)
          refine ⟨ns.set i r, hr, by simpa using hlen, fun k hk => ?_⟩
          by_cases hki : k = i
          · rw [hki, List.getElem?_set_self (by omega)]
            exact ⟨r, rfl, hid, hread⟩
          · rw [List.getElem?_set_ne (Ne.symm hki)]
            exact hrec k (by omega))
      rw [if_neg hbig, hns]
      refine ⟨.removed, ⟨ns, s.amt - 1⟩, rfl, ⟨by show 0 ≤ s.amt - 1; omega, fun i hi => ?_⟩,
        .inl ⟨hpos, by omega, rfl, rfl⟩⟩
      have hi : (i : ℤ) < s.amt - 1 := hi
      exact hrec i (by omega)
  · rw [if_neg hpos]
    exact ⟨_, _, rfl, h, .inr ⟨by omega, by simp, rfl⟩⟩

theorem consistent_step {op : Op} (h : Consistent s) (hst : step s op = some s') : Consistent s' := by
  cases op with
  | add mem name surname number => exact (consistent_add h hst).1
  | remove mem id_r =>
    obtain ⟨rep, t, ht, hc, -⟩ := consistent_remove mem id_r h
    rw [step, ht] at hst
    cases hst
    exact hc

theorem consistent_reachable (h : book.Reachable s) : Consistent s :=
  h.invariant (I := Consistent) (fun t (h0 : t = empty) => h0 ▸ consistent_empty)
    fun _ _ _ hc _ hst => consistent_step hc hst

/-! ### Accesses -/

/-- The four functions stay inside their blocks: `add_sub` at the record it
fills, the others whatever is typed that fits. -/
structure AccessesInside (s : Book) : Prop where
  add : ∀ mem, ∃ r, get (grown mem s) s.amt = some r
  remove : ∀ mem id_r, ∃ r, remove_sub mem id_r s = some r
  search : ∀ mem typed, typed.length ≤ 15 → ∃ out, sub_search mem typed s = some out
  all : ∃ out, show_phonebook s = some out

theorem Consistent.get {s : Book} (h : Consistent s) {i : ℕ} (hi : i < s.amt.toNat) :
    ∃ r w1 w2 w3, Phonebook.get s.subs i = some r ∧ r.read nameAt = some w1 ∧ r.read surnameAt = some w2 ∧
      r.read numberAt = some w3 := by
  obtain ⟨r, hr, -, hread⟩ := h.recs i (by omega)
  obtain ⟨w1, e1, -⟩ := hread.read nameAt (by decide)
  obtain ⟨w2, e2, -⟩ := hread.read surnameAt (by decide)
  obtain ⟨w3, e3, -⟩ := hread.read numberAt le_rfl
  exact ⟨r, w1, w2, w3, by rw [get_natCast, hr], e1, e2, e3⟩

theorem Consistent.accesses (h : Consistent s) : AccessesInside s where
  add mem := by
    obtain ⟨⟨r, hr⟩, -⟩ := grown_spec mem h.amt
    refine ⟨r, ?_⟩
    rw [h.amt, get_natCast]
    exact hr
  remove mem id_r := by
    obtain ⟨rep, s', hr, -⟩ := consistent_remove mem id_r h
    exact ⟨_, hr⟩
  search mem typed hlen := by
    obtain ⟨b, hb, -⟩ := mem.exists_store 0 (typed ++ [0]) (by simp; omega)
    obtain ⟨out, hout, -⟩ := foldlM_range (n := s.amt.toNat) (s := ([] : List Printed))
      (f := fun out (i : ℕ) => do
        let r ← Phonebook.get s.subs i
        if (← r.read numberAt) = b.str then
          some (out ++ [.found (← r.read surnameAt) (← r.read nameAt) (← r.read numberAt)])
        else some out)
      (fun _ _ => True) trivial (fun i out hi _ => by
        obtain ⟨r, w1, w2, w3, hr, e1, e2, e3⟩ := h.get hi
        by_cases hnum : w3 = b.str <;> simp [hr, e1, e2, e3, hnum])
    unfold sub_search
    by_cases h0 : s.amt = 0
    · exact ⟨_, if_pos h0⟩
    · have hpos : s.amt > 0 := by have := h.nonneg; omega
      rw [if_neg h0, if_pos hpos, Buf.put, hb]
      exact ⟨out, hout⟩
  all := by
    obtain ⟨out, hout, -⟩ := foldlM_range (n := s.amt.toNat) (s := [Printed.allRecords])
      (f := fun out (i : ℕ) => do
        let r ← Phonebook.get s.subs i
        some (out ++ [.shown r.id (← r.read surnameAt) (← r.read nameAt) (← r.read numberAt)]))
      (fun _ _ => True) trivial (fun i out hi _ => by
        obtain ⟨r, w1, w2, w3, hr, e1, e2, e3⟩ := h.get hi
        simp [hr, e1, e2, e3])
    unfold show_phonebook
    by_cases h0 : s.amt = 0
    · exact ⟨_, if_pos h0⟩
    · have hpos : s.amt > 0 := by have := h.nonneg; omega
      rw [if_neg h0, if_pos hpos]
      exact ⟨out, hout⟩

/-! ### The number of records -/

def Op.isAdd : Op → Bool
  | .add .. => true
  | .remove .. => false

/-- What the removals of a session report, in order. -/
def reports : Book → List Op → List Report
  | _, [] => []
  | s, .add mem name surname number :: ops =>
    (add_sub mem name surname number s).elim [] fun t => reports t ops
  | s, .remove mem id_r :: ops => (remove_sub mem id_r s).elim [] fun r => r.1 :: reports r.2 ops

/-- **The number of records** is the additions less the removals reported. -/
theorem amt_eq_tally : ∀ {s t : Book} {ops : List Op}, Consistent s → book.run s ops = some t →
    t.amt = s.amt + ops.countP Op.isAdd - (reports s ops).count .removed
  | s, t, [], _, hr => by
    cases hr
    simp [reports]
  | s, t, .add mem name surname number :: ops, h, hr => by
    obtain ⟨u, hu, hr⟩ := Option.bind_eq_some_iff.mp hr
    have hadd : add_sub mem name surname number s = some u := hu
    obtain ⟨hc, hamt⟩ := consistent_add h hadd
    have ih := amt_eq_tally hc hr
    simp only [reports, hadd, Option.elim_some, List.countP_cons, Op.isAdd, if_true]
    push_cast
    omega
  | s, t, .remove mem id_r :: ops, h, hr => by
    obtain ⟨u, hu, hr⟩ := Option.bind_eq_some_iff.mp hr
    obtain ⟨rep, u', hrem, hc, hcase⟩ := consistent_remove mem id_r h
    have hu' : (remove_sub mem id_r s).map Prod.snd = some u := hu
    rw [hrem] at hu'
    cases hu'
    have ih := amt_eq_tally hc hr
    simp only [reports, hrem, Option.elim_some, List.countP_cons, Op.isAdd, List.count_cons]
    rcases hcase with ⟨-, -, rfl, hamt⟩ | ⟨-, hne, rfl⟩
    · simp only [beq_self_eq_true, if_true, Bool.false_eq_true, if_false]
      push_cast
      omega
    · have hb : (rep == Report.removed) = false := by simpa using hne
      simp only [hb, Bool.false_eq_true, if_false]
      push_cast
      omega

/-- **In every session** the number of records is right and not negative, each
record has its index as its id, and the four functions stay inside their
blocks. -/
theorem numbering (ops : List Op) (s : Book) (h : book.run empty ops = some s) :
    0 ≤ s.amt ∧ s.amt = ops.countP Op.isAdd - (reports empty ops).count .removed ∧
      (∀ i : ℕ, (i : ℤ) < s.amt → ∃ r, s.subs[i]? = some r ∧ r.id = i) ∧
      (0 < s.amt → s.amt ≤ s.subs.length) ∧ AccessesInside s := by
  have hc : Consistent s := consistent_reachable (System.Reachable.of_run rfl h)
  refine ⟨hc.nonneg, ?_, fun i hi => ?_, fun hpos => ?_, hc.accesses⟩
  · have := amt_eq_tally consistent_empty h
    rwa [show (empty.amt : ℤ) = 0 from rfl, zero_add] at this
  · obtain ⟨r, hr, hid, -⟩ := hc.recs i hi
    exact ⟨r, hr, hid⟩
  · obtain ⟨r, hr, -⟩ := hc.recs (s.amt.toNat - 1) (by omega)
    have := (List.getElem?_eq_some_iff.mp hr).1
    omega

/-- Two additions, and the first record removed. -/
def addsAndRemoval : List Op := twoAdds ++ [.remove zeroMem 0]

theorem numbering_addsAndRemoval : ∃ s, book.run empty addsAndRemoval = some s ∧
    (reports empty addsAndRemoval).count .removed = 1 ∧ 0 ≤ s.amt ∧
    s.amt = addsAndRemoval.countP Op.isAdd - (reports empty addsAndRemoval).count .removed ∧
      (∀ i : ℕ, (i : ℤ) < s.amt → ∃ r, s.subs[i]? = some r ∧ r.id = i) ∧
      (0 < s.amt → s.amt ≤ s.subs.length) ∧ AccessesInside s := by
  have hr : (book.run empty addsAndRemoval).map Book.amt = some 1 := by decide
  obtain ⟨s, hs, -⟩ := Option.map_eq_some_iff.mp hr
  exact ⟨s, hs, by decide, numbering addsAndRemoval s hs⟩

/-! ### Numbers no record has -/

/-- The removal changes neither the number of records nor any of them. -/
def Unchanged (mem : ℕ → Record) (id_r : ℤ) (s : Book) : Prop :=
  ∃ rep s', remove_sub mem id_r s = some (rep, s') ∧ s'.amt = s.amt ∧
    ∀ i : ℕ, (i : ℤ) < s.amt → s'.subs[i]? = s.subs[i]?

/-- A negative number is taken for 0. -/
theorem remove_negative (mem : ℕ → Record) (h : id_r < 0) (hpos : 0 < s.amt) :
    remove_sub mem id_r s = remove_sub mem 0 s := by
  have hcopy : copyOne s.subs id_r = copyOne s.subs 0 := by
    funext new_subs i
    have h1 : (i : ℤ) ≥ id_r := by omega
    have h2 : (i : ℤ) ≥ 0 := by omega
    simp only [copyOne, if_pos h1, if_pos h2]
  have h1 : ¬ id_r > s.amt - 1 := by omega
  have h2 : ¬ (0 : ℤ) > s.amt - 1 := by omega
  rw [remove_sub, remove_sub, hcopy, if_neg h1, if_neg h2]

/-- **A number no record has changes nothing exactly if it is not negative or
the book is empty**; a negative one removes the first record. -/
theorem remove_missing_iff (mem : ℕ → Record) (id_r : ℤ) (s : Book) (hs : book.Reachable s)
    (hid : id_r < 0 ∨ s.amt ≤ id_r) : (Unchanged mem id_r s ↔ 0 ≤ id_r ∨ s.amt = 0) ∧
      (id_r < 0 → 0 < s.amt → remove_sub mem id_r s = remove_sub mem 0 s) := by
  have hc := consistent_reachable hs
  refine ⟨?_, fun h hpos => remove_negative mem h hpos⟩
  obtain ⟨rep, s', hrem, -, hcase⟩ := consistent_remove mem id_r hc
  have hnonneg := hc.nonneg
  rcases hcase with ⟨hpos, hlt, -, hless⟩ | ⟨hmiss, -, rfl⟩
  · refine iff_of_false ?_ (by omega)
    rintro ⟨rep', t, ht, hamt, -⟩
    rw [hrem] at ht
    cases ht
    omega
  · exact iff_of_true ⟨rep, s', hrem, rfl, fun _ _ => rfl⟩ (by omega)

theorem twoAdds_runs : ∃ s, book.run empty twoAdds = some s ∧ s.amt = 2 := by
  have h : (book.run empty twoAdds).map Book.amt = some 2 := by decide
  obtain ⟨s, hs, hamt⟩ := Option.map_eq_some_iff.mp h
  exact ⟨s, hs, hamt⟩

theorem remove_missing_iff_twoAdds : ∃ s, book.run empty twoAdds = some s ∧
    (Unchanged zeroMem (-1) s ↔ (0 : ℤ) ≤ -1 ∨ s.amt = 0) ∧
      ((-1 : ℤ) < 0 → 0 < s.amt → remove_sub zeroMem (-1) s = remove_sub zeroMem 0 s) := by
  obtain ⟨s, hs, -⟩ := twoAdds_runs
  exact ⟨s, hs, remove_missing_iff zeroMem (-1) s (System.Reachable.of_run rfl hs) (.inl (by decide))⟩

/-- The number -1 removes a record. -/
theorem minus_one_removes : ¬ ∀ (mem : ℕ → Record) (id_r : ℤ) (s : Book), book.Reachable s →
    (id_r < 0 ∨ s.amt ≤ id_r) → Unchanged mem id_r s := by
  intro h
  obtain ⟨s, hs, hamt⟩ := twoAdds_runs
  have hr : book.Reachable s := System.Reachable.of_run rfl hs
  obtain ⟨rep, t, ht, hsame, -⟩ := h zeroMem (-1) s hr (.inl (by decide))
  obtain ⟨rep', t', ht', -, hcase⟩ := consistent_remove zeroMem (-1) (consistent_reachable hr)
  rw [ht] at ht'
  cases ht'
  rcases hcase with ⟨-, -, -, hless⟩ | ⟨hmiss, -⟩
  · omega
  · omega

end Phonebook
end Autumn
