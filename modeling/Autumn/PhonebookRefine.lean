/-
# The phone book and the list it stands for

`contents` is what a phone book is for: adding appends an entry, removing
deletes the entry at the index. `Refines s l` says that the records
`0 .. amt - 1` are the entries of `l`, each with its position as its id.

`add_sub` refines the append (`add_refines`). `remove_sub` does not refine the
deletion: the records before the deleted one get the phone number of the
record after them, so it refines `rebuilt` (`remove_refines`), which is the
deletion exactly when the numbers up to the deleted entry are all one number
(`rebuilt_eq_eraseIdx_iff`). So a session keeps the book right exactly when
each of its removals meets that condition (`tracks_iff`).

Key definitions: `contents`, `Refines`, `rebuilt`, `SameNumbers`, `Tracks`.
Key theorems: `add_refines`, `remove_refines`, `search_prints`, `show_prints`,
`tracks_iff`.
-/
import Mathlib.Data.List.Zip
import Mathlib.Data.List.Induction
import Autumn.Lib.Loop
import Autumn.Phonebook

namespace Autumn
namespace Phonebook

/-! ### The list a session stands for -/

/-- Adding appends; removing deletes at the index. -/
def listStep (l : List Entry) : Op → List Entry
  | .add _ name surname number => l ++ [⟨name, surname, number⟩]
  | .remove _ id_r => l.eraseIdx id_r.toNat

/-- The list after the operations, from the empty one. -/
def contents (ops : List Op) : List Entry := ops.foldl listStep []

theorem contents_concat (ops : List Op) (op : Op) :
    contents (ops ++ [op]) = listStep (contents ops) op := by
  simp [contents]

/-- The words typed fit, or the number typed is an index of the list. -/
def Valid (l : List Entry) : Op → Prop
  | .add _ name surname number => Entry.Fits ⟨name, surname, number⟩
  | .remove _ id_r => 0 ≤ id_r ∧ id_r < l.length

/-- Every operation of the session is valid where it is done. -/
def ValidSession (ops : List Op) : Prop :=
  ∀ p op, p ++ [op] <+: ops → Valid (contents p) op

/-- The entries up to index `k` have one phone number. -/
def SameNumbers (l : List Entry) (k : ℤ) : Prop :=
  ∀ (i : ℕ) (e e' : Entry), (i : ℤ) < k → l[i]? = some e → l[i + 1]? = some e' → e.number = e'.number

/-- Every removal of the session is at an index up to which the entries have
one phone number. -/
def RemovesSame (ops : List Op) : Prop :=
  ∀ p mem id_r, p ++ [.remove mem id_r] <+: ops → SameNumbers (contents p) id_r

theorem validSession_nil : ValidSession [] := fun p op h => by simp at h

theorem validSession_concat {ops : List Op} {op : Op} :
    ValidSession (ops ++ [op]) ↔ ValidSession ops ∧ Valid (contents ops) op := by
  constructor
  · exact fun h => ⟨fun p q hq => h p q (hq.trans (List.prefix_append _ _)), h ops op (List.prefix_refl _)⟩
  · rintro ⟨h, hop⟩ p q hq
    rcases List.prefix_concat_iff.mp hq with hq | hq
    · obtain ⟨hp, hq⟩ := List.append_inj' hq rfl
      rw [hp, List.singleton_inj.mp hq]; exact hop
    · exact h p q hq

theorem removesSame_of_concat {ops : List Op} {op : Op} (h : RemovesSame (ops ++ [op])) :
    RemovesSame ops :=
  fun p mem id_r hp => h p mem id_r (hp.trans (List.prefix_append _ _))

/-! ### Records that hold a list -/

/-- The records of the block are the entries of the list, in order. -/
structure Refines (s : Book) (l : List Entry) : Prop where
  amt : s.amt = l.length
  recs : ∀ (i : ℕ) (e : Entry), l[i]? = some e → ∃ r, s.subs[i]? = some r ∧ r.Holds i e
  fits : ∀ e ∈ l, e.Fits

theorem get_natCast (subs : List Record) (i : ℕ) : get subs i = subs[i]? := by simp [get]

theorem refines_empty : Refines empty [] :=
  ⟨rfl, fun i e h => by simp at h, fun e h => by simp at h⟩

theorem Refines.get {s : Book} {l : List Entry} (h : Refines s l) {i : ℕ} {e : Entry}
    (hi : l[i]? = some e) : ∃ r, Phonebook.get s.subs i = some r ∧ r.Holds i e := by
  rw [get_natCast]
  exact h.recs i e hi

theorem grown_spec (mem : ℕ → Record) {s : Book} {k : ℕ} (h : s.amt = k) :
    (∃ r, (grown mem s)[k]? = some r) ∧
    ∀ i r, i < k → s.subs[i]? = some r → (grown mem s)[i]? = some r := by
  unfold grown
  rw [h]
  rcases Nat.eq_zero_or_pos k with h0 | hpos
  · rw [h0]
    exact ⟨⟨mem 0, rfl⟩, fun i r hi => absurd hi (Nat.not_lt_zero i)⟩
  · have hne : ¬ (k : ℤ) = 0 := by omega
    have hgt : (k : ℤ) > 0 := by omega
    have hk : ((k : ℤ) + 1).toNat = k + 1 := by omega
    simp only [hne, hgt, ↓reduceIte, realloc, hk]
    refine ⟨⟨s.subs.getD k (mem k), by simp⟩, fun i r hi hr => ?_⟩
    have hlt : i < k + 1 := by omega
    simp [hlt, List.getD_eq_getElem?_getD, hr]

theorem add_refines (mem : ℕ → Record) {s : Book} {l : List Entry} {e : Entry} (h : Refines s l)
    (he : e.Fits) : ∃ s', add_sub mem e.name e.surname e.number s = some s' ∧ Refines s' (l ++ [e]) := by
  obtain ⟨⟨r, hr⟩, hold⟩ := grown_spec mem h.amt
  obtain ⟨r1, r2, r3, h1, h2, h3, -, e1, e2, e3⟩ := r.fill_spec he
  have hlt : l.length < (grown mem s).length := (List.getElem?_eq_some_iff.mp hr).1
  refine ⟨⟨(grown mem s).set l.length { r3 with id := l.length }, l.length + 1⟩, ?_, ?_, ?_, ?_⟩
  · rw [add_sub, h.amt]
    simp [get_natCast, hr, h1, h2, h3]
  · simp
  · intro i e' hi
    by_cases hil : i < l.length
    · rw [List.getElem?_append_left hil] at hi
      obtain ⟨r', hr', hh⟩ := h.recs i e' hi
      exact ⟨r', by simp [List.getElem?_set_ne (Nat.ne_of_gt hil), hold i r' hil hr'], hh⟩
    · have hlen : i < l.length + 1 := by simpa using (List.getElem?_eq_some_iff.mp hi).1
      obtain rfl : i = l.length := by omega
      simp only [List.getElem?_concat_length, Option.some.injEq] at hi
      subst hi
      refine ⟨{ r3 with id := l.length }, by simp [hlt], ?_⟩
      exact ⟨rfl, e1, e2, e3⟩
  · intro e' he'
    rcases List.mem_append.mp he' with he' | he'
    · exact h.fits e' he'
    · rw [List.mem_singleton.mp he']; exact he

/-! ### What `remove_sub` does -/

/-- The entry that `remove_sub` puts at index `i`, from the entries that were
at `i` and `i + 1`. -/
def copied (id_r : ℤ) (i : ℕ) (e next : Entry) : Entry :=
  if (i : ℤ) ≥ id_r then next else { e with number := next.number }

/-- The list that `remove_sub` leaves. -/
def rebuilt (l : List Entry) (id_r : ℤ) : List Entry :=
  if id_r > l.length - 1 then l
  else (l.zip l.tail).zipIdx.map fun p => copied id_r p.2 p.1.1 p.1.2

theorem copied_fits {id_r : ℤ} {i : ℕ} {e next : Entry} (h1 : e.Fits) (h2 : next.Fits) :
    (copied id_r i e next).Fits := by
  unfold copied
  split
  · exact h2
  · exact ⟨h1.1, h1.2, h1.3, h1.4, h2.5, h2.6⟩

/-- One pass of the loop: `new_subs[i]` gets the copied entry. -/
theorem copyOne_spec {s : Book} {l : List Entry} (h : Refines s l) (id_r : ℤ) {new_subs : List Record}
    {i : ℕ} {e next : Entry} (hi : l[i]? = some e) (hn : l[i + 1]? = some next)
    (hlen : i < new_subs.length) : ∃ r, copyOne s.subs id_r new_subs i = some (new_subs.set i r) ∧
      r.Holds i (copied id_r i e next) := by
  obtain ⟨this, hthis, ht⟩ := h.get hi
  obtain ⟨nx, hnx, hx⟩ := h.get hn
  have hi1 : get s.subs ((i : ℤ) + 1) = some nx := by exact_mod_cast hnx
  have hnew : get new_subs i = some new_subs[i] := by rw [get_natCast]; exact List.getElem?_eq_getElem hlen
  have hfit : (copied id_r i e next).Fits :=
    copied_fits (h.fits e (List.mem_of_getElem? hi)) (h.fits next (List.mem_of_getElem? hn))
  obtain ⟨r1, r2, r3, h1, h2, h3, hid, e1, e2, e3⟩ := ({ new_subs[i] with id := i } : Record).fill_spec hfit
  refine ⟨r3, ?_, hid, e1, e2, e3⟩
  unfold copied at h1 h2 h3
  by_cases hge : (i : ℤ) ≥ id_r
  · rw [if_pos hge] at h1 h2 h3
    simp [copyOne, hnew, hge, hi1, hx.name, hx.surname, hx.number, h1, h2, h3]
  · rw [if_neg hge] at h1 h2 h3
    simp [copyOne, hnew, hge, hi1, hthis, ht.name, ht.surname, hx.number, h1, h2, h3]

theorem rebuilt_of_le {l : List Entry} {id_r : ℤ} (h : id_r ≤ l.length - 1) :
    rebuilt l id_r = (l.zip l.tail).zipIdx.map fun p => copied id_r p.2 p.1.1 p.1.2 := by
  rw [rebuilt, if_neg (by omega)]

theorem length_rebuilt {l : List Entry} {id_r : ℤ} (h : id_r ≤ l.length - 1) :
    (rebuilt l id_r).length = l.length - 1 := by
  rw [rebuilt_of_le h]
  simp

/-- The entry at index `i` comes from those at `i` and `i + 1`. -/
theorem rebuilt_getElem? {l : List Entry} {id_r : ℤ} (h : id_r ≤ l.length - 1) {i : ℕ} {e next : Entry}
    (hi : l[i]? = some e) (hn : l[i + 1]? = some next) :
    (rebuilt l id_r)[i]? = some (copied id_r i e next) := by
  have hzip : (l.zip l.tail)[i]? = some (e, next) := by
    rw [List.getElem?_zip_eq_some]
    exact ⟨hi, by rw [List.getElem?_tail]; exact hn⟩
  rw [rebuilt_of_le h]
  simp [hzip]

theorem exists_pair {l : List Entry} {i : ℕ} (h : i < l.length - 1) :
    ∃ e next, l[i]? = some e ∧ l[i + 1]? = some next :=
  ⟨l[i], l[i + 1], List.getElem?_eq_getElem (by omega), List.getElem?_eq_getElem (by omega)⟩

/-- `remove_sub` leaves the list `rebuilt`, for every number typed. -/
theorem remove_refines (mem : ℕ → Record) (id_r : ℤ) {s : Book} {l : List Entry} (h : Refines s l) :
    ∃ rep s', remove_sub mem id_r s = some (rep, s') ∧ Refines s' (rebuilt l id_r) := by
  unfold remove_sub
  rw [h.amt]
  by_cases hpos : (l.length : ℤ) > 0
  · by_cases hbig : id_r > (l.length : ℤ) - 1
    · rw [if_pos hpos, if_pos hbig, rebuilt, if_pos hbig]
      exact ⟨_, _, rfl, h⟩
    · have hle : id_r ≤ (l.length : ℤ) - 1 := by omega
      have hn : ((l.length : ℤ) - 1).toNat = l.length - 1 := by omega
      -- after `i` passes the first `i` records are those of the rebuilt list
      obtain ⟨ns, hns, hlen, hrec⟩ := foldlM_range (f := copyOne s.subs id_r) (n := l.length - 1)
        (s := malloc mem (l.length - 1))
        (fun i ns => ns.length = l.length - 1 ∧
          ∀ k e, k < i → (rebuilt l id_r)[k]? = some e → ∃ r, ns[k]? = some r ∧ r.Holds k e)
        ⟨by simp [malloc], fun k e hk => absurd hk (Nat.not_lt_zero k)⟩
        (fun i ns hi ⟨hlen, hrec⟩ => by
          obtain ⟨e, next, he, hnx⟩ := exists_pair hi
          obtain ⟨r, hr, hh⟩ := copyOne_spec h id_r he hnx (show i < ns.length by omega)
          refine ⟨ns.set i r, hr, by simpa using hlen, fun k e' hk hke => ?_⟩
          by_cases hki : k = i
          · subst hki
            rw [rebuilt_getElem? hle he hnx] at hke
            cases hke
            exact ⟨r, List.getElem?_set_self (by omega), hh⟩
          · rw [List.getElem?_set_ne (Ne.symm hki)]
            exact hrec k e' (by omega) hke)
      rw [if_pos hpos, if_neg hbig, hn]
      refine ⟨.removed, ⟨ns, l.length - 1⟩, by simp [hns], ?_, fun i e hi => ?_, fun e he => ?_⟩
      · rw [length_rebuilt hle]; show (l.length : ℤ) - 1 = _; omega
      · exact hrec i e (by have := (List.getElem?_eq_some_iff.mp hi).1; rwa [length_rebuilt hle] at this) hi
      · obtain ⟨i, hi⟩ := List.mem_iff_getElem?.mp he
        have hlt := (List.getElem?_eq_some_iff.mp hi).1
        rw [length_rebuilt hle] at hlt
        obtain ⟨e1, e2, he1, he2⟩ := exists_pair hlt
        rw [rebuilt_getElem? hle he1 he2] at hi
        cases hi
        exact copied_fits (h.fits e1 (List.mem_of_getElem? he1)) (h.fits e2 (List.mem_of_getElem? he2))
  · have hnil : l = [] := List.length_eq_zero_iff.mp (by omega)
    subst hnil
    rw [if_neg hpos]
    refine ⟨_, _, rfl, ?_⟩
    have : rebuilt [] id_r = [] := by unfold rebuilt; split <;> rfl
    rw [this]; exact h

/-- The rebuilt list is the list without the entry exactly when the entries up
to it have one phone number. -/
theorem rebuilt_eq_eraseIdx_iff {l : List Entry} {id_r : ℤ} (h0 : 0 ≤ id_r) (h1 : id_r < l.length) :
    rebuilt l id_r = l.eraseIdx id_r.toNat ↔ SameNumbers l id_r := by
  have hle : id_r ≤ (l.length : ℤ) - 1 := by omega
  have hk : id_r.toNat < l.length := by omega
  constructor
  · intro heq i e e' hik hi hn
    have hr := rebuilt_getElem? hle hi hn
    rw [heq, List.getElem?_eraseIdx_of_lt (by omega : i < id_r.toNat), hi] at hr
    rw [copied, if_neg (by omega)] at hr
    have hnum := congrArg Entry.number (Option.some.inj hr)
    exact hnum
  · intro hsame
    apply List.ext_getElem?
    intro i
    by_cases hi : i < l.length - 1
    · obtain ⟨e, e', he, he'⟩ := exists_pair hi
      rw [rebuilt_getElem? hle he he', copied]
      by_cases hik : (i : ℤ) ≥ id_r
      · rw [if_pos hik, List.getElem?_eraseIdx_of_ge (by omega), he']
      · rw [if_neg hik, List.getElem?_eraseIdx_of_lt (by omega), he, ← hsame i e e' (by omega) he he']
    · rw [List.getElem?_eq_none (by rw [length_rebuilt hle]; omega),
        List.getElem?_eq_none (by rw [List.length_eraseIdx_of_lt hk]; omega)]

/-! ### What is printed -/

theorem search_prints (mem : Buf UInt8 16) {n : List UInt8} (hn0 : 0 ∉ n) (hn : n.length ≤ 15)
    {s : Book} {l : List Entry} (h : Refines s l) :
    sub_search mem n s = some (if l = [] then [.noRecords] else
      (l.filter (·.number = n)).map fun e => .found e.surname e.name e.number) := by
  unfold sub_search
  rw [h.amt]
  by_cases hnil : l = []
  · simp [hnil]
  have hpos : 0 < l.length := List.length_pos_iff.mpr hnil
  have h0 : ¬ (l.length : ℤ) = 0 := by omega
  have h1 : (l.length : ℤ) > 0 := by omega
  obtain ⟨b, hb, hstr, -⟩ := mem.put_spec hn0 (by omega)
  obtain ⟨out, hout, hP⟩ := foldlM_range (n := l.length) (s := ([] : List Printed))
    (f := fun out (i : ℕ) => do
      let r ← get s.subs i
      if (← r.read numberAt) = b.str then
        some (out ++ [.found (← r.read surnameAt) (← r.read nameAt) (← r.read numberAt)])
      else some out)
    (fun i out => out = ((l.take i).filter (·.number = n)).map fun e => .found e.surname e.name e.number)
    (by simp) (fun i out hi hP => by
      obtain ⟨r, hr, hh⟩ := h.get (List.getElem?_eq_getElem hi)
      subst hP
      rw [List.take_succ_eq_append_getElem hi, List.filter_append, List.map_append]
      by_cases hnum : l[i].number = n <;>
        simp [hr, hh.name, hh.surname, hh.number, hstr, hnum])
  rw [if_neg h0, if_pos h1, if_neg hnil, hb]
  simp only [List.take_length] at hP
  rw [← hP]
  simpa using hout

theorem show_prints {s : Book} {l : List Entry} (h : Refines s l) :
    show_phonebook s = some (if l = [] then [.noRecords] else
      .allRecords :: l.zipIdx.map fun p => .shown p.2 p.1.surname p.1.name p.1.number) := by
  unfold show_phonebook
  rw [h.amt]
  by_cases hnil : l = []
  · simp [hnil]
  have hpos : 0 < l.length := List.length_pos_iff.mpr hnil
  have h0 : ¬ (l.length : ℤ) = 0 := by omega
  have h1 : (l.length : ℤ) > 0 := by omega
  obtain ⟨out, hout, hP⟩ := foldlM_range (n := l.length) (s := [Printed.allRecords])
    (f := fun out (i : ℕ) => do
      let r ← get s.subs i
      some (out ++ [.shown r.id (← r.read surnameAt) (← r.read nameAt) (← r.read numberAt)]))
    (fun i out => out = .allRecords :: (l.take i).zipIdx.map fun p =>
      .shown p.2 p.1.surname p.1.name p.1.number)
    (by simp) (fun i out hi hP => by
      obtain ⟨r, hr, hh⟩ := h.get (List.getElem?_eq_getElem hi)
      subst hP
      have hlen : (l.take i).length = i := by simp; omega
      rw [List.take_succ_eq_append_getElem hi, List.zipIdx_append, hlen]
      simp [hr, hh.name, hh.surname, hh.number, hh.id])
  rw [if_neg h0, if_pos h1, if_neg hnil]
  simp only [List.take_length] at hP
  rw [← hP]
  simpa using hout

/-! ### Sessions -/

/-- The book is the list: the records are its entries, and what `sub_search`
and `show_phonebook` print is the list's. -/
structure Shows (s : Book) (l : List Entry) : Prop where
  amt : s.amt = l.length
  recs : ∀ (i : ℕ) (e : Entry), l[i]? = some e → ∃ r, s.subs[i]? = some r ∧ r.Holds i e
  search : ∀ mem n, 0 ∉ n → n.length ≤ 15 → sub_search mem n s =
    some (if l = [] then [.noRecords] else
      (l.filter (·.number = n)).map fun e => .found e.surname e.name e.number)
  all : show_phonebook s = some (if l = [] then [.noRecords] else
    .allRecords :: l.zipIdx.map fun p => .shown p.2 p.1.surname p.1.name p.1.number)

theorem Refines.shows {s : Book} {l : List Entry} (h : Refines s l) : Shows s l :=
  ⟨h.amt, h.recs, fun mem _ hn0 hn => search_prints mem hn0 hn h, show_prints h⟩

/-- After every operation of the session the book is the session's list. -/
def Tracks (ops : List Op) : Prop :=
  ∀ p, p <+: ops → ∃ s, book.run empty p = some s ∧ Shows s (contents p)

theorem Record.Holds.unique {r : Record} {i : ℕ} {e e' : Entry} (h : r.Holds i e) (h' : r.Holds i e') :
    e = e' := by
  have h1 := Option.some.inj (h.name.symm.trans h'.name)
  have h2 := Option.some.inj (h.surname.symm.trans h'.surname)
  have h3 := Option.some.inj (h.number.symm.trans h'.number)
  cases e; cases e'; simp_all

theorem Shows.unique {s : Book} {l l' : List Entry} (h : Refines s l) (h' : Shows s l') : l = l' := by
  have hlen : l.length = l'.length := by have := h.amt.symm.trans h'.amt; omega
  apply List.ext_getElem hlen
  intro i hi hi'
  obtain ⟨r, hr, hh⟩ := h.recs i _ (List.getElem?_eq_getElem hi)
  obtain ⟨r', hr', hh'⟩ := h'.recs i _ (List.getElem?_eq_getElem hi')
  rw [hr] at hr'
  cases hr'
  exact hh.unique hh'

theorem contents_fits (ops : List Op) (hv : ValidSession ops) : ∀ e ∈ contents ops, e.Fits := by
  induction ops using List.reverseRecOn with
  | nil => simp [contents]
  | append_singleton p op ih =>
    obtain ⟨hv, hvalid⟩ := validSession_concat.mp hv
    have hp := ih hv
    intro e he
    rw [contents_concat] at he
    cases op with
    | add mem name surname number =>
      rcases List.mem_append.mp he with he | he
      · exact hp e he
      · rw [List.mem_singleton.mp he]; exact hvalid
    | remove mem id_r => exact hp e (List.mem_of_mem_eraseIdx he)

/-- A session whose removals meet the condition keeps the book refining its
list. -/
theorem refines_of_removesSame (ops : List Op) (hv : ValidSession ops) (hc : RemovesSame ops) :
    ∃ s, book.run empty ops = some s ∧ Refines s (contents ops) := by
  induction ops using List.reverseRecOn with
  | nil => exact ⟨empty, rfl, refines_empty⟩
  | append_singleton p op ih =>
    obtain ⟨hv, hvalid⟩ := validSession_concat.mp hv
    obtain ⟨s, hs, href⟩ := ih hv (removesSame_of_concat hc)
    rw [System.run_concat, hs, contents_concat]
    cases op with
    | add mem name surname number => exact add_refines mem (e := ⟨name, surname, number⟩) href hvalid
    | remove mem id_r =>
      obtain ⟨rep, s', hs', href'⟩ := remove_refines mem id_r href
      rw [(rebuilt_eq_eraseIdx_iff hvalid.1 hvalid.2).mpr (hc p mem id_r (List.prefix_refl _))] at href'
      exact ⟨s', by simp [book, step, hs'], href'⟩

/-- **A session keeps the phone book right exactly when each of its removals
is at an index up to which the entries have one phone number.** -/
theorem tracks_iff (ops : List Op) (hv : ValidSession ops) : Tracks ops ↔ RemovesSame ops := by
  have hvp : ∀ p, p <+: ops → ValidSession p := fun p hp q op hq => hv q op (hq.trans hp)
  constructor
  · intro ht p mem id_r hp
    have hpre : p <+: ops := (List.prefix_append _ _).trans hp
    obtain ⟨s, hs, hsh⟩ := ht p hpre
    obtain ⟨s', hs', hsh'⟩ := ht _ hp
    have hvalid := hv p _ hp
    have href : Refines s (contents p) := ⟨hsh.amt, hsh.recs, contents_fits p (hvp p hpre)⟩
    -- the removal leaves the rebuilt list, and is asked to leave the shorter one
    obtain ⟨rep, t, ht', href'⟩ := remove_refines mem id_r href
    have hst : t = s' := by
      rw [System.run_concat, hs] at hs'
      simpa [book, step, ht'] using hs'
    subst hst
    have heq := Shows.unique href' hsh'
    rw [contents_concat] at heq
    exact (rebuilt_eq_eraseIdx_iff hvalid.1 hvalid.2).mp heq
  · intro hc p hp
    obtain ⟨s, hs, href⟩ := refines_of_removesSame p (hvp p hp)
      fun q mem id_r hq => hc q mem id_r (hq.trans hp)
    exact ⟨s, hs, href.shows⟩

/-! ### A session that loses a number -/

/-- New memory that holds zeros. -/
def zeroMem : ℕ → Record := fun _ => ⟨0, Buf.zeros UInt8 60⟩

/-- Two entries, `a b 1` and `c d 2`. -/
def twoAdds : List Op := [.add zeroMem [97] [98] [49], .add zeroMem [99] [100] [50]]

theorem twoAdds_valid : ValidSession twoAdds := by
  have h1 : ValidSession [.add zeroMem [97] [98] [49]] :=
    (@validSession_concat [] _).mpr ⟨validSession_nil, by constructor <;> decide⟩
  exact validSession_concat.mpr ⟨h1, by constructor <;> decide⟩

/-- Removing the second entry gives the first one its number. -/
theorem remove_takes_number : ¬ ∀ ops, ValidSession ops → Tracks ops := by
  intro h
  have hv : ValidSession (twoAdds ++ [.remove zeroMem 1]) :=
    validSession_concat.mpr ⟨twoAdds_valid, by decide, by decide⟩
  obtain ⟨s, hs, hsh⟩ := h _ hv _ (List.prefix_refl _)
  obtain ⟨r, hr, hh⟩ := hsh.recs 0 ⟨[97], [98], [49]⟩ rfl
  have hnum : (book.run empty (twoAdds ++ [.remove zeroMem 1])).bind
      (fun s => s.subs[0]?.bind (·.read numberAt)) = some [50] := by decide
  rw [hs] at hnum
  simp [hr, hh.number] at hnum

theorem removeFirst_valid : ValidSession (twoAdds ++ [.remove zeroMem 0]) :=
  validSession_concat.mpr ⟨twoAdds_valid, by decide, by decide⟩

/-- Removing the first of two entries keeps the book right. -/
theorem tracks_removeFirst : Tracks (twoAdds ++ [.remove zeroMem 0]) :=
  (tracks_iff _ removeFirst_valid).mpr fun p mem id_r hp i e e' hi _ _ => by
    rcases List.prefix_concat_iff.mp hp with hp | hp
    · have := (List.append_inj' hp rfl).2
      cases this
      omega
    · simp [twoAdds, List.prefix_cons_iff, List.append_eq_cons_iff] at hp

end Phonebook
end Autumn
