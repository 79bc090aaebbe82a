/-
# The fields of a record (`structure/struct_home.c`)

`scanf("%s", ...)` writes a word whole, whatever the size of its field: the
three words are written one after another, each over what the one before it has
written beyond its own field. So a name of more than 20 characters has its end,
from the 22nd on, and its NUL overwritten by the surname, a surname by the
number, and both are printed with what stands there now (`Entry.merged`). A word
that goes beyond the record, the last one of the block, is written outside it.

So the words are printed as typed exactly if each of the first two fits its field
or ends with the word that has been written over its end (`Apart`), and the
number stays in the record; and no later addition changes this, as long as its
own words stay in its record.

Key definitions: `Entry.merged`, `Inside`, `Apart`, `ReadsBack`.
Key theorems: `fill_merged`, `add_isSome_iff`, `show_spec`, `additions_keep`,
`reads_back_iff`.
-/
import Autumn.PhonebookStore

namespace Autumn
namespace Phonebook

/-- `char name[21]; char surname[21];` -/
def fieldSize : ℕ := 21

/-- What a field prints, when `w` has been written to it and what is behind it
prints `next`. -/
def overrun (w next : List UInt8) : List UInt8 := if w.length < fieldSize then w else w.take fieldSize ++ next

/-- What a record prints after the words of an entry have been written. -/
def Entry.merged (e : Entry) : Entry where
  name := overrun e.name (overrun e.surname e.number)
  surname := overrun e.surname e.number
  number := e.number

/-- The words of an entry, with their NULs, stay in the record. -/
structure Inside (e : Entry) : Prop where
  name : nameAt + e.name.length < 60
  surname : surnameAt + e.surname.length < 60
  number : numberAt + e.number.length < 60

/-- The words are typed: they have no NUL. -/
structure Words (e : Entry) : Prop where
  name : (0 : UInt8) ∉ e.name
  surname : (0 : UInt8) ∉ e.surname
  number : (0 : UInt8) ∉ e.number

/-- Each word fits its field, or goes on with what is written behind that. -/
structure Apart (e : Entry) : Prop where
  name : e.name.length ≤ 20 ∨ e.name.drop fieldSize = e.surname
  surname : e.surname.length ≤ 20 ∨ e.surname.drop fieldSize = e.number
  number : e.number.length ≤ 17

/-- A later addition. -/
structure Addition where
  mem : ℕ → Record
  entry : Entry

def Addition.op (c : Addition) : Op := .add c.mem c.entry.name c.entry.surname c.entry.number

/-- After the addition of `e` and the later ones, the line of its record has the
words as they were typed. -/
def ReadsBack (s : Book) (added : Addition) (later : List Addition) : Prop :=
  ∃ t out, book.run s (added.op :: later.map Addition.op) = some t ∧ show_phonebook t = some out ∧
    out[s.amt.toNat + 1]? =
      some (.shown s.amt added.entry.surname added.entry.name added.entry.number)

attribute [ext] Entry

/-! ### Three words in a record -/

theorem overrun_eq_self_iff (w next : List UInt8) :
    overrun w next = w ↔ w.length ≤ 20 ∨ w.drop fieldSize = next := by
  unfold overrun
  split
  · rename_i hlt
    exact iff_of_true rfl (.inl (Nat.le_of_lt_succ hlt))
  · rename_i hge
    rw [or_iff_right (fun hle => hge (Nat.lt_succ_of_le hle))]
    constructor
    · intro h
      exact (List.append_cancel_left (h.trans (List.take_append_drop fieldSize w).symm)).symm
    · intro h
      rw [← h, List.take_append_drop]

/-- The words are printed as typed exactly if they are apart. -/
theorem merged_eq_self_iff {e : Entry} (hnumber : e.number.length ≤ 17) : e.merged = e ↔ Apart e := by
  constructor
  · intro h
    have hsurname : overrun e.surname e.number = e.surname := congrArg Entry.surname h
    have hname : overrun e.name (overrun e.surname e.number) = e.name := congrArg Entry.name h
    rw [hsurname] at hname
    exact ⟨(overrun_eq_self_iff _ _).mp hname, (overrun_eq_self_iff _ _).mp hsurname, hnumber⟩
  · rintro ⟨hname, hsurname, -⟩
    have hsurname' : overrun e.surname e.number = e.surname := (overrun_eq_self_iff _ _).mpr hsurname
    refine Entry.ext ?_ hsurname' rfl
    show overrun e.name (overrun e.surname e.number) = e.name
    rw [hsurname']
    exact (overrun_eq_self_iff _ _).mpr hname

theorem Apart.inside {e : Entry} (h : Apart e) : Inside e := by
  obtain ⟨hname, hsurname, hnumber⟩ := h
  have hlen : ∀ {w next : List UInt8}, w.length ≤ 20 ∨ w.drop fieldSize = next → w.length ≤ 21 + next.length := by
    rintro w next (hle | rfl)
    · omega
    · rw [List.length_drop, fieldSize]
      omega
  have h1 := hlen hsurname
  have h2 := hlen hname
  constructor
  · unfold nameAt
    omega
  · unfold surnameAt
    omega
  · unfold numberAt
    omega

namespace Record

theorem cstr_field {r r' t : Record} {field : ℕ} {w : List UInt8} (hw : (0 : UInt8) ∉ w)
    (hput : r.put field w = some r')
    (hsince : (t.text.chars.drop field).take fieldSize = (r'.text.chars.drop field).take fieldSize) :
    cstr (t.text.chars.drop field) = overrun w (cstr (t.text.chars.drop (field + fieldSize))) := by
  have hdrop := Buf.drop_store (put_eq_some hput).2
  rw [List.append_assoc, List.singleton_append] at hdrop
  rw [hdrop] at hsince
  rw [cstr_of_take_eq hw hsince, List.drop_drop]
  rfl

/-- **What a record holds** after the three words have been written. -/
theorem fill_merged {r r1 r2 r3 : Record} {e : Entry} (he : Words e) (h1 : r.put nameAt e.name = some r1)
    (h2 : r1.put surnameAt e.surname = some r2) (h3 : r2.put numberAt e.number = some r3) (i : ℕ) :
    Record.Holds { r3 with id := i } i e.merged := by
  have hread : Readable r3 := readable_put h3
  have hs2 := (put_eq_some h2).2
  have hs3 := (put_eq_some h3).2
  have hnumber : cstr (r3.text.chars.drop numberAt) = e.number := Buf.cstr_drop_store he.number hs3
  have hsurname : cstr (r3.text.chars.drop surnameAt) = overrun e.surname e.number := by
    rw [cstr_field he.surname h2 (Buf.window_store hs3 le_rfl)]
    exact congrArg (overrun e.surname) hnumber
  have hname : cstr (r3.text.chars.drop nameAt) = overrun e.name (overrun e.surname e.number) := by
    have hsince := (Buf.window_store hs3 (show nameAt + fieldSize ≤ numberAt by decide)).trans
      (Buf.window_store hs2 (show nameAt + fieldSize ≤ surnameAt by decide))
    rw [cstr_field he.name h1 hsince]
    exact congrArg (overrun e.name) hsurname
  refine ⟨rfl, ?_, ?_, ?_⟩
  · exact (hread.read_eq (by decide)).trans (congrArg some hname)
  · exact (hread.read_eq (by decide)).trans (congrArg some hsurname)
  · exact (hread.read_eq le_rfl).trans (congrArg some hnumber)

theorem put_isSome_iff (r : Record) (field : ℕ) (w : List UInt8) :
    (∃ r', r.put field w = some r') ↔ field + w.length < 60 := by
  constructor
  · rintro ⟨r', h⟩
    have hle := (Buf.store_spec.mp (put_eq_some h).2).1
    rwa [List.length_append, List.length_singleton] at hle
  · exact r.exists_put field w

end Record

/-! ### Additions -/

variable {s t : Book} {mem : ℕ → Record} {e : Entry}

theorem add_isSome_iff (mem : ℕ → Record) (e : Entry) (h : Consistent s) :
    (∃ t, add_sub mem e.name e.surname e.number s = some t) ↔ Inside e := by
  obtain ⟨k, hk⟩ : ∃ k : ℕ, s.amt = k := ⟨_, h.amt⟩
  constructor
  · rintro ⟨t, hadd⟩
    obtain ⟨r, r1, r2, r3, -, h1, h2, h3, -⟩ := add_sub_eq_some hk hadd
    exact ⟨(r.put_isSome_iff _ _).mp ⟨r1, h1⟩, (r1.put_isSome_iff _ _).mp ⟨r2, h2⟩,
      (r2.put_isSome_iff _ _).mp ⟨r3, h3⟩⟩
  · rintro ⟨hname, hsurname, hnumber⟩
    obtain ⟨⟨r, hr⟩, -⟩ := grown_spec mem hk
    obtain ⟨r1, h1⟩ := r.exists_put nameAt e.name hname
    obtain ⟨r2, h2⟩ := r1.exists_put surnameAt e.surname hsurname
    obtain ⟨r3, h3⟩ := r2.exists_put numberAt e.number hnumber
    rw [← get_natCast, ← hk] at hr
    exact ⟨_, by simp only [add_sub, hr, h1, h2, h3, Option.bind_eq_bind, Option.bind_some]; rfl⟩

/-- **An addition** leaves what the three words have been merged to. -/
theorem add_merged (he : Words e) {k : ℕ} (hk : s.amt = k)
    (hadd : add_sub mem e.name e.surname e.number s = some t) : ∃ r, t.subs[k]? = some r ∧ r.Holds k e.merged := by
  obtain ⟨r, r1, r2, r3, hr, h1, h2, h3, rfl⟩ := add_sub_eq_some hk hadd
  exact ⟨_, List.getElem?_set_self (List.getElem?_eq_some_iff.mp hr).1, Record.fill_merged he h1 h2 h3 k⟩

theorem additions_isSome_iff : ∀ {later : List Addition} {s : Book}, Consistent s →
    ((∃ t, book.run s (later.map Addition.op) = some t) ↔ ∀ c ∈ later, Inside c.entry)
  | [], s, _ => iff_of_true ⟨s, rfl⟩ (by simp)
  | c :: later, s, h => by
    rw [List.map_cons, List.forall_mem_cons, ← add_isSome_iff c.mem c.entry h]
    constructor
    · rintro ⟨t, ht⟩
      obtain ⟨u, hu, ht⟩ := Option.bind_eq_some_iff.mp ht
      exact ⟨⟨u, hu⟩, (additions_isSome_iff (consistent_add h hu).1).mp ⟨t, ht⟩⟩
    · rintro ⟨⟨u, hu⟩, hlater⟩
      obtain ⟨t, ht⟩ := (additions_isSome_iff (consistent_add h hu).1).mpr hlater
      exact ⟨t, Option.bind_eq_some_iff.mpr ⟨u, hu, ht⟩⟩

/-- **Later additions** keep the records that are there. -/
theorem additions_keep : ∀ {later : List Addition} {s t : Book}, Consistent s →
    book.run s (later.map Addition.op) = some t → Consistent t ∧ s.amt ≤ t.amt ∧
      ∀ (i : ℕ) (r : Record), (i : ℤ) < s.amt → s.subs[i]? = some r → t.subs[i]? = some r
  | [], s, t, h, ht => by
    cases ht
    exact ⟨h, le_rfl, fun i r _ hr => hr⟩
  | c :: later, s, t, h, ht => by
    obtain ⟨u, hu, ht⟩ := Option.bind_eq_some_iff.mp ht
    have hadd : add_sub c.mem c.entry.name c.entry.surname c.entry.number s = some u := hu
    obtain ⟨hc, hamt⟩ := consistent_add h hadd
    obtain ⟨hct, hle, hkeep⟩ := additions_keep hc ht
    refine ⟨hct, by omega, fun i r hi hr => hkeep i r (by omega) ?_⟩
    have hamt' := h.amt
    exact add_keeps hamt' hadd (by omega) hr

/-! ### Printing -/

/-- The line of a record. -/
def Record.line (r : Record) : Printed :=
  .shown r.id (cstr (r.text.chars.drop surnameAt)) (cstr (r.text.chars.drop nameAt))
    (cstr (r.text.chars.drop numberAt))

theorem Record.Holds.line {r : Record} {i : ℕ} (h : r.Holds i e) (hr : Readable r) :
    r.line = .shown i e.surname e.name e.number := by
  have hname := (hr.read_eq (by decide)).symm.trans h.name
  have hsurname := (hr.read_eq (by decide)).symm.trans h.surname
  have hnumber := (hr.read_eq le_rfl).symm.trans h.number
  rw [Record.line, h.id, Option.some.inj hname, Option.some.inj hsurname, Option.some.inj hnumber]

/-- **Printing** a book that is not empty gives a line for each record. -/
theorem show_spec (h : Consistent s) (hpos : 0 < s.amt) :
    show_phonebook s = some (.allRecords :: (s.subs.take s.amt.toNat).map Record.line) := by
  obtain ⟨out, hout, hP⟩ := foldlM_range (n := s.amt.toNat) (s := [Printed.allRecords])
    (f := fun out (i : ℕ) => do
      let r ← Phonebook.get s.subs i
      some (out ++ [.shown r.id (← r.read surnameAt) (← r.read nameAt) (← r.read numberAt)]))
    (fun i out => out = .allRecords :: (s.subs.take i).map Record.line) rfl (fun i out hi hP => by
      obtain ⟨r, hr, -, hread⟩ := h.recs i (by omega)
      refine ⟨_, ?_, rfl⟩
      rw [List.take_add_one, hr, Option.toList_some, List.map_append, ← List.cons_append, ← hP, get_natCast, hr]
      simp only [Option.bind_eq_bind, Option.bind_some, hread.read_eq (show surnameAt ≤ numberAt by decide),
        hread.read_eq (show nameAt ≤ numberAt by decide), hread.read_eq (le_refl numberAt)]
      rfl)
  rw [← hP, show_phonebook, if_neg (by omega), if_pos hpos]
  exact hout

theorem show_getElem? (h : Consistent s) {i : ℕ} (hi : (i : ℤ) < s.amt) : ∃ r out, s.subs[i]? = some r ∧
    Readable r ∧ show_phonebook s = some out ∧ out[i + 1]? = some r.line := by
  obtain ⟨r, hr, -, hread⟩ := h.recs i hi
  refine ⟨r, _, hr, hread, show_spec h (by omega), ?_⟩
  rw [List.getElem?_cons_succ, List.getElem?_map, List.getElem?_take_of_lt (by omega), hr, Option.map_some]

/-! ### Reading back -/

theorem prints_merged (hc : Consistent s) {added : Addition} (hwords : Words added.entry) {later : List Addition}
    (ht : book.run s (added.op :: later.map Addition.op) = some t) : ∃ out, show_phonebook t = some out ∧
      out[s.amt.toNat + 1]? =
        some (.shown s.amt added.entry.merged.surname added.entry.merged.name added.entry.merged.number) := by
  obtain ⟨k, hk⟩ : ∃ k : ℕ, s.amt = k := ⟨_, hc.amt⟩
  obtain ⟨u, hu, ht⟩ := Option.bind_eq_some_iff.mp ht
  have hadd : add_sub added.mem added.entry.name added.entry.surname added.entry.number s = some u := hu
  obtain ⟨hcu, hamt⟩ := consistent_add hc hadd
  obtain ⟨hct, hle, hkeep⟩ := additions_keep hcu ht
  obtain ⟨r, hr, hholds⟩ := add_merged hwords hk hadd
  obtain ⟨r', out, hr', hread, hout, hget⟩ := show_getElem? hct (i := k) (by omega)
  rw [hkeep k r (by omega) hr] at hr'
  cases hr'
  refine ⟨out, hout, ?_⟩
  rw [hk, Int.toNat_natCast, hget, hholds.line hread]

theorem reads_back_iff_merged (hc : Consistent s) {added : Addition} (hwords : Words added.entry)
    (later : List Addition) :
    ReadsBack s added later ↔ added.entry.merged = added.entry ∧ ∀ c ∈ added :: later, Inside c.entry := by
  rw [← additions_isSome_iff hc]
  constructor
  · rintro ⟨t, out, ht, hout, hget⟩
    obtain ⟨out', hout', hget'⟩ := prints_merged hc hwords ht
    rw [hout] at hout'
    cases hout'
    rw [hget', Option.some.injEq, Printed.shown.injEq] at hget
    obtain ⟨-, hsurname, hname, hnumber⟩ := hget
    exact ⟨Entry.ext hname hsurname hnumber, t, ht⟩
  · rintro ⟨hmerged, t, ht⟩
    obtain ⟨out, hout, hget⟩ := prints_merged hc hwords ht
    rw [hmerged] at hget
    exact ⟨t, out, ht, hout, hget⟩

/-- **The words are read back as typed**, after the addition and any later ones,
exactly if they are apart and all words stay in their records. -/
theorem reads_back_iff (s : Book) (hs : book.Reachable s) (added : Addition) (hwords : Words added.entry)
    (later : List Addition) :
    ReadsBack s added later ↔ Apart added.entry ∧ ∀ c ∈ later, Inside c.entry := by
  rw [reads_back_iff_merged (consistent_reachable hs) hwords, List.forall_mem_cons, ← and_assoc]
  apply and_congr_left'
  constructor
  · rintro ⟨hmerged, hinside⟩
    have hnumber := hinside.number
    unfold numberAt at hnumber
    exact (merged_eq_self_iff (by omega)).mp hmerged
  · intro hapart
    exact ⟨(merged_eq_self_iff hapart.number).mpr hapart, hapart.inside⟩

/-- The words `a b 1`. -/
def ab : Addition := ⟨zeroMem, [97], [98], [49]⟩

/-- They are read back after another addition. -/
theorem reads_back_ab : ReadsBack empty ab [ab] :=
  (reads_back_iff empty (.init rfl) ab ⟨by decide, by decide, by decide⟩ [ab]).mpr
    ⟨⟨.inl (by decide), .inl (by decide), by decide⟩, by
      rw [List.forall_mem_singleton]
      exact ⟨by decide, by decide, by decide⟩⟩

/-- A name of 21 letters. -/
def longName : Addition := ⟨zeroMem, List.replicate 21 97, [98], [49]⟩

/-- **A name of 21 letters** is printed with the surname behind it. -/
theorem not_reads_back_longName : ¬ ReadsBack empty longName [] := by
  rw [reads_back_iff_merged consistent_empty ⟨by decide, by decide, by decide⟩]
  exact fun h => absurd (congrArg Entry.name h.1) (by decide)

end Phonebook
end Autumn
