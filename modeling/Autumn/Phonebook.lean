/-
# The phone book (`structure/struct_home.c`)

`subs` is a heap block of `struct phonebook` records and `amt` their number.
A record is its `id` and the 60 characters that follow it in memory: the
fields `name[21]`, `surname[21]` and `number[16]` and two characters of
padding. `scanf("%s", ...)` and `strcpy` write a string with its NUL from a
field's start on, whatever the field's size; a write past the record, or an
index outside the block, gives `none`.

New memory (`malloc`, the part `realloc` adds, the local array of
`sub_search`) holds anything: its contents are an argument, `mem`.

Key definitions: `Record`, `Book`, `add_sub`, `remove_sub`, `sub_search`,
`show_phonebook`, `book`.
Key theorems: `Record.fill_spec`.
-/
import Autumn.Lib.CString
import Autumn.Lib.System

namespace Autumn
namespace Phonebook

/-! ### Records -/

/-- One `struct phonebook`: the `id`, and the characters after it. -/
structure Record where
  id : ℤ
  text : Buf UInt8 60
  deriving DecidableEq

/-- Where the fields start in `text`. -/
def nameAt : ℕ := 0
def surnameAt : ℕ := 21
def numberAt : ℕ := 42

namespace Record

/-- `scanf("%s", r.field)` of the word `w`, or `strcpy(r.field, w)`. -/
def put (r : Record) (field : ℕ) (w : List UInt8) : Option Record :=
  (r.text.store field (w ++ [0])).map fun t => { r with text := t }

/-- The string in a field, as `printf("%s")`, `strcmp` and `strcpy` read it. -/
def read (r : Record) (field : ℕ) : Option (List UInt8) :=
  if 0 ∈ r.text.chars.drop field then some (cstr (r.text.chars.drop field)) else none

end Record

/-- The records of a block, by index. -/
def get (subs : List Record) (i : ℤ) : Option Record := if 0 ≤ i then subs[i.toNat]? else none

/-- A block of `k` new records. -/
def malloc (mem : ℕ → Record) (k : ℤ) : List Record := (List.range k.toNat).map mem

/-- The block with room for `k` records: the old ones that fit, then new ones. -/
def realloc (mem : ℕ → Record) (subs : List Record) (k : ℤ) : List Record :=
  (List.range k.toNat).map fun i => subs.getD i (mem i)

/-! ### The operations -/

/-- The globals. -/
structure Book where
  subs : List Record
  amt : ℤ

/-- The block `add_sub` writes to: a new one for the first record, the old one
with room for one more else. -/
def grown (mem : ℕ → Record) (s : Book) : List Record :=
  let subs := if s.amt = 0 then malloc mem 1 else s.subs
  if s.amt > 0 then realloc mem subs (s.amt + 1) else subs

/-- `add_sub` with the three words typed. -/
def add_sub (mem : ℕ → Record) (name surname number : List UInt8) (s : Book) : Option Book := do
  let subs := grown mem s
  let r ← get subs s.amt
  let r ← r.put nameAt name
  let r ← r.put surnameAt surname
  let r ← r.put numberAt number
  some ⟨subs.set s.amt.toNat { r with id := s.amt }, s.amt + 1⟩

/-- One pass of the loop of `remove_sub`: `new_subs[i]` gets `i` and the
fields of one of the old records. -/
def copyOne (subs : List Record) (id_r : ℤ) (new_subs : List Record) (i : ℕ) : Option (List Record) := do
  let r ← get new_subs i
  let r := { r with id := i }
  if (i : ℤ) ≥ id_r then
    let next ← get subs (i + 1)
    let r ← r.put nameAt (← next.read nameAt)
    let r ← r.put surnameAt (← next.read surnameAt)
    let r ← r.put numberAt (← next.read numberAt)
    some (new_subs.set i r)
  else
    -- the number comes from the record after the one the names come from
    let this ← get subs i
    let next ← get subs (i + 1)
    let r ← r.put nameAt (← this.read nameAt)
    let r ← r.put surnameAt (← this.read surnameAt)
    let r ← r.put numberAt (← next.read numberAt)
    some (new_subs.set i r)

/-- What `remove_sub` prints: there is no record, there is none with this
number, the record is removed. -/
inductive Report
  | noRecords
  | noSuchRecord
  | removed
  deriving DecidableEq, Repr

/-- `remove_sub`, when `scanf` has stored `id_r`: an integer that fits an `int`. -/
def remove_sub (mem : ℕ → Record) (id_r : ℤ) (s : Book) : Option (Report × Book) :=
  if s.amt > 0 then
    if id_r > s.amt - 1 then some (.noSuchRecord, s)
    else do
      let new_subs ← (List.range (s.amt - 1).toNat).foldlM (copyOne s.subs id_r) (malloc mem (s.amt - 1))
      some (.removed, ⟨new_subs, s.amt - 1⟩)
  else some (.noRecords, s)

/-- What the two printing functions print. -/
inductive Printed
  | noRecords
  | allRecords
  | found (surname name number : List UInt8)
  | shown (id : ℤ) (surname name number : List UInt8)
  deriving DecidableEq

/-- `sub_search` with the number typed into the local array `mem`. -/
def sub_search (mem : Buf UInt8 16) (typed : List UInt8) (s : Book) : Option (List Printed) :=
  if s.amt = 0 then some [.noRecords]
  else if s.amt > 0 then do
    let sought_number ← mem.put typed
    (List.range s.amt.toNat).foldlM (fun out (i : ℕ) => do
      let r ← get s.subs i
      if (← r.read numberAt) = sought_number.str then
        some (out ++ [.found (← r.read surnameAt) (← r.read nameAt) (← r.read numberAt)])
      else some out) []
  else some []

def show_phonebook (s : Book) : Option (List Printed) :=
  if s.amt = 0 then some [.noRecords]
  else if s.amt > 0 then
    (List.range s.amt.toNat).foldlM (fun out (i : ℕ) => do
      let r ← get s.subs i
      some (out ++ [.shown r.id (← r.read surnameAt) (← r.read nameAt) (← r.read numberAt)]))
      [.allRecords]
  else some []

/-- What a user of the menu does to the book, with the contents of the new
memory each time. -/
inductive Op
  | add (mem : ℕ → Record) (name surname number : List UInt8)
  | remove (mem : ℕ → Record) (id_r : ℤ)

def step (s : Book) : Op → Option Book
  | .add mem name surname number => add_sub mem name surname number s
  | .remove mem id_r => (remove_sub mem id_r s).map Prod.snd

/-- The program starts with no block and `amt = 0`. -/
def empty : Book := ⟨[], 0⟩

/-- All sessions with the phone book. -/
def book : System Book Op where
  init s := s = empty
  step := step

/-! ### What the fields hold -/

/-- The three strings of a record. -/
structure Entry where
  name : List UInt8
  surname : List UInt8
  number : List UInt8
  deriving DecidableEq

/-- The words fit their fields, with their NULs. -/
structure Entry.Fits (e : Entry) : Prop where
  name_nz : 0 ∉ e.name
  name_le : e.name.length ≤ 20
  surname_nz : 0 ∉ e.surname
  surname_le : e.surname.length ≤ 20
  number_nz : 0 ∉ e.number
  number_le : e.number.length ≤ 15

/-- The record has the id `i` and the three strings of `e`. -/
structure Record.Holds (r : Record) (i : ℕ) (e : Entry) : Prop where
  id : r.id = i
  name : r.read nameAt = some e.name
  surname : r.read surnameAt = some e.surname
  number : r.read numberAt = some e.number

namespace Record

theorem read_eq {r : Record} {field : ℕ} {w : List UInt8} (h : cstr (r.text.chars.drop field) = w)
    (hlen : field + w.length < 60) : r.read field = some w := by
  have h0 : (0 : UInt8) ∈ r.text.chars.drop field := by
    apply zero_mem_of_length_lt
    rw [h, List.length_drop, r.text.size]
    omega
  rw [read, if_pos h0, h]

theorem put_eq_some {r r' : Record} {field : ℕ} {w : List UInt8} (h : r.put field w = some r') :
    r'.id = r.id ∧ r.text.store field (w ++ [0]) = some r'.text := by
  obtain ⟨t, ht, rfl⟩ := Option.map_eq_some_iff.mp h
  exact ⟨rfl, ht⟩

theorem exists_put (r : Record) (field : ℕ) (w : List UInt8) (h : field + w.length < 60) :
    ∃ r', r.put field w = some r' := by
  obtain ⟨t, ht, -⟩ := r.text.exists_store field (w ++ [0]) (by simp; omega)
  exact ⟨{ r with text := t }, by rw [put, ht]; rfl⟩

/-- Writing the three fields in their order leaves each as written: a later
field lies after the earlier ones. -/
theorem fill_spec (r : Record) {e : Entry} (he : e.Fits) : ∃ r1 r2 r3,
    r.put nameAt e.name = some r1 ∧ r1.put surnameAt e.surname = some r2 ∧
    r2.put numberAt e.number = some r3 ∧ r3.id = r.id ∧ r3.read nameAt = some e.name ∧
    r3.read surnameAt = some e.surname ∧ r3.read numberAt = some e.number := by
  obtain ⟨n1, n2, n3, n4, n5, n6⟩ := he
  obtain ⟨r1, h1⟩ := r.exists_put nameAt e.name (by unfold nameAt; omega)
  obtain ⟨r2, h2⟩ := r1.exists_put surnameAt e.surname (by unfold surnameAt; omega)
  obtain ⟨r3, h3⟩ := r2.exists_put numberAt e.number (by unfold numberAt; omega)
  obtain ⟨i1, t1⟩ := put_eq_some h1
  obtain ⟨i2, t2⟩ := put_eq_some h2
  obtain ⟨i3, t3⟩ := put_eq_some h3
  have a1 := Buf.cstr_drop_store n1 t1
  have a2 : cstr (r2.text.chars.drop nameAt) = e.name := by
    rw [Buf.cstr_drop_store_before t2 (by rw [a1]; unfold nameAt surnameAt; omega), a1]
  have a3 : cstr (r3.text.chars.drop nameAt) = e.name := by
    rw [Buf.cstr_drop_store_before t3 (by rw [a2]; unfold nameAt numberAt; omega), a2]
  have b2 := Buf.cstr_drop_store n3 t2
  have b3 : cstr (r3.text.chars.drop surnameAt) = e.surname := by
    rw [Buf.cstr_drop_store_before t3 (by rw [b2]; unfold surnameAt numberAt; omega), b2]
  have c3 := Buf.cstr_drop_store n5 t3
  refine ⟨r1, r2, r3, h1, h2, h3, by rw [i3, i2, i1], read_eq a3 ?_, read_eq b3 ?_, read_eq c3 ?_⟩
  · unfold nameAt; omega
  · unfold surnameAt; omega
  · unfold numberAt; omega

end Record
end Phonebook
end Autumn
