/-
# The calculator's plugins (`calculator/dynamic/main.c`)

`main` goes through the directory twice: `count_items` counts the entries that
do not begin with a dot, and the second pass loads a library for each of them
and fills the menu. On an entry with a dot the second pass takes its counter
back before the loop moves it on, so it stands still, and the loop ends with the
last entry that counts: it does not ask for another one. So the menu has the
functions of these entries in the order of the listing, and the `int` that `scanf`
stores calls the function whose description is printed with it (`start_shows`,
`Shows.choose`). It is compared with the size of the menu only after it is stored: a
number that does not fit is not rejected, if what is stored of it is on the menu
(`runs_what_it_shows_iff`).

The path of a library is put together by two `strcat` in a block from `malloc`
that is one byte too short for it, and has not been cleared: what is there stays
in front of the path, and the NUL is always behind the block
(`paths_exact_iff`).

`opendir` and the calls of `dlsym` succeed, and the listing is the same both
times. A block is given with all the memory behind it: an access outside that, a
NULL entry, or an index outside `menu` is `none`.

Key definitions: `count_items`, `make_path`, `fill`, `Scan`, `choose`, `Shows`,
`Answers`, `Alike`, `Filled`, `PathsExact`.
Key theorems: `Filled.skip`, `Filled.load`, `fill_spec`, `Shows.choose`,
`Shows.answers_iff`, `runs_what_it_shows_iff`, `make_path_eq_some`, `path_exact_iff`,
`paths_exact_iff`.
-/
import Mathlib.Data.List.Basic
import Autumn.Lib.CString

namespace Autumn
namespace Plugins

/-- A directory entry, with its `d_name`. -/
structure Entry where
  d_name : List UInt8
  nz : (0 : UInt8) ∉ d_name
  deriving DecidableEq

/-- `(ad -> d_name[0]) == '.'` -/
def Entry.dot (e : Entry) : Bool := e.d_name.head? = some 46

/-- `char str[] = "./plugins/";` -/
def str : List UInt8 := [46, 47, 112, 108, 117, 103, 105, 110, 115, 47]

/-- `count_items` -/
def count_items (listing : List Entry) : ℕ :=
  listing.foldl (fun menu_size ad => if ad.dot then menu_size else menu_size + 1) 0

/-! ### The path of a library -/

/-- The argument of `malloc`. -/
def block (ad : Entry) : ℕ := ad.d_name.length + str.length

/-- `strcat(nstr, str); strcat(nstr, ad -> d_name);` on the memory at `nstr`. -/
def make_path (nstr : List UInt8) (ad : Entry) : Option (Buf UInt8 nstr.length) :=
  (Buf.strcat ⟨nstr, rfl⟩ (str ++ [0])).bind fun nstr => nstr.strcat (ad.d_name ++ [0])

/-! ### The menu -/

variable {F : Type}

/-- A library, with what `dlsym` finds in it. -/
structure Library (F : Type) where
  func_name : List UInt8
  description : List UInt8
  symbol : List UInt8 → F

/-- `menu[i] = dlsym(lib_handler, fname);` -/
def Library.function (lib : Library F) : F := lib.symbol lib.func_name

/-- The second pass: its counter, the menu, what it has printed, and what it has
not read of the directory. -/
structure Pass (F : Type) where
  i : ℤ
  menu : List (Option F)
  out : List (ℤ × List UInt8)
  dir : List Entry

/-- `menu[i] = f;` -/
def Pass.assign (s : Pass F) (f : F) : Option (List (Option F)) :=
  if 0 ≤ s.i ∧ s.i < s.menu.length then some (s.menu.set s.i.toNat (some f)) else none

variable (malloc : ℕ → List UInt8) (dlopen : List UInt8 → Option (Library F))

/-- The library of an entry, when the path is built in the memory `nstr`. -/
def load (nstr : List UInt8) (ad : Entry) : Option (Library F) :=
  (make_path nstr ad).bind fun path => dlopen path.str

/-- The loop of the second pass over what is left of the directory, once `n`
blocks have been allocated: `malloc n` is the memory of the next one. -/
def fill (menu_size : ℕ) (n : ℕ) (s : Pass F) : List Entry → Option (Pass F)
  | [] =>
    -- `ad` is NULL in a further turn
    if s.i < menu_size then none else some { s with dir := [] }
  | ad :: dir =>
    if s.i < menu_size then
      if ad.dot then
        -- `i--; continue;`, and `i++`
        fill menu_size n { s with i := s.i - 1 + 1 } dir
      else do
        let lib ← load dlopen (malloc n) ad
        let menu ← s.assign lib.function
        fill menu_size (n + 1) { s with i := s.i + 1, menu, out := s.out ++ [(s.i + 1, lib.description)] } dir
    else some { s with dir := ad :: dir }

/-- `main`, up to its last loop; without an entry that counts it exits. -/
def start (listing : List Entry) : Option (Option (Pass F)) :=
  let menu_size := count_items listing
  if menu_size = 0 then some none
  else (fill malloc dlopen menu_size 0 ⟨0, List.replicate menu_size none, [], listing⟩ listing).map some

/-- What is done with a number typed. -/
inductive Choice (F : Type)
  | exit
  | rejected
  | called (f : F)
  deriving DecidableEq, Repr

/-- `scanf("%d", &item);`: what is stored of the integer typed. Of one that does not
fit an `int`, the standard says nothing. -/
structure Scan where
  val : ℤ → Int32
  exact : ∀ n : ℤ, -2 ^ 31 ≤ n → n < 2 ^ 31 → (val n).toInt = n

/-- One that brings the integer to 64 bits, as `strtol` does, and stores the last 32 of
them. -/
def Scan.long : Scan where
  val n := Int32.ofInt (max (-2 ^ 63) (min n (2 ^ 63 - 1)))
  exact n h h' := by
    rw [min_eq_left (by omega), max_eq_right (by omega)]
    exact Int32.toInt_ofInt_of_le h h'

/-- The body of the last loop of `main`. -/
def choose (menu_size : ℕ) (menu : List (Option F)) (item : Int32) : Option (Choice F) :=
  if item.toInt = 0 then some .exit
  else if item.toInt < 0 ∨ item.toInt > menu_size then some .rejected
  else if 0 ≤ item.toInt - 1 then (menu[(item.toInt - 1).toNat]?.join).map .called
  else none

/-! ### What it is for -/

/-- The entries that count. -/
def visible (listing : List Entry) : List Entry := listing.filter fun ad => !ad.dot

/-- The lines of the menu. -/
def numbered (lib : Entry → Library F) (entries : List Entry) : List (ℤ × List UInt8) :=
  entries.mapIdx fun k ad => ((k : ℤ) + 1, (lib ad).description)

/-- The menu is what has been printed, and the directory has been read up to the last
entry that counts. -/
structure Shows (lib : Entry → Library F) (listing : List Entry) (s : Pass F) : Prop where
  menu : s.menu = (visible listing).map fun ad => some (lib ad).function
  out : s.out = numbered lib (visible listing)
  dir : ∃ p, listing = p ++ s.dir ∧ visible s.dir = [] ∧ ∃ ad ∈ p.getLast?, ad.dot = false

/-- When the integer `n` is typed and `item` stored of it, the program exits for 0,
rejects what is not on the menu, and calls the function printed with `n`. -/
def Answers (lib : Entry → Library F) (listing : List Entry) (s : Pass F) (n : ℤ) (item : Int32) : Prop :=
  (n = 0 ∧ choose (count_items listing) s.menu item = some .exit) ∨
  ((n < 0 ∨ n > (visible listing).length) ∧ choose (count_items listing) s.menu item = some .rejected) ∨
  ∃ (k : ℕ) (ad : Entry), (visible listing)[k]? = some ad ∧ s.out[k]? = some (n, (lib ad).description) ∧
    choose (count_items listing) s.menu item = some (.called (lib ad).function)

/-- The function that a listing has for the number `n`. -/
def listed (lib : Entry → Library F) (listing : List Entry) (n : ℤ) : Option F :=
  if 0 < n then (visible listing)[(n - 1).toNat]?.map fun ad => (lib ad).function else none

/-- Both numbers are 0, or neither is, and the listing has one function for both, or
none. -/
def Alike (lib : Entry → Library F) (listing : List Entry) (n m : ℤ) : Prop :=
  (n = 0 ↔ m = 0) ∧ listed lib listing n = listed lib listing m

/-! ### The path -/

theorem make_path_eq_some {nstr : List UInt8} {ad : Entry} {path : Buf UInt8 nstr.length}
    (h : make_path nstr ad = some path) : path.str = cstr nstr ++ str ++ ad.d_name := by
  obtain ⟨b, hb, hpath⟩ := Option.bind_eq_some_iff.mp h
  obtain ⟨-, hbs, -⟩ := Buf.strcat_eq_some hb
  obtain ⟨-, hps, -⟩ := Buf.strcat_eq_some hpath
  have hstr : cstr (str ++ [0]) = str := by decide
  rw [hps, hbs, cstr_append_zero ad.nz, hstr]
  rfl

theorem exists_make_path {nstr : List UInt8} (h0 : (0 : UInt8) ∈ nstr) {ad : Entry}
    (h : (cstr nstr).length + block ad < nstr.length) : ∃ path, make_path nstr ad = some path := by
  have hstr : cstr (str ++ [0]) = str := by decide
  have hname : cstr (ad.d_name ++ [0]) = ad.d_name := cstr_append_zero ad.nz []
  unfold block at h
  obtain ⟨b, hb, hbs, hbt⟩ := Buf.strcat_spec ⟨nstr, rfl⟩ (str ++ [0]) h0 (by simp)
    (by rw [hstr]; exact Nat.lt_of_le_of_lt (Nat.add_le_add_left (Nat.le_add_left _ _) _) h)
  obtain ⟨path, hp, -⟩ := b.strcat_spec (ad.d_name ++ [0]) hbt (by simp)
    (by
      rw [hbs, hstr, hname, List.length_append, Nat.add_assoc, Nat.add_comm str.length]
      exact h)
  exact ⟨path, by rw [make_path, hb]; exact hp⟩

/-- The path is the directory and the name exactly if nothing was in the block. -/
theorem path_exact_iff {nstr : List UInt8} {ad : Entry} {path : Buf UInt8 nstr.length}
    (h : make_path nstr ad = some path) : path.str = str ++ ad.d_name ↔ cstr nstr = [] := by
  rw [make_path_eq_some h, List.append_assoc, List.append_left_eq_self]

theorem load_clear {nstr : List UInt8} (h0 : (0 : UInt8) ∈ nstr) (hclear : cstr nstr = []) {ad : Entry}
    (h : block ad < nstr.length) : load dlopen nstr ad = dlopen (str ++ ad.d_name) := by
  obtain ⟨path, hpath⟩ := exists_make_path h0 (by rw [hclear, List.length_nil, Nat.zero_add]; exact h)
  rw [load, hpath, Option.bind_some, (path_exact_iff hpath).mpr hclear]

/-! ### The two passes -/

@[simp] theorem visible_nil : visible [] = [] := rfl

theorem visible_cons_dot {ad : Entry} (h : ad.dot = true) (dir : List Entry) : visible (ad :: dir) = visible dir :=
  List.filter_cons_of_neg (by simp [h])

theorem visible_cons {ad : Entry} (h : ad.dot = false) (dir : List Entry) :
    visible (ad :: dir) = ad :: visible dir := List.filter_cons_of_pos (by simp [h])

theorem count_items_eq (listing : List Entry) : count_items listing = (visible listing).length := by
  have hfold : ∀ n, listing.foldl (fun menu_size ad => if ad.dot then menu_size else menu_size + 1) n =
      n + (visible listing).length := by
    induction listing with
    | nil => exact fun n => rfl
    | cons ad dir ih =>
      intro n
      rw [List.foldl_cons]
      cases hd : ad.dot with
      | true => rw [visible_cons_dot hd, if_pos rfl, ih]
      | false =>
        rw [visible_cons hd, if_neg Bool.false_ne_true, ih, List.length_cons]
        omega
  exact (hfold 0).trans (Nat.zero_add _)

theorem assign_eq {s : Pass F} {l : List (Option F)} {m : ℕ} (hi : s.i = l.length)
    (hmenu : s.menu = l ++ List.replicate (m + 1) none) (f : F) :
    s.assign f = some (l ++ [some f] ++ List.replicate m none) := by
  have hin : 0 ≤ s.i ∧ s.i < s.menu.length := by
    rw [hmenu, hi, List.length_append, List.length_replicate]
    omega
  rw [Pass.assign, if_pos hin, hmenu, hi, Int.toNat_natCast, List.set_append_right _ _ (le_refl _), Nat.sub_self,
    List.replicate_succ, List.set_cons_zero, List.append_assoc, List.singleton_append]

theorem numbered_concat (lib : Entry → Library F) (done : List Entry) (ad : Entry) :
    numbered lib (done ++ [ad]) = numbered lib done ++ [((done.length : ℤ) + 1, (lib ad).description)] :=
  List.mapIdx_concat

/-- What holds before each turn of the second pass: the libraries of `done` are in
the menu and have been printed, and there is room for those of `dir`. -/
structure Filled (lib : Entry → Library F) (menu_size : ℕ) (done dir : List Entry) (s : Pass F) : Prop where
  i : s.i = done.length
  menu : s.menu = (done.map fun ad => some (lib ad).function) ++ List.replicate (visible dir).length none
  out : s.out = numbered lib done
  size : menu_size = done.length + (visible dir).length

section Filling

variable {lib : Entry → Library F} {menu_size : ℕ} {done dir : List Entry} {s : Pass F}

theorem Filled.start (listing : List Entry) : Filled lib (count_items listing) [] listing
    ⟨0, List.replicate (count_items listing) none, [], listing⟩ where
  i := rfl
  menu := by rw [count_items_eq]; rfl
  out := rfl
  size := by rw [count_items_eq, List.length_nil, Nat.zero_add]

theorem Filled.lt_iff (h : Filled lib menu_size done dir s) : s.i < menu_size ↔ visible dir ≠ [] := by
  rw [h.i, h.size, ← List.length_pos_iff]
  omega

theorem Filled.skip {ad : Entry} (hd : ad.dot = true) (h : Filled lib menu_size done (ad :: dir) s) :
    Filled lib menu_size done dir { s with i := s.i - 1 + 1 } where
  i := (Int.sub_add_cancel s.i 1).trans h.i
  menu := by rw [h.menu, visible_cons_dot hd]
  out := h.out
  size := by rw [h.size, visible_cons_dot hd]

theorem Filled.load {ad : Entry} (hd : ad.dot = false) (h : Filled lib menu_size done (ad :: dir) s) :
    ∃ menu, s.assign (lib ad).function = some menu ∧ Filled lib menu_size (done ++ [ad]) dir
      { s with i := s.i + 1, menu, out := s.out ++ [(s.i + 1, (lib ad).description)] } := by
  have hmenu := h.menu
  have hsize := h.size
  rw [visible_cons hd, List.length_cons] at hmenu hsize
  refine ⟨_, assign_eq (by rw [List.length_map]; exact h.i) hmenu (lib ad).function, ?_⟩
  constructor
  · rw [h.i, List.length_append]
    rfl
  · rw [List.map_append, List.map_singleton]
  · rw [numbered_concat, h.out, h.i]
  · rw [hsize, List.length_append, List.length_singleton]
    omega

theorem Filled.full (h : Filled lib menu_size done dir s) (hv : visible dir = []) (n : ℕ) :
    fill malloc dlopen menu_size n s dir = some { s with dir } := by
  have hge : ¬ s.i < menu_size := fun hlt => h.lt_iff.mp hlt hv
  cases dir with
  | nil => rw [fill, if_neg hge]
  | cons ad dir => rw [fill, if_neg hge]

/-- **The second pass**, from where `done` has been loaded: it loads what counts
of the rest, and reads no further. -/
theorem fill_spec : ∀ (done : List Entry) (s : Pass F), Filled lib menu_size done dir s →
    (∀ k ad, (visible dir)[k]? = some ad → load dlopen (malloc (done.length + k)) ad = some (lib ad)) →
    ∃ s', fill malloc dlopen menu_size done.length s dir = some s' ∧
      Filled lib menu_size (done ++ visible dir) s'.dir s' ∧
      ∃ p, dir = p ++ s'.dir ∧ visible s'.dir = [] ∧ ∀ ad ∈ p.getLast?, ad.dot = false := by
  induction dir with
  | nil =>
    intro done s h _
    refine ⟨_, h.full malloc dlopen rfl _, ?_, [], rfl, rfl, by simp⟩
    rw [visible_nil, List.append_nil]
    exact ⟨h.i, h.menu, h.out, h.size⟩
  | cons ad dir ih =>
    intro done s h hload
    by_cases hv : visible (ad :: dir) = []
    · refine ⟨_, h.full malloc dlopen hv _, ?_, [], rfl, hv, by simp⟩
      rw [hv, List.append_nil]
      exact ⟨h.i, h.menu, h.out, h.size⟩
    have hlt := h.lt_iff.mpr hv
    cases hd : ad.dot with
    | true =>
      rw [visible_cons_dot hd] at hv hload ⊢
      obtain ⟨s', hs', h', p, hp, hvis, hlast⟩ := ih done _ (h.skip hd) hload
      refine ⟨s', ?_, h', ad :: p, by rw [hp, List.cons_append], hvis, fun e he => ?_⟩
      · rw [fill, if_pos hlt, if_pos hd, hs']
      · have hne : p ≠ [] := fun hnil => hv (by rw [hp, hnil]; exact hvis)
        exact hlast e (List.getLast?_append_of_ne_nil [ad] hne ▸ he)
    | false =>
      rw [visible_cons hd] at hload ⊢
      obtain ⟨menu, hmenu, hnext⟩ := h.load hd
      obtain ⟨s', hs', h', p, hp, hvis, hlast⟩ := ih (done ++ [ad]) _ hnext fun k e he => by
        rw [List.length_append, List.length_singleton, Nat.add_assoc, Nat.add_comm 1 k]
        exact hload (k + 1) e he
      rw [List.append_assoc, List.singleton_append] at h'
      refine ⟨s', ?_, h', ad :: p, by rw [hp, List.cons_append], hvis, fun e he => ?_⟩
      · have hlib := hload 0 ad rfl
        rw [Nat.add_zero] at hlib
        rw [List.length_append, List.length_singleton] at hs'
        rw [fill, if_pos hlt, if_neg (by rw [hd]; exact Bool.false_ne_true)]
        simp only [hlib, Option.bind_eq_bind, Option.bind_some, hmenu]
        exact hs'
      · cases p with
        | nil =>
          obtain rfl : ad = e := Option.some.inj he
          exact hd
        | cons ad' p => exact hlast e he

end Filling

/-! ### The number typed -/

section Typed

variable {listing : List Entry} {lib : Entry → Library F} {s : Pass F}

theorem listed_eq_some_iff {n : ℤ} {f : F} : listed lib listing n = some f ↔
    ∃ (k : ℕ) (ad : Entry), (visible listing)[k]? = some ad ∧ n = (k : ℤ) + 1 ∧ (lib ad).function = f := by
  unfold listed
  constructor
  · intro h
    split at h
    · obtain ⟨ad, had, hf⟩ := Option.map_eq_some_iff.mp h
      exact ⟨(n - 1).toNat, ad, had, by omega, hf⟩
    · cases h
  · rintro ⟨k, ad, hk, rfl, hf⟩
    have hindex : ((k : ℤ) + 1 - 1).toNat = k := by omega
    rw [if_pos (by omega), hindex, hk, Option.map_some, hf]

/-- What has no function and is not 0 is below 0 or above the size of the menu. -/
theorem off_iff (lib : Entry → Library F) (listing : List Entry) (n : ℤ) :
    n < 0 ∨ n > (visible listing).length ↔ n ≠ 0 ∧ listed lib listing n = none := by
  unfold listed
  by_cases hpos : 0 < n
  · rw [if_pos hpos, Option.map_eq_none_iff, List.getElem?_eq_none_iff]
    omega
  · rw [if_neg hpos]
    simp only [and_true]
    omega

/-- **The number stored** exits, is rejected, or calls the function listed for it. -/
theorem Shows.choose (h : Shows lib listing s) (item : Int32) : choose (count_items listing) s.menu item =
    if item.toInt = 0 then some .exit
    else some ((listed lib listing item.toInt).elim .rejected .called) := by
  have hoff := off_iff lib listing item.toInt
  unfold Plugins.choose
  rw [count_items_eq]
  by_cases h0 : item.toInt = 0
  · rw [if_pos h0, if_pos h0]
  rw [if_neg h0, if_neg h0]
  by_cases hout : item.toInt < 0 ∨ item.toInt > (visible listing).length
  · rw [if_pos hout, (hoff.mp hout).2, Option.elim_none]
  · obtain ⟨f, hf⟩ := Option.ne_none_iff_exists'.mp fun hnone => hout (hoff.mpr ⟨h0, hnone⟩)
    obtain ⟨k, ad, hk, hx, rfl⟩ := listed_eq_some_iff.mp hf
    have hindex : (item.toInt - 1).toNat = k := by omega
    rw [if_neg hout, if_pos (by omega), hindex, h.menu, List.getElem?_map, hk, hf]
    rfl

theorem numbered_getElem? {entries : List Entry} {k : ℕ} {ad : Entry} (h : entries[k]? = some ad) :
    (numbered lib entries)[k]? = some ((k : ℤ) + 1, (lib ad).description) := by
  rw [numbered, List.getElem?_mapIdx, h]
  rfl

theorem Shows.printed (h : Shows lib listing s) {k : ℕ} {ad : Entry} (hk : (visible listing)[k]? = some ad) {n : ℤ} :
    s.out[k]? = some (n, (lib ad).description) ↔ n = (k : ℤ) + 1 := by
  rw [h.out, numbered_getElem? hk, Option.some.injEq, Prod.mk.injEq, and_iff_left rfl, eq_comm]

/-- **An integer is answered as the menu says** exactly if it and the one stored are
alike. -/
theorem Shows.answers_iff (h : Shows lib listing s) (n : ℤ) (item : Int32) :
    Answers lib listing s n item ↔ Alike lib listing n item.toInt := by
  have hcalled : (∃ (k : ℕ) (ad : Entry), (visible listing)[k]? = some ad ∧ s.out[k]? = some (n, (lib ad).description) ∧
      Plugins.choose (count_items listing) s.menu item = some (.called (lib ad).function)) ↔
      ∃ f, listed lib listing n = some f ∧ Plugins.choose (count_items listing) s.menu item = some (.called f) := by
    constructor
    · rintro ⟨k, ad, hk, hout, hc⟩
      exact ⟨_, listed_eq_some_iff.mpr ⟨k, ad, hk, (h.printed hk).mp hout, rfl⟩, hc⟩
    · rintro ⟨f, hf, hc⟩
      obtain ⟨k, ad, hk, hn, rfl⟩ := listed_eq_some_iff.mp hf
      exact ⟨k, ad, hk, (h.printed hk).mpr hn, hc⟩
  have hnone : ∀ m : ℤ, m = 0 → listed lib listing m = none := fun m hm => if_neg (by omega)
  unfold Answers Alike
  rw [hcalled, off_iff lib, h.choose]
  by_cases hx : item.toInt = 0
  · rw [if_pos hx, hnone _ hx]
    simp only [reduceCtorEq, and_true, and_false, exists_false, or_false, Option.some.injEq, hx, iff_true]
    exact ⟨fun hn => ⟨hn, hnone n hn⟩, And.left⟩
  · rw [if_neg hx]
    cases hlisted : listed lib listing item.toInt with
    | none =>
      simp only [Option.elim_none, Option.some.injEq, reduceCtorEq, and_true, and_false, exists_false, or_false,
        false_or, hx, iff_false, ne_eq]
    | some f =>
      simp only [Option.elim_some, Option.some.injEq, reduceCtorEq, Choice.called.injEq, and_false, false_or, hx,
        iff_false]
      constructor
      · rintro ⟨f', hf', rfl⟩
        have hn : n ≠ 0 := fun hn => by
          rw [hnone n hn] at hf'
          cases hf'
        exact ⟨hn, hf'⟩
      · rintro ⟨-, hf⟩
        exact ⟨f, hf, rfl⟩

end Typed

/-- **The second pass** ends with the menu shown, if every library loads. -/
theorem start_shows (listing : List Entry) (lib : Entry → Library F)
    (hload : ∀ k ad, (visible listing)[k]? = some ad → load dlopen (malloc k) ad = some (lib ad))
    (hv : visible listing ≠ []) : ∃ s, start malloc dlopen listing = some (some s) ∧ Shows lib listing s := by
  have hcount := count_items_eq listing
  have hpos : count_items listing ≠ 0 := by
    rw [hcount]
    exact (List.length_pos_iff.mpr hv).ne'
  obtain ⟨s, hs, h, p, hp, hvis, hlast⟩ := fill_spec malloc dlopen [] _ (Filled.start listing) fun k ad h => by
    rw [List.length_nil, Nat.zero_add]
    exact hload k ad h
  have hm := h.menu
  rw [List.nil_append, hvis, List.length_nil, List.replicate_zero, List.append_nil] at hm
  have ho := h.out
  rw [List.nil_append] at ho
  have hstart : start malloc dlopen listing = some (some s) := by
    rw [start, if_neg hpos]
    exact congrArg (Option.map some) hs
  refine ⟨s, hstart, hm, ho, p, hp, hvis, ?_⟩
  have hne : p ≠ [] := fun h => hv (by rw [hp, h]; exact hvis)
  have hend := List.getLast?_eq_getLast_of_ne_nil hne
  exact ⟨p.getLast hne, hend, hlast _ hend⟩

/-- **The menu runs what it shows**, if every library loads, for exactly the integers
that are like what is stored of them, and these are all that fit an `int`; with no entry
that counts the program has exited. -/
theorem runs_what_it_shows_iff (scanf : Scan) (listing : List Entry) (lib : Entry → Library F)
    (hload : ∀ k ad, (visible listing)[k]? = some ad → load dlopen (malloc k) ad = some (lib ad)) :
    if visible listing = [] then start malloc dlopen listing = some none
    else ∃ s, start malloc dlopen listing = some (some s) ∧ Shows lib listing s ∧ ∀ n : ℤ,
      (choose (count_items listing) s.menu (scanf.val n)).isSome ∧
      (Answers lib listing s n (scanf.val n) ↔ Alike lib listing n (scanf.val n).toInt) ∧
      (-2 ^ 31 ≤ n → n < 2 ^ 31 → Answers lib listing s n (scanf.val n)) := by
  split
  · rename_i hv
    rw [start, if_pos (by rw [count_items_eq, hv]; rfl)]
  · rename_i hv
    obtain ⟨s, hs, hshows⟩ := start_shows malloc dlopen listing lib hload hv
    refine ⟨s, hs, hshows, fun n => ⟨?_, hshows.answers_iff n _, fun h h' => ?_⟩⟩
    · rw [hshows.choose]
      split
      · rfl
      · rfl
    · rw [hshows.answers_iff, scanf.exact n h h']
      exact ⟨Iff.rfl, rfl⟩

/-- The entry `a`. -/
def entryA : Entry := ⟨[97], by decide⟩

/-- A directory with one library. -/
def oneLibrary : List Entry := [⟨[46], by decide⟩, entryA, ⟨[46, 46], by decide⟩]

/-- That library. -/
def libA : Library Bool := ⟨[102], [100], fun _ => true⟩

/-- The memory of each block, zeros. -/
def clear (_ : ℕ) : List UInt8 := List.replicate 24 0

/-- `dlopen` of the one path. -/
def openA (path : List UInt8) : Option (Library Bool) := if path = str ++ [97] then some libA else none

theorem load_oneLibrary (k : ℕ) (ad : Entry) (hk : (visible oneLibrary)[k]? = some ad) :
    load openA (clear k) ad = some libA := by
  have had : ad = entryA := by
    have hvis : visible oneLibrary = [entryA] := by decide
    exact List.mem_singleton.mp (hvis ▸ List.mem_of_getElem? hk)
  rw [had, clear, load_clear _ (by decide) (by decide) (by decide)]
  rfl

/-- Its menu has one line, which is called for 1, and not for 4294967297, of which 1 is
stored. -/
theorem runs_what_it_shows_iff_oneLibrary : ∃ s, start clear openA oneLibrary = some (some s) ∧
    Answers (fun _ => libA) oneLibrary s 1 (Scan.long.val 1) ∧
    ¬ Answers (fun _ => libA) oneLibrary s 4294967297 (Scan.long.val 4294967297) := by
  obtain ⟨s, hs, -, h⟩ := runs_what_it_shows_iff clear openA Scan.long oneLibrary (fun _ => libA) load_oneLibrary
  exact ⟨s, hs, (h 1).2.2 (by decide) (by decide), fun hn => absurd ((h 4294967297).2.1.mp hn).2 (by decide)⟩

/-- **A number far above the menu** calls the first plugin. -/
theorem large_number_called : ¬ ∀ (scanf : Scan) (malloc : ℕ → List UInt8)
    (dlopen : List UInt8 → Option (Library Bool)) (listing : List Entry) (lib : Entry → Library Bool),
    (∀ k ad, (visible listing)[k]? = some ad → load dlopen (malloc k) ad = some (lib ad)) →
    ∀ s, start malloc dlopen listing = some (some s) → ∀ n, Answers lib listing s n (scanf.val n) := by
  intro h
  obtain ⟨s, hs, hshows⟩ := start_shows clear openA oneLibrary (fun _ => libA) load_oneLibrary (by decide)
  have hn := h Scan.long clear openA oneLibrary (fun _ => libA) load_oneLibrary s hs 4294967297
  exact absurd ((hshows.answers_iff _ _).mp hn).2 (by decide)

/-! ### The blocks -/

theorem block_le {nstr : List UInt8} {ad : Entry} {path : Buf UInt8 nstr.length}
    (h : make_path nstr ad = some path) : block ad ≤ path.str.length := by
  rw [make_path_eq_some h, List.length_append, List.length_append, block]
  omega

/-- Every library is opened with the directory and its name, and the NUL behind
these, the last byte that is written, is in the block. -/
def PathsExact (listing : List Entry) : Prop := ∀ k ad, (visible listing)[k]? = some ad →
  ∃ path, make_path (malloc k) ad = some path ∧ path.str = str ++ ad.d_name ∧ path.str.length < block ad

/-- **No path fits its block**: all is well only where no library is opened. -/
theorem paths_exact_iff (listing : List Entry) : PathsExact malloc listing ↔ visible listing = [] := by
  constructor
  · intro h
    by_contra hv
    obtain ⟨ad, dir, hcons⟩ := List.exists_cons_of_ne_nil hv
    obtain ⟨path, hpath, -, hlt⟩ := h 0 ad (by rw [hcons]; rfl)
    exact absurd (block_le hpath) (Nat.not_le_of_lt hlt)
  · intro hv k ad hk
    rw [hv] at hk
    cases hk

/-- **A name of one byte**, in a block that happens to be clear. -/
theorem path_outside : ¬ PathsExact (fun _ => List.replicate 24 0) [entryA] := by
  intro h
  obtain ⟨path, hpath, -, hlt⟩ := h 0 entryA rfl
  exact absurd (block_le hpath) (Nat.not_le_of_lt hlt)

end Plugins
end Autumn
