/-
# The text editors (`text_editor`, `text_editor2`)

Both editors keep a descriptor `fd` (0 at first), a buffer `buf` of 1024
characters (zeros at first) and run `open` on F1, `wgetstr` into `buf` on F2
and `lseek`, `write`, `close` on F3. `text_editor2` passes `fd` to its
functions and `text_editor` keeps it in a global that they read and write; the
screen output is left out. A file's text starts at offset 0 and a write there
replaces the first characters and no others: `open` has no `O_TRUNC`.

`typed` records what a session is about: the file opened last, and the text
entered with F2 since. A save writes `buf` over the start of the file if the
descriptor is open (`save_files`); from that come the exact conditions under
which it stores the text entered (`saves_typed_iff`) and under which a save
with no F2 since the last open changes nothing (`saves_nothing_iff`).

Key definitions: `Proc`, `State`, `key`, `editor`, `typed`, `SavesIn`,
`SavesTyped`, `SavesNothing`, `Fitting`.
Key theorems: `inv_step`, `save_files`, `saves_typed_iff`, `saves_nothing_iff`.
-/
import Mathlib.Data.List.Infix
import Autumn.Lib.CString
import Autumn.Lib.Fds
import Autumn.Lib.System

namespace Autumn
namespace Editor

/-- File names and texts are strings of characters. -/
abbrev Str := List UInt8

/-- What a descriptor refers to: the terminal, or a file at an offset. -/
inductive Desc
  | tty
  | file (name : Str) (offset : ℕ)
  deriving DecidableEq, Repr

/-- The part of the process that the functions share: the buffer, the
descriptor table and the files (those that can be opened for reading and
writing). -/
structure Proc where
  buf : Buf UInt8 1024
  fds : Fds Desc
  files : Str → Option Str

/-- The number of descriptors a process may have. -/
def openMax : ℕ := 1024

/-! ### System calls -/

/-- The object behind a descriptor given as an `int`. -/
def Proc.look (p : Proc) (fd : ℤ) : Option Desc := if 0 ≤ fd then p.fds fd.toNat else none

/-- `lseek(fd, 0, SEEK_SET)`; it fails, changing nothing, on a terminal or a
closed descriptor. -/
def lseek0 (fd : ℤ) (p : Proc) : Proc :=
  match p.look fd with
  | some (.file name _) => { p with fds := p.fds.put fd.toNat (.file name 0) }
  | _ => p

/-- The contents after `w` is written at an offset. -/
def overwrite (c : Str) (offset : ℕ) (w : Str) : Str :=
  c.take offset ++ List.replicate (offset - c.length) 0 ++ w ++ c.drop (offset + w.length)

/-- `write(fd, w, len)`; it fails, changing nothing, on a closed descriptor. -/
def write (fd : ℤ) (w : Str) (p : Proc) : Proc :=
  match p.look fd with
  | some (.file name offset) =>
    { p with
      fds := p.fds.put fd.toNat (.file name (offset + w.length))
      files := Function.update p.files name ((p.files name).map fun c => overwrite c offset w) }
  | _ => p

/-- `close(fd)`. -/
def close (fd : ℤ) (p : Proc) : Proc := if 0 ≤ fd then { p with fds := p.fds.close fd.toNat } else p

/-- `open(name, O_RDWR)` and the `read` of up to 1024 characters that follows
it: -1 if there is no such file or no free descriptor. -/
def openRead (name : Str) (p : Proc) : ℤ × Proc :=
  match p.files name, p.fds.lowestFree openMax with
  | some c, some n => (n, { p with fds := p.fds.put n (.file name (min 1024 c.length)) })
  | _, _ => (-1, p)

/-! ### The functions of `text_editor2/file.c` -/

namespace TextEditor2

def save_func (fd : ℤ) (p : Proc) : Option Proc :=
  if p.buf.Term then some (close fd (write fd p.buf.str (lseek0 fd p))) else none

/-- `open_file` with the name typed into the local `file_name`. -/
def open_file (file_name : Buf UInt8 128) (name : Str) (p : Proc) : Option (ℤ × Proc) :=
  (file_name.put name).map fun f => openRead f.str p

/-- `write_func` with the text typed. -/
def write_func (text : Str) (fd : ℤ) (p : Proc) : Option Proc :=
  if fd ≤ 0 then some p
  else (p.buf.put text).map fun b => { p with buf := b }

end TextEditor2

/-! ### The functions of `text_editor/text_editor.c` -/

/-- The globals of an editor: the descriptor, and the rest. -/
structure State where
  fd : ℤ
  proc : Proc

namespace TextEditor

def save_func (s : State) : Option State :=
  (TextEditor2.save_func s.fd s.proc).map fun p => { s with proc := p }

/-- `open_func` with the name typed into the local `file_name`. -/
def open_func (file_name : Buf UInt8 128) (name : Str) (s : State) : Option State :=
  (TextEditor2.open_file file_name name s.proc).map fun r => ⟨r.1, r.2⟩

/-- `write_func` with the text typed. -/
def write_func (text : Str) (s : State) : Option State :=
  (TextEditor2.write_func text s.fd s.proc).map fun p => { s with proc := p }

end TextEditor

/-! ### Sessions -/

/-- The two programs. -/
inductive Program
  | text_editor
  | text_editor2
  deriving DecidableEq

/-- The keys, with what the user types after them and what the local array
`file_name` holds before. -/
inductive Key
  | f1 (file_name : Buf UInt8 128) (name : Str)
  | f2 (text : Str)
  | f3

/-- The `switch` in `main`. -/
def key : Program → State → Key → Option State
  | .text_editor, s, .f1 file_name name => TextEditor.open_func file_name name s
  | .text_editor, s, .f2 text => TextEditor.write_func text s
  | .text_editor, s, .f3 => TextEditor.save_func s
  | .text_editor2, s, .f1 file_name name =>
    (TextEditor2.open_file file_name name s.proc).map fun r => ⟨r.1, r.2⟩
  | .text_editor2, s, .f2 text =>
    (TextEditor2.write_func text s.fd s.proc).map fun p => { s with proc := p }
  | .text_editor2, s, .f3 => (TextEditor2.save_func s.fd s.proc).map fun p => { s with proc := p }

theorem key_eq (P : Program) : key P = key .text_editor2 := by
  funext s k
  cases P <;> cases k <;> rfl

/-- What the session is about: the file most recently opened with success, and
the text most recently entered with F2 since then. F2 takes a text only when
`fd` is above 0; else it asks for a file to be opened. -/
structure Typed where
  file : Option Str
  text : Option Str
  deriving DecidableEq

/-- What a key adds to it, in the state `s` before the key and `s'` after. -/
def typed (s s' : State) (t : Typed) : Key → Typed
  | .f1 _ name => if s'.fd = -1 then t else ⟨some name, none⟩
  | .f2 text => if s.fd ≤ 0 then t else { t with text := some text }
  | .f3 => t

/-- Before the first key: a terminal on the descriptors 0, 1 and 2. -/
def start (files : Str → Option Str) : State :=
  ⟨0, ⟨Buf.zeros UInt8 1024, fun n => if n < 3 then some .tty else none, files⟩⟩

/-- No NUL is typed. -/
def Key.Typable : Key → Prop
  | .f1 _ name => 0 ∉ name
  | .f2 text => 0 ∉ text
  | .f3 => True

instance (k : Key) : Decidable k.Typable := by
  cases k <;> unfold Key.Typable <;> infer_instance

/-- The sessions of an editor over any files. -/
def editor (P : Program) : System (State × Typed) Key where
  init c := ∃ files, c = (start files, ⟨none, none⟩)
  step c k := if k.Typable then (key P c.1 k).map fun s' => (s', typed c.1 s' c.2 k) else none

/-! ### What the system calls do -/

theorem overwrite_zero (c w : Str) : overwrite c 0 w = w ++ c.drop w.length := by
  simp [overwrite]

theorem overwrite_eq_iff {c w : Str} : overwrite c 0 w = w ↔ c.length ≤ w.length := by
  rw [overwrite_zero]
  simp

theorem overwrite_self_iff {c w : Str} : overwrite c 0 w = c ↔ w <+: c := by
  rw [overwrite_zero]
  constructor
  · exact fun h => ⟨_, h⟩
  · rintro ⟨r, rfl⟩
    simp

/-- The descriptor is open for the file. -/
def OpenFor (s : State) (f : Str) : Prop := ∃ offset, s.proc.look s.fd = some (.file f offset)

theorem look_eq_some {p : Proc} {fd : ℤ} {d : Desc} (h : p.look fd = some d) :
    0 ≤ fd ∧ p.fds fd.toNat = some d := by
  unfold Proc.look at h
  split at h
  · exact ⟨‹_›, h⟩
  · cases h

@[simp] theorem close_files (fd : ℤ) (p : Proc) : (close fd p).files = p.files := by
  unfold close; split <;> rfl

@[simp] theorem close_buf (fd : ℤ) (p : Proc) : (close fd p).buf = p.buf := by
  unfold close; split <;> rfl

theorem look_close (fd : ℤ) (p : Proc) : (close fd p).look fd = none := by
  unfold Proc.look close
  split <;> simp

@[simp] theorem write_buf (fd : ℤ) (w : Str) (p : Proc) : (write fd w p).buf = p.buf := by
  unfold write; split <;> rfl

@[simp] theorem lseek0_buf (fd : ℤ) (p : Proc) : (lseek0 fd p).buf = p.buf := by
  unfold lseek0; split <;> rfl

@[simp] theorem lseek0_files (fd : ℤ) (p : Proc) : (lseek0 fd p).files = p.files := by
  unfold lseek0; split <;> rfl

theorem look_lseek0_file {fd : ℤ} {p : Proc} {f : Str} {offset : ℕ}
    (h : p.look fd = some (.file f offset)) : (lseek0 fd p).look fd = some (.file f 0) := by
  have h0 := (look_eq_some h).1
  have he : lseek0 fd p = { p with fds := p.fds.put fd.toNat (.file f 0) } := by rw [lseek0, h]
  simp [he, Proc.look, h0]

theorem lseek0_of_not_file {fd : ℤ} {p : Proc} (h : ∀ f offset, p.look fd ≠ some (.file f offset)) :
    lseek0 fd p = p := by
  unfold lseek0
  split
  · exact absurd ‹_› (h _ _)
  · rfl

theorem write_files_of_not_file {fd : ℤ} {p : Proc} {w : Str}
    (h : ∀ f offset, p.look fd ≠ some (.file f offset)) : (write fd w p).files = p.files := by
  unfold write
  split
  · exact absurd ‹_› (h _ _)
  · rfl

/-! ### What a save does -/

/-- **A save** writes the buffer's text over the start of the file the
descriptor is open for, if it is open for one, and changes no other file; the
descriptor is closed afterwards. -/
theorem save_files {s s' : State} (h : key .text_editor2 s .f3 = some s') :
    s'.fd = s.fd ∧ s'.proc.buf = s.proc.buf ∧ s'.proc.look s'.fd = none ∧
    (∀ f, OpenFor s f → s'.proc.files =
      Function.update s.proc.files f ((s.proc.files f).map fun c => overwrite c 0 s.proc.buf.str)) ∧
    ((∀ f, ¬ OpenFor s f) → s'.proc.files = s.proc.files) := by
  simp only [key, TextEditor2.save_func] at h
  split at h
  · cases h
    refine ⟨rfl, by simp, look_close _ _, fun f ⟨offset, hf⟩ => ?_, fun hno => ?_⟩
    · have hl := look_lseek0_file hf
      simp [write, hl]
    · have hn : ∀ f offset, s.proc.look s.fd ≠ some (.file f offset) := fun f offset hf => hno f ⟨offset, hf⟩
      simp [lseek0_of_not_file hn, write_files_of_not_file hn]
  · cases h

/-! ### The invariant of every session -/

/-- The buffer holds a string, and it is the text entered since the last open;
the file opened last exists; a descriptor open for a file is open for that
one. -/
structure Inv (c : State × Typed) : Prop where
  term : c.1.proc.buf.Term
  text : ∀ t, c.2.text = some t → c.1.proc.buf.str = t
  file : ∀ f, c.2.file = some f → (c.1.proc.files f).isSome
  fd : ∀ f, OpenFor c.1 f → c.2.file = some f

theorem inv_start (files : Str → Option Str) : Inv (start files, ⟨none, none⟩) := by
  refine ⟨Buf.term_zeros (by decide), nofun, nofun, ?_⟩
  rintro f ⟨offset, h⟩
  simp [start, Proc.look] at h

theorem inv_save {c : State × Typed} {s' : State} (hI : Inv c)
    (h : key .text_editor2 c.1 .f3 = some s') : Inv (s', c.2) := by
  obtain ⟨hfd, hbuf, hlook, hopen, hshut⟩ := save_files h
  refine ⟨by rw [Buf.Term, hbuf]; exact hI.term, fun t ht => by rw [hbuf]; exact hI.text t ht, ?_, ?_⟩
  · intro f hf
    have := hI.file f hf
    by_cases hg : ∃ g, OpenFor c.1 g
    · obtain ⟨g, hg⟩ := hg
      rw [hopen g hg]
      by_cases hfg : f = g
      · subst hfg; simpa using this
      · rw [Function.update_of_ne hfg]; exact this
    · rw [hshut (not_exists.mp hg)]; exact this
  · rintro f ⟨offset, hf⟩
    rw [hlook] at hf; cases hf

theorem inv_write {c : State × Typed} {s' : State} {text : Str} (hI : Inv c) (h0 : 0 ∉ text)
    (h : key .text_editor2 c.1 (.f2 text) = some s') : Inv (s', typed c.1 s' c.2 (.f2 text)) := by
  simp only [key, TextEditor2.write_func] at h
  by_cases hle : c.1.fd ≤ 0
  · rw [if_pos hle] at h
    cases h
    simp only [typed, if_pos hle]
    exact hI
  · rw [if_neg hle] at h
    obtain ⟨p, hp, rfl⟩ := Option.map_eq_some_iff.mp h
    obtain ⟨b, hb, rfl⟩ := Option.map_eq_some_iff.mp hp
    obtain ⟨-, hstr, hterm⟩ := Buf.put_eq_some h0 hb
    simp only [typed, if_neg hle]
    exact ⟨hterm, fun t ht => by rw [← Option.some.inj ht]; exact hstr, hI.file, hI.fd⟩

theorem inv_open {c : State × Typed} {s' : State} {file_name : Buf UInt8 128} {name : Str} (hI : Inv c)
    (h0 : 0 ∉ name) (h : key .text_editor2 c.1 (.f1 file_name name) = some s') :
    Inv (s', typed c.1 s' c.2 (.f1 file_name name)) := by
  simp only [key, TextEditor2.open_file] at h
  obtain ⟨r, hr, rfl⟩ := Option.map_eq_some_iff.mp h
  obtain ⟨b, hb, rfl⟩ := Option.map_eq_some_iff.mp hr
  obtain ⟨-, hstr, -⟩ := Buf.put_eq_some h0 hb
  rw [hstr]
  -- an open that fails leaves everything and sets `fd` to -1
  by_cases hopen : ∃ s n, c.1.proc.files name = some s ∧ c.1.proc.fds.lowestFree openMax = some n
  · obtain ⟨s, n, hs, hn⟩ := hopen
    have hne : ((n : ℤ) = -1) = False := by simp
    simp only [openRead, hs, hn, typed, hne, ↓reduceIte]
    refine ⟨hI.term, nofun, fun f hf => ?_, ?_⟩
    · rw [← Option.some.inj hf]; simp [hs]
    · rintro f ⟨offset, hf⟩
      simp only [Proc.look, Int.natCast_nonneg, ↓reduceIte, Int.toNat_natCast, Fds.put_self,
        Option.some.injEq, Desc.file.injEq] at hf
      rw [hf.1]
  · have he : openRead name c.1.proc = (-1, c.1.proc) := by
      unfold openRead
      split
      · rename_i s n hs hn
        exact absurd ⟨s, n, hs, hn⟩ hopen
      · rfl
    simp only [he, typed, ↓reduceIte]
    refine ⟨hI.term, hI.text, hI.file, ?_⟩
    rintro f ⟨offset, hf⟩
    simp [Proc.look] at hf

theorem inv_step {P : Program} {c c' : State × Typed} {k : Key} (hI : Inv c)
    (h : (editor P).step c k = some c') : Inv c' := by
  simp only [editor, key_eq P] at h
  split at h
  · rename_i htyp
    obtain ⟨s', hs, rfl⟩ := Option.map_eq_some_iff.mp h
    cases k with
    | f1 file_name name => exact inv_open hI htyp hs
    | f2 text => exact inv_write hI htyp hs
    | f3 => exact inv_save hI hs
  · cases h

theorem inv_run {P : Program} {c : State × Typed} (h : (editor P).Reachable c) : Inv c :=
  h.invariant (I := Inv) (fun c hc => by obtain ⟨files, rfl⟩ := hc; exact inv_start files)
    fun _ _ _ hI _ hst => inv_step hI hst

/-! ### What a session stores -/

/-- The save will store `t` in the file `f`: the descriptor is open for it and
the file is no longer than `t`, or the descriptor is closed and the file holds
`t` already. -/
def Fitting (s : State) (f t : Str) : Prop :=
  (OpenFor s f → ∃ c, s.proc.files f = some c ∧ c.length ≤ t.length) ∧
  (¬ OpenFor s f → s.proc.files f = some t)

theorem exists_save {c : State × Typed} (hI : Inv c) (P : Program) :
    ∃ s', key P c.1 .f3 = some s' := by
  rw [key_eq P, key, TextEditor2.save_func, if_pos hI.term]
  exact ⟨_, rfl⟩

theorem save_typed_iff {c : State × Typed} {s' : State} {f t : Str} (hI : Inv c)
    (hf : c.2.file = some f) (ht : c.2.text = some t) (h : key .text_editor2 c.1 .f3 = some s') :
    s'.proc.files f = some t ↔ Fitting c.1 f t := by
  obtain ⟨-, -, -, hopen, hshut⟩ := save_files h
  obtain ⟨content, hc⟩ := Option.isSome_iff_exists.mp (hI.file f hf)
  by_cases ho : OpenFor c.1 f
  · rw [hopen f ho, Function.update_self, hc, Option.map_some, hI.text t ht, Option.some.injEq,
      overwrite_eq_iff]
    constructor
    · exact fun hle => ⟨fun _ => ⟨content, hc, hle⟩, fun hno => absurd ho hno⟩
    · rintro ⟨hfit, -⟩
      obtain ⟨content', hc', hle⟩ := hfit ho
      rw [hc] at hc'
      rwa [Option.some.inj hc']
  · have hno : ∀ g, ¬ OpenFor c.1 g := fun g hg => by
      have := hI.fd g hg
      rw [hf] at this
      exact ho (Option.some.inj this ▸ hg)
    rw [hshut hno]
    exact ⟨fun he => ⟨fun h => absurd h ho, fun _ => he⟩, fun hfit => hfit.2 ho⟩

/-- A save changes no file exactly when what is in the buffer stands at the
start of the file the descriptor is open for, if there is one. -/
theorem save_nothing_iff {c : State × Typed} {s' : State} (hI : Inv c)
    (h : key .text_editor2 c.1 .f3 = some s') :
    s'.proc.files = c.1.proc.files ↔
      ∀ f content, OpenFor c.1 f → c.1.proc.files f = some content → c.1.proc.buf.str <+: content := by
  obtain ⟨-, -, -, hopen, hshut⟩ := save_files h
  constructor
  · intro he f content ho hc
    rw [hopen f ho] at he
    have := congrFun he f
    rw [Function.update_self, hc, Option.map_some] at this
    exact overwrite_self_iff.mp (Option.some.inj this)
  · intro hpre
    by_cases hg : ∃ g, OpenFor c.1 g
    · obtain ⟨g, hg⟩ := hg
      obtain ⟨content, hc⟩ := Option.isSome_iff_exists.mp (hI.file g (hI.fd g hg))
      rw [hopen g hg, hc, Option.map_some, overwrite_self_iff.mpr (hpre g content hg hc), ← hc,
        Function.update_eq_self]
    · exact hshut (not_exists.mp hg)

/-- The states in which the session `ks` over `files` saves. -/
def SavesIn (P : Program) (files : Str → Option Str) (ks : List Key) (c : State × Typed) : Prop :=
  ∃ p, p ++ [.f3] <+: ks ∧ (editor P).run (start files, ⟨none, none⟩) p = some c

theorem SavesIn.inv {P : Program} {files : Str → Option Str} {ks : List Key} {c : State × Typed}
    (h : SavesIn P files ks c) : Inv c := by
  obtain ⟨p, -, hr⟩ := h
  exact inv_run (P := P) (.of_run ⟨files, rfl⟩ hr)

/-- After each save of the session, the file opened last holds the text
entered last, if there is one. -/
def SavesTyped (P : Program) (files : Str → Option Str) (ks : List Key) : Prop :=
  ∀ c, SavesIn P files ks c → ∃ s', key P c.1 .f3 = some s' ∧
    ∀ f t, c.2.file = some f → c.2.text = some t → s'.proc.files f = some t

/-- A save of the session with no text entered since the last open changes no
file. -/
def SavesNothing (P : Program) (files : Str → Option Str) (ks : List Key) : Prop :=
  ∀ c, SavesIn P files ks c → c.2.text = none →
    ∃ s', key P c.1 .f3 = some s' ∧ s'.proc.files = c.1.proc.files

/-- **What is saved is what was typed**, in both editors and every session,
exactly when at each save of an entered text that text fits. -/
theorem saves_typed_iff (P : Program) (files : Str → Option Str) (ks : List Key) :
    SavesTyped P files ks ↔ ∀ c, SavesIn P files ks c →
      ∀ f t, c.2.file = some f → c.2.text = some t → Fitting c.1 f t := by
  refine forall₂_congr fun c hc => ?_
  obtain ⟨s', hs⟩ := exists_save hc.inv P
  have hs2 : key .text_editor2 c.1 .f3 = some s' := key_eq P ▸ hs
  constructor
  · rintro ⟨s1, h1, hlaw⟩ f t hf ht
    rw [hs] at h1
    cases h1
    exact (save_typed_iff hc.inv hf ht hs2).mp (hlaw f t hf ht)
  · intro hfit
    exact ⟨s', hs, fun f t hf ht => (save_typed_iff hc.inv hf ht hs2).mpr (hfit f t hf ht)⟩

/-- **A save with nothing entered since the last open changes nothing**, in
both editors and every session, exactly when at each such save the buffer is
the start of the file the descriptor is open for, or it is open for none. -/
theorem saves_nothing_iff (P : Program) (files : Str → Option Str) (ks : List Key) :
    SavesNothing P files ks ↔ ∀ c, SavesIn P files ks c → c.2.text = none →
      ∀ f content, OpenFor c.1 f → c.1.proc.files f = some content → c.1.proc.buf.str <+: content := by
  refine forall₃_congr fun c hc _ => ?_
  obtain ⟨s', hs⟩ := exists_save hc.inv P
  have hs2 : key .text_editor2 c.1 .f3 = some s' := key_eq P ▸ hs
  constructor
  · rintro ⟨s1, h1, heq⟩
    rw [hs] at h1
    cases h1
    exact (save_nothing_iff hc.inv hs2).mp heq
  · intro hpre
    exact ⟨s', hs, (save_nothing_iff hc.inv hs2).mpr hpre⟩

/-! ### Two sessions that lose text -/

/-- The file `a` holds `hello`, the file `b` is empty. -/
def twoFiles : Str → Option Str := fun f =>
  if f = [97] then some [104, 101, 108, 108, 111] else if f = [98] then some [] else none

/-- F1 with a name typed. -/
def f1 (name : Str) : Key := .f1 (Buf.zeros UInt8 128) name

/-- `hi` saved over `hello` leaves `hillo`. -/
theorem old_tail_stays (P : Program) : ¬ SavesTyped P twoFiles [f1 [97], .f2 [104, 105], .f3] := by
  intro h
  have h1 : ((editor P).run (start twoFiles, ⟨none, none⟩) [f1 [97], .f2 [104, 105]]).map (·.2) =
      some ⟨some [97], some [104, 105]⟩ := by cases P <;> decide +kernel
  have h2 : ((editor P).run (start twoFiles, ⟨none, none⟩) [f1 [97], .f2 [104, 105]]).bind
      (fun c => (key P c.1 .f3).bind fun s' => s'.proc.files [97]) =
        some [104, 105, 108, 108, 111] := by cases P <;> decide +kernel
  obtain ⟨c, hc, hc2⟩ := Option.map_eq_some_iff.mp h1
  obtain ⟨s', hs, hlaw⟩ := h c ⟨[f1 [97], .f2 [104, 105]], List.prefix_refl _, hc⟩
  have := hlaw [97] [104, 105] (by rw [hc2]) (by rw [hc2])
  rw [hc, Option.bind_some, hs, Option.bind_some, this] at h2
  exact absurd h2 (by decide)

theorem not_saves_typed : ¬ ∀ P files ks, SavesTyped P files ks :=
  fun h => old_tail_stays .text_editor (h _ _ _)

/-- `hi` typed while `a` is open is saved into `b`, opened afterwards. -/
theorem text_carried (P : Program) :
    ¬ SavesNothing P twoFiles [f1 [97], .f2 [104, 105], f1 [98], .f3] := by
  intro h
  have h1 : ((editor P).run (start twoFiles, ⟨none, none⟩) [f1 [97], .f2 [104, 105], f1 [98]]).map
      (fun c => (c.2, c.1.proc.files [98])) = some (⟨some [98], none⟩, some []) := by
    cases P <;> decide +kernel
  have h2 : ((editor P).run (start twoFiles, ⟨none, none⟩) [f1 [97], .f2 [104, 105], f1 [98]]).bind
      (fun c => (key P c.1 .f3).bind fun s' => s'.proc.files [98]) = some [104, 105] := by
    cases P <;> decide +kernel
  obtain ⟨c, hc, hc2⟩ := Option.map_eq_some_iff.mp h1
  obtain ⟨htyped, hb⟩ := Prod.mk.inj hc2
  obtain ⟨s', hs, hsame⟩ := h c ⟨[f1 [97], .f2 [104, 105], f1 [98]], List.prefix_refl _, hc⟩
    (by rw [htyped])
  rw [hc, Option.bind_some, hs, Option.bind_some, hsame, hb] at h2
  exact absurd h2 (by decide)

theorem not_saves_nothing : ¬ ∀ P files ks, SavesNothing P files ks :=
  fun h => text_carried .text_editor (h _ _ _)

/-- `hello` typed over the empty file is what is saved. -/
example : ((editor .text_editor).run (start twoFiles, ⟨none, none⟩)
    [f1 [98], .f2 [104, 105], .f3]).bind (fun c => c.1.proc.files [98]) = some [104, 105] := by
  decide +kernel

end Editor
end Autumn
