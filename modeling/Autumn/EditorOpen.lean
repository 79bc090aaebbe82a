/-
# Opening files in the text editors (`text_editor`, `text_editor2`)

F1 puts the new descriptor over the old one in `fd`, which only a save closes: a
file that is opened and not saved before the next F1 costs a descriptor. When all are
in use, F1 fails and leaves -1 in `fd`; then there is none left that a save could
close. And F3 before any F1 closes descriptor 0, the terminal, after which no key is
read any more (`session`). So a file that exists can still be opened, by some keys,
exactly if the terminal is there, and a descriptor is free or that in `fd` is open; and
pressing F1 often enough ends it for good (`can_open_iff`).

What F1 shows is what `read` put into the local array `text`, up to a NUL; it
terminates nothing. A text that has been saved is shown as it was typed exactly if
there happens to be a NUL behind it, in the file if this was longer, else in the
array (`shows_saved_iff`).

Key definitions: `shown`, `Attached`, `session`, `Stuck`, `Below`.
Key theorems: `save_fds`, `stuck_key`, `attached_step`, `can_open_iff`,
`shows_saved_iff`.
-/
import Autumn.Editor

namespace Autumn
namespace Editor

/-- What `waddstr` shows after `read(fd, text, 1024)` of the contents: nothing that
can be told if there is no NUL in `text`. -/
def shown (text : Buf UInt8 1024) (content : Str) : Option Str :=
  let text := content.take 1024 ++ text.chars.drop content.length
  if 0 ∈ text then some (cstr text) else none

/-- The terminal is on descriptor 0. -/
def Attached (s : State) : Prop := s.proc.fds 0 = some .tty

instance (s : State) : Decidable (Attached s) := inferInstanceAs (Decidable (_ = _))

/-- The sessions of an editor at a terminal: `getch` reads keys from there, and fails
when it is closed. -/
def session (P : Program) : System (State × Typed) Key where
  init := (editor P).init
  step c k := if Attached c.1 then (editor P).step c k else none

/-- All descriptors are in use, and the one in `fd` is not open. -/
def Stuck (s : State) : Prop := (∀ n < openMax, s.proc.fds n ≠ none) ∧ s.proc.look s.fd = none

/-- No descriptor is over the limit. -/
def Below (s : State) : Prop := ∀ n, s.proc.fds n ≠ none → n < openMax

/-! ### The descriptors after a key -/

theorem lseek0_fds (fd : ℤ) (p : Proc) {m : ℕ} (h : fd ≠ m) : (lseek0 fd p).fds m = p.fds m := by
  unfold lseek0
  split
  · rename_i name offset hl
    have h0 := (look_eq_some hl).1
    exact Fds.put_ne _ _ (by omega)
  · rfl

theorem write_fds (fd : ℤ) (w : Str) (p : Proc) {m : ℕ} (h : fd ≠ m) : (write fd w p).fds m = p.fds m := by
  unfold write
  split
  · rename_i name offset hl
    have h0 := (look_eq_some hl).1
    exact Fds.put_ne _ _ (by omega)
  · rfl

theorem close_fds (fd : ℤ) (p : Proc) (m : ℕ) : (close fd p).fds m = if fd = m then none else p.fds m := by
  unfold close
  by_cases hm : fd = m
  · rw [if_pos hm, if_pos (by omega), hm]
    exact Fds.close_self _ _
  · rw [if_neg hm]
    split
    · exact Fds.close_ne _ (by omega)
    · rfl

/-- **A save** closes the descriptor in `fd`, and no other. -/
theorem save_fds {s t : State} (h : key .text_editor2 s .f3 = some t) :
    t.fd = s.fd ∧ ∀ m : ℕ, t.proc.fds m = if s.fd = m then none else s.proc.fds m := by
  obtain ⟨p, hp, rfl⟩ := Option.map_eq_some_iff.mp h
  rw [TextEditor2.save_func] at hp
  split at hp
  · cases hp
    refine ⟨rfl, fun m => ?_⟩
    rw [close_fds]
    split
    · rfl
    · rw [write_fds _ _ _ ‹_›, lseek0_fds _ _ ‹_›]
  · cases hp

theorem text_fds {s t : State} {text : Str} (h : key .text_editor2 s (.f2 text) = some t) :
    t.fd = s.fd ∧ t.proc.fds = s.proc.fds ∧ t.proc.files = s.proc.files := by
  obtain ⟨p, hp, rfl⟩ := Option.map_eq_some_iff.mp h
  rw [TextEditor2.write_func] at hp
  split at hp
  · cases hp
    exact ⟨rfl, rfl, rfl⟩
  · obtain ⟨b, -, rfl⟩ := Option.map_eq_some_iff.mp hp
    exact ⟨rfl, rfl, rfl⟩

theorem openRead_eq {name : Str} {p : Proc} {content : Str} {n : ℕ} (hc : p.files name = some content)
    (hn : p.fds.lowestFree openMax = some n) :
    openRead name p = ((n : ℤ), { p with fds := p.fds.put n (.file name (min 1024 content.length)) }) := by
  simp only [openRead, hc, hn]

theorem openRead_full {name : Str} {p : Proc} (hn : ∀ n < openMax, p.fds n ≠ none) : openRead name p = (-1, p) := by
  rw [openRead, Fds.lowestFree_eq_none_iff.mpr hn]
  cases p.files name <;> rfl

theorem open_eq (s : State) (file_name : Buf UInt8 128) {name : Str} (h0 : 0 ∉ name) (hlen : name.length < 128) :
    key .text_editor2 s (.f1 file_name name) = some ⟨(openRead name s.proc).1, (openRead name s.proc).2⟩ := by
  obtain ⟨b, hb, hstr, -⟩ := file_name.put_spec h0 hlen
  simp only [key, TextEditor2.open_file, hb, Option.map_some, hstr]

theorem open_cases {s t : State} {file_name : Buf UInt8 128} {name : Str}
    (h : key .text_editor2 s (.f1 file_name name) = some t) :
    (∃ f content n, s.proc.files f = some content ∧ s.proc.fds.lowestFree openMax = some n ∧
      t = ⟨n, { s.proc with fds := s.proc.fds.put n (.file f (min 1024 content.length)) }⟩) ∨ t = ⟨-1, s.proc⟩ := by
  simp only [key, TextEditor2.open_file] at h
  obtain ⟨r, hr, rfl⟩ := Option.map_eq_some_iff.mp h
  obtain ⟨b, -, rfl⟩ := Option.map_eq_some_iff.mp hr
  cases hc : s.proc.files b.str with
  | none =>
    right
    simp only [openRead, hc]
  | some content =>
    cases hn : s.proc.fds.lowestFree openMax with
    | none =>
      right
      rw [openRead_full (Fds.lowestFree_eq_none_iff.mp hn)]
    | some n =>
      left
      rw [openRead_eq hc hn]
      exact ⟨b.str, content, n, hc, rfl, rfl⟩

/-! ### The last descriptor -/

theorem look_natCast (p : Proc) (n : ℕ) : p.look n = p.fds n := if_pos (Int.natCast_nonneg n)

theorem look_eq_none_iff {p : Proc} {fd : ℤ} : p.look fd = none ↔ ∀ n : ℕ, fd = n → p.fds n = none := by
  constructor
  · rintro h n rfl
    rwa [look_natCast] at h
  · intro h
    unfold Proc.look
    split
    · exact h fd.toNat (by omega)
    · rfl

/-- **Once stuck, always stuck**, whatever key is pressed. -/
theorem stuck_key {s t : State} {k : Key} (hs : Stuck s) (h : key .text_editor2 s k = some t) : Stuck t := by
  obtain ⟨hfull, hlook⟩ := hs
  cases k with
  | f1 file_name name =>
    rcases open_cases h with ⟨f, content, n, -, hn, -⟩ | rfl
    · rw [Fds.lowestFree_eq_none_iff.mpr hfull] at hn
      cases hn
    · exact ⟨hfull, rfl⟩
  | f2 text =>
    obtain ⟨hfd, hfds, -⟩ := text_fds h
    refine ⟨fun n hn => by rw [hfds]; exact hfull n hn, look_eq_none_iff.mpr fun n hn => ?_⟩
    rw [hfds]
    exact look_eq_none_iff.mp hlook n (hfd.symm.trans hn)
  | f3 =>
    obtain ⟨hfd, hfds⟩ := save_fds h
    have hsame : ∀ n : ℕ, t.proc.fds n = s.proc.fds n := fun n => by
      rw [hfds]
      split
      · rename_i hn
        exact (look_eq_none_iff.mp hlook n hn).symm
      · rfl
    refine ⟨fun n hn => by rw [hsame]; exact hfull n hn, look_eq_none_iff.mpr fun n hn => ?_⟩
    rw [hsame]
    exact look_eq_none_iff.mp hlook n (hfd.symm.trans hn)

theorem below_key {s t : State} {k : Key} (hs : Below s) (h : key .text_editor2 s k = some t) : Below t := by
  intro m hm
  cases k with
  | f1 file_name name =>
    rcases open_cases h with ⟨f, content, n, -, hn, rfl⟩ | rfl
    · by_cases hmn : m = n
      · rw [hmn]
        exact (Fds.lowestFree_spec.mp hn).1
      · exact hs m (by rwa [← Fds.put_ne s.proc.fds (.file f (min 1024 content.length)) hmn])
    · exact hs m hm
  | f2 text =>
    rw [(text_fds h).2.1] at hm
    exact hs m hm
  | f3 =>
    rw [(save_fds h).2] at hm
    split at hm
    · exact absurd rfl hm
    · exact hs m hm

theorem exists_key {s t : State} {k : Key} (h : key .text_editor2 s k = some t) (f : Str) :
    (t.proc.files f).isSome = (s.proc.files f).isSome := by
  cases k with
  | f1 file_name name =>
    rcases open_cases h with ⟨g, content, n, -, -, rfl⟩ | rfl
    · rfl
    · rfl
  | f2 text => rw [(text_fds h).2.2]
  | f3 =>
    obtain ⟨-, -, -, hopen, hshut⟩ := save_files h
    by_cases hg : ∃ g, OpenFor s g
    · obtain ⟨g, hg⟩ := hg
      rw [hopen g hg]
      by_cases hfg : f = g
      · rw [hfg, Function.update_self, Option.isSome_map]
      · rw [Function.update_of_ne hfg]
    · rw [hshut (not_exists.mp hg)]

/-! ### Sessions -/

theorem step_key {P : Program} {c d : State × Typed} {k : Key} (h : (editor P).step c k = some d) :
    key .text_editor2 c.1 k = some d.1 ∧ k.Typable ∧ d.2 = typed c.1 d.1 c.2 k := by
  simp only [editor, key_eq P] at h
  split at h
  · obtain ⟨t, ht, rfl⟩ := Option.map_eq_some_iff.mp h
    exact ⟨ht, ‹_›, rfl⟩
  · cases h

theorem step_eq (P : Program) (c : State × Typed) {k : Key} {t : State} (hk : k.Typable)
    (h : key .text_editor2 c.1 k = some t) : (editor P).step c k = some (t, typed c.1 t c.2 k) := by
  simp only [editor, key_eq P, if_pos hk, h, Option.map_some]

theorem reachable_below {P : Program} {c : State × Typed} (h : (editor P).Reachable c) : Below c.1 := by
  apply h.invariant (I := fun c => Below c.1)
  · rintro _ ⟨files, rfl⟩ n hn
    by_contra hge
    exact hn (if_neg (by unfold openMax at hge; omega))
  · exact fun _ _ _ hI _ hst => below_key hI (step_key hst).1

theorem stuck_run {P : Program} {ks : List Key} {c d : State × Typed} (hs : Stuck c.1)
    (h : (editor P).run c ks = some d) : Stuck d.1 :=
  System.run_invariant (M := editor P) (I := fun c => Stuck c.1)
    (fun _ _ _ hI hst => stuck_key hI (step_key hst).1) hs h

/-! ### At a terminal -/

theorem session_step {P : Program} {c d : State × Typed} {k : Key} :
    (session P).step c k = some d ↔ Attached c.1 ∧ (editor P).step c k = some d := by
  simp only [session]
  split
  · rename_i ha
    rw [and_iff_right ha]
  · rename_i ha
    simp [ha]

theorem session_run {P : Program} : ∀ {ks : List Key} {c d : State × Typed}, (session P).run c ks = some d →
    (editor P).run c ks = some d
  | [], _, _, h => h
  | k :: ks, c, d, h => by
    rw [System.run_cons] at h ⊢
    obtain ⟨e, he, hr⟩ := Option.bind_eq_some_iff.mp h
    rw [(session_step.mp he).2]
    exact session_run hr

theorem session_reachable {P : Program} {c : State × Typed} (h : (session P).Reachable c) : (editor P).Reachable c := by
  induction h with
  | init h0 => exact .init h0
  | step _ _ hst ih => exact .step ih trivial (session_step.mp hst).2

/-- What holds at a terminal: `fd` is 0 only while nothing has been opened, and where
the terminal is closed, `fd` is too. -/
structure OnTerminal (s : State) : Prop where
  unopened : s.fd = 0 → s.proc.fds 3 = none
  shut : Attached s ∨ s.proc.look s.fd = none

theorem attached_open {s t : State} {file_name : Buf UInt8 128} {name : Str} (ha : Attached s)
    (h : key .text_editor2 s (.f1 file_name name) = some t) : Attached t ∧ t.fd ≠ 0 := by
  rcases open_cases h with ⟨f, content, n, -, hn, rfl⟩ | rfl
  · have hne : n ≠ 0 := by
      rintro rfl
      have hfree := (Fds.lowestFree_spec.mp hn).2.1
      rw [ha] at hfree
      cases hfree
    refine ⟨?_, fun h0 => hne (Int.ofNat_eq_zero.mp h0)⟩
    exact (Fds.put_ne _ _ hne.symm).trans ha
  · exact ⟨ha, show (-1 : ℤ) ≠ 0 by decide⟩

/-- **What a key does to the terminal**: only F3 with 0 in `fd` closes it. -/
theorem attached_step {s t : State} {k : Key} (ha : Attached s) (h3 : s.fd = 0 → s.proc.fds 3 = none)
    (h : key .text_editor2 s k = some t) : OnTerminal t ∧ (k = .f3 → s.fd ≠ 0 → Attached t) := by
  cases k with
  | f1 file_name name =>
    obtain ⟨hat, hne⟩ := attached_open ha h
    exact ⟨⟨fun h0 => absurd h0 hne, .inl hat⟩, nofun⟩
  | f2 text =>
    obtain ⟨hfd, hfds, -⟩ := text_fds h
    refine ⟨⟨fun h0 => ?_, .inl ?_⟩, nofun⟩
    · rw [hfds]
      exact h3 (hfd.symm.trans h0)
    · unfold Attached
      rw [hfds]
      exact ha
  | f3 =>
    obtain ⟨hfd, hfds⟩ := save_fds h
    have hkeeps : s.fd ≠ 0 → Attached t := fun hne => (hfds 0).trans ((if_neg hne).trans ha)
    refine ⟨⟨fun h0 => ?_, ?_⟩, fun _ => hkeeps⟩
    · have h0' : s.fd = 0 := hfd.symm.trans h0
      rw [hfds, if_neg (by omega)]
      exact h3 h0'
    · by_cases h0 : s.fd = 0
      · refine .inr (look_eq_none_iff.mpr fun n hn => ?_)
        rw [hfds, if_pos (hfd.symm.trans hn)]
      · exact .inl (hkeeps h0)

theorem reachable_onTerminal {P : Program} {c : State × Typed} (h : (session P).Reachable c) : OnTerminal c.1 := by
  apply h.invariant (I := fun c => OnTerminal c.1)
  · rintro _ ⟨files, rfl⟩
    exact ⟨fun _ => rfl, .inl rfl⟩
  · intro c k d hI _ hst
    obtain ⟨ha, hst⟩ := session_step.mp hst
    exact (attached_step ha hI.unopened (step_key hst).1).1

theorem opens_of_free (P : Program) (c : State × Typed) (file_name : Buf UInt8 128) {f : Str} (h0 : 0 ∉ f)
    (hlen : f.length < 128) (hf : (c.1.proc.files f).isSome) {m : ℕ} (hm : m < openMax) (hfree : c.1.proc.fds m = none) :
    ∃ n d, c.1.proc.fds.lowestFree openMax = some n ∧ (editor P).step c (.f1 file_name f) = some d ∧
      d.1.proc.fds n ≠ none ∧ (∀ i ≠ n, d.1.proc.fds i = c.1.proc.fds i) ∧ OpenFor d.1 f := by
  obtain ⟨content, hc⟩ := Option.isSome_iff_exists.mp hf
  obtain ⟨n, hn⟩ : ∃ n, c.1.proc.fds.lowestFree openMax = some n := by
    apply Option.ne_none_iff_exists'.mp
    intro hno
    exact Fds.lowestFree_eq_none_iff.mp hno m hm hfree
  have hkey := open_eq c.1 file_name h0 hlen
  rw [openRead_eq hc hn] at hkey
  refine ⟨n, _, hn, step_eq P c h0 hkey, by simp, fun i hi => Fds.put_ne _ _ hi, min 1024 content.length, ?_⟩
  exact (look_natCast _ n).trans (Fds.put_self _ _ _)

/-- The descriptors in use. -/
def held (s : State) : Finset ℕ := (Finset.range openMax).filter fun n => (s.proc.fds n).isSome

theorem mem_held {s : State} {n : ℕ} : n ∈ held s ↔ n < openMax ∧ s.proc.fds n ≠ none := by
  rw [held, Finset.mem_filter, Finset.mem_range, Option.isSome_iff_ne_none]

theorem card_held_le (s : State) : (held s).card ≤ openMax := by
  have h := Finset.card_filter_le (Finset.range openMax) fun n => (s.proc.fds n).isSome
  rwa [Finset.card_range] at h

theorem card_held_succ {s t : State} {n : ℕ} (hn : n < openMax) (hfree : s.proc.fds n = none)
    (hused : t.proc.fds n ≠ none) (hsame : ∀ i ≠ n, t.proc.fds i = s.proc.fds i) : (held t).card = (held s).card + 1 := by
  have hins : held t = insert n (held s) := by
    ext i
    rw [Finset.mem_insert, mem_held, mem_held]
    by_cases hi : i = n
    · simp [hi, hn, hused]
    · simp [hi, hsame i hi]
  rw [hins, Finset.card_insert_of_notMem fun hm => (mem_held.mp hm).2 hfree]

/-- Each F1 takes a descriptor, until the editor is stuck. -/
theorem fills (P : Program) (c : State × Typed) (ha : Attached c.1) (file_name : Buf UInt8 128) {f : Str} (h0 : 0 ∉ f)
    (hlen : f.length < 128) (hf : (c.1.proc.files f).isSome) : ∀ k, ∃ d,
    (session P).run c (List.replicate k (.f1 file_name f)) = some d ∧ Attached d.1 ∧ (d.1.proc.files f).isSome ∧
      (Stuck d.1 ∨ k ≤ (held d.1).card)
  | 0 => ⟨c, rfl, ha, hf, .inr (Nat.zero_le _)⟩
  | k + 1 => by
    obtain ⟨d, hr, had, hfd, hd⟩ := fills P c ha file_name h0 hlen hf k
    have hrun : ∀ e, (editor P).step d (.f1 file_name f) = some e →
        (session P).run c (List.replicate (k + 1) (.f1 file_name f)) = some e := fun e he => by
      rw [List.replicate_succ', System.run_concat, hr]
      exact session_step.mpr ⟨had, he⟩
    have hkey := open_eq d.1 file_name h0 hlen
    have hstep := step_eq P d (k := .f1 file_name f) h0 hkey
    by_cases hfull : ∀ n < openMax, d.1.proc.fds n ≠ none
    · refine ⟨_, hrun _ hstep, (attached_open had hkey).1, (exists_key hkey f).trans hfd, .inl ?_⟩
      rw [openRead_full hfull]
      exact ⟨hfull, rfl⟩
    · push Not at hfull
      obtain ⟨m, hm, hfree⟩ := hfull
      obtain ⟨n, e, hn, he, hused, hsame, -⟩ := opens_of_free P d file_name h0 hlen hfd hm hfree
      have hlow := Fds.lowestFree_spec.mp hn
      have hekey := (step_key he).1
      refine ⟨e, hrun e he, (attached_open had hekey).1, (exists_key hekey f).trans hfd, .inr ?_⟩
      rcases hd with hs | hle
      · exact absurd hlow.2.1 (hs.1 n hlow.1)
      · rw [card_held_succ hlow.1 hlow.2.1 hused hsame]
        exact Nat.succ_le_succ hle

/-- Where the terminal is there and the editor not stuck, some keys open the file. -/
theorem exists_opens (P : Program) {c : State × Typed} (h : (session P).Reachable c) (ha : Attached c.1)
    (hs : ¬ Stuck c.1) (file_name : Buf UInt8 128) {f : Str} (h0 : 0 ∉ f) (hlen : f.length < 128)
    (hf : (c.1.proc.files f).isSome) : ∃ ks d, (session P).run c ks = some d ∧ OpenFor d.1 f := by
  by_cases hfull : ∀ n < openMax, c.1.proc.fds n ≠ none
  · -- a save makes room, and does not close the terminal
    obtain ⟨n, hfd, hn⟩ : ∃ n : ℕ, c.1.fd = n ∧ c.1.proc.fds n ≠ none := by
      by_contra hno
      push Not at hno
      exact hs ⟨hfull, look_eq_none_iff.mpr hno⟩
    have hI := reachable_onTerminal h
    have hne : c.1.fd ≠ 0 := fun hzero => hfull 3 (by decide) (hI.unopened hzero)
    have he := session_reachable h
    obtain ⟨s, hsave⟩ := exists_save (inv_run he) .text_editor2
    have hfree : s.proc.fds n = none := by rw [(save_fds hsave).2, if_pos hfd]
    have hstep := step_eq P c (k := .f3) trivial hsave
    have has : Attached s := (attached_step ha hI.unopened hsave).2 rfl hne
    obtain ⟨-, d, -, hd, -, -, ho⟩ := opens_of_free P (s, typed c.1 s c.2 .f3) file_name h0 hlen
      ((exists_key hsave f).trans hf) (reachable_below he n hn) hfree
    refine ⟨[.f3, .f1 file_name f], d, ?_, ho⟩
    rw [System.run_cons, session_step.mpr ⟨ha, hstep⟩, Option.bind_some, System.run_single]
    exact session_step.mpr ⟨has, hd⟩
  · push Not at hfull
    obtain ⟨m, hm, hfree⟩ := hfull
    obtain ⟨-, d, -, hd, -, -, ho⟩ := opens_of_free P c file_name h0 hlen hf hm hfree
    exact ⟨[.f1 file_name f], d, (System.run_single _ _ _).trans (session_step.mpr ⟨ha, hd⟩), ho⟩

/-- **Whether a file can still be opened**, from any state of a session at a terminal:
exactly if the terminal is there and the editor not stuck, which it is after F1 often
enough. -/
theorem can_open_iff (P : Program) (c : State × Typed) (h : (session P).Reachable c) (file_name : Buf UInt8 128)
    (f : Str) (h0 : 0 ∉ f) (hlen : f.length < 128) (hf : (c.1.proc.files f).isSome) :
    ((∃ ks d, (session P).run c ks = some d ∧ OpenFor d.1 f) ↔ Attached c.1 ∧ ¬ Stuck c.1) ∧
    (Attached c.1 →
      ∃ d, (session P).run c (List.replicate (openMax + 1) (.f1 file_name f)) = some d ∧ Stuck d.1) := by
  refine ⟨⟨?_, fun ⟨ha, hs⟩ => exists_opens P h ha hs file_name h0 hlen hf⟩, fun ha => ?_⟩
  · rintro ⟨ks, d, hr, offset, ho⟩
    constructor
    · by_contra ha
      cases ks with
      | nil =>
        obtain rfl : c = d := Option.some.inj hr
        rw [(reachable_onTerminal h).shut.resolve_left ha] at ho
        cases ho
      | cons k ks =>
        obtain ⟨e, he, -⟩ := Option.bind_eq_some_iff.mp hr
        exact ha (session_step.mp he).1
    · intro hs
      rw [(stuck_run hs (session_run hr)).2] at ho
      cases ho
  · obtain ⟨d, hr, -, -, hs | hle⟩ := fills P c ha file_name h0 hlen hf (openMax + 1)
    · exact ⟨d, hr, hs⟩
    · exact absurd (hle.trans (card_held_le d.1)) (Nat.not_succ_le_self _)

/-- At the start the empty file `b` can be opened; after F1 often enough, no file, nor
after F3. -/
theorem can_open_iff_start :
    (∃ ks d, (session .text_editor).run (start twoFiles, ⟨none, none⟩) ks = some d ∧ OpenFor d.1 [98]) ∧
    (∃ d, (session .text_editor).run (start twoFiles, ⟨none, none⟩) (List.replicate (openMax + 1) (f1 [98])) = some d ∧
      Stuck d.1) ∧
    ∃ d, (session .text_editor).run (start twoFiles, ⟨none, none⟩) [.f3] = some d ∧
      ¬ ∃ ks e, (session .text_editor).run d ks = some e ∧ OpenFor e.1 [98] := by
  obtain ⟨hopen, hstuck⟩ := can_open_iff .text_editor (start twoFiles, ⟨none, none⟩) (.init ⟨twoFiles, rfl⟩)
    (Buf.zeros UInt8 128) [98] (by decide) (by decide) rfl
  have hrun : ∃ d, (session .text_editor).run (start twoFiles, ⟨none, none⟩) [.f3] = some d ∧
      d.1.proc.fds 0 = none ∧ (d.1.proc.files [98]).isSome := ⟨_, rfl, rfl, rfl⟩
  obtain ⟨d, hd, hshut, hf⟩ := hrun
  have hreach := System.Reachable.of_run (M := session .text_editor) ⟨twoFiles, rfl⟩ hd
  refine ⟨hopen.mpr ⟨rfl, fun hs => hs.1 3 (by decide) rfl⟩, hstuck rfl, d, hd, fun h => ?_⟩
  have ha := ((can_open_iff .text_editor d hreach (Buf.zeros UInt8 128) [98] (by decide) (by decide) hf).1.mp h).1
  rw [Attached, hshut] at ha
  cases ha

/-! ### What is shown of a saved text -/

/-- The name of the file opened last fits the array it was typed into. -/
theorem reachable_name {P : Program} {c : State × Typed} (h : (editor P).Reachable c) :
    ∀ f, c.2.file = some f → 0 ∉ f ∧ f.length < 128 := by
  apply h.invariant (I := fun c => ∀ f, c.2.file = some f → 0 ∉ f ∧ f.length < 128)
  · rintro _ ⟨files, rfl⟩ f hf
    cases hf
  · intro c k d hI _ hst f hf
    obtain ⟨hkey, hk, htyped⟩ := step_key hst
    rw [htyped] at hf
    cases k with
    | f1 file_name name =>
      rw [typed] at hf
      split at hf
      · exact hI f hf
      · obtain rfl := Option.some.inj hf
        simp only [key, TextEditor2.open_file] at hkey
        obtain ⟨r, hr, -⟩ := Option.map_eq_some_iff.mp hkey
        obtain ⟨b, hb, -⟩ := Option.map_eq_some_iff.mp hr
        exact ⟨hk, (Buf.put_eq_some hk hb).1⟩
    | f2 text =>
      rw [typed] at hf
      split at hf
      · exact hI f hf
      · exact hI f hf
    | f3 => exact hI f hf

theorem shown_eq_iff (text : Buf UInt8 1024) {t : Str} (h0 : 0 ∉ t) (hlen : t.length < 1024) (r : Str) :
    shown text (t ++ r) = some t ↔ if r = [] then text.chars[t.length]? = some 0 else r.head? = some 0 := by
  obtain ⟨k, hk⟩ : ∃ k, 1024 - t.length = k + 1 := ⟨1023 - t.length, by omega⟩
  have htake : (t ++ r).take 1024 = t ++ r.take (k + 1) := by
    rw [List.take_append, List.take_of_length_le hlen.le, hk]
  have hshown : ∀ z : Str,
      (if (0 : UInt8) ∈ t ++ z then some (cstr (t ++ z)) else none) = some t ↔ z.head? = some 0 := by
    intro z
    rw [cstr_append h0]
    cases z with
    | nil => simp [h0]
    | cons x z =>
      by_cases hx : x = 0
      · simp [hx]
      · simp [hx, cstr_cons hx]
  have heq : shown text (t ++ r) = if (0 : UInt8) ∈ t ++ (r.take (k + 1) ++ text.chars.drop (t ++ r).length) then
      some (cstr (t ++ (r.take (k + 1) ++ text.chars.drop (t ++ r).length))) else none := by
    rw [shown, htake, List.append_assoc]
  rw [heq, hshown]
  cases r with
  | nil => rw [if_pos rfl, List.take_nil, List.nil_append, List.append_nil, List.head?_drop]
  | cons x r => rfl

/-- **What is saved and opened again**, in any state of a session in which a text has
been entered and its file is open: the file is open once more, and the text is shown
as it was typed exactly if there is a NUL behind it. -/
theorem shows_saved_iff (P : Program) (c : State × Typed) (h : (editor P).Reachable c) (f t content : Str)
    (ho : OpenFor c.1 f) (ht : c.2.text = some t) (hc : c.1.proc.files f = some content) (file_name : Buf UInt8 128)
    (text : Buf UInt8 1024) : ∃ d, (editor P).run c [.f3, .f1 file_name f] = some d ∧ OpenFor d.1 f ∧
      d.1.proc.files f = some (overwrite content 0 t) ∧ (shown text (overwrite content 0 t) = some t ↔
        if content.length ≤ t.length then text.chars[t.length]? = some 0 else content[t.length]? = some 0) := by
  have hI := inv_run h
  obtain ⟨h0, hlen⟩ := reachable_name h f (hI.fd f ho)
  obtain ⟨s, hsave⟩ := exists_save hI .text_editor2
  obtain ⟨-, -, -, hopen, -⟩ := save_files hsave
  obtain ⟨offset, hlook⟩ := ho
  obtain ⟨hnonneg, hn⟩ := look_eq_some hlook
  have hfree : s.proc.fds c.1.fd.toNat = none := by rw [(save_fds hsave).2, if_pos (by omega)]
  have hfiles : s.proc.files f = some (overwrite content 0 t) := by
    rw [hopen f ⟨offset, hlook⟩, Function.update_self, hc, Option.map_some, hI.text t ht]
  obtain ⟨n, d, hlow, hd, -, -, hod⟩ := opens_of_free P (s, typed c.1 s c.2 .f3) file_name h0 hlen
    (by rw [hfiles]; rfl) (reachable_below h _ (by rw [hn]; simp)) hfree
  refine ⟨d, ?_, hod, ?_, ?_⟩
  · rw [System.run_cons, step_eq P c (k := .f3) trivial hsave, Option.bind_some, System.run_single]
    exact hd
  · have hkey := (step_key hd).1
    rw [open_eq s file_name h0 hlen, openRead_eq hfiles hlow] at hkey
    rw [← Option.some.inj hkey]
    exact hfiles
  · have htext := hI.text t ht
    have ht0 : 0 ∉ t := htext ▸ Buf.str_nz _
    have htlen : t.length < 1024 := htext ▸ hI.term.length_lt
    rw [overwrite_zero, shown_eq_iff text ht0 htlen]
    simp only [List.drop_eq_nil_iff, List.head?_drop]

/-- `hi` saved in the empty file and opened again, with an array of zeros. -/
theorem shows_saved_iff_hi : ∃ c d, (editor .text_editor).run (start twoFiles, ⟨none, none⟩)
    [f1 [98], .f2 [104, 105]] = some c ∧ (editor .text_editor).run c [.f3, f1 [98]] = some d ∧
    (d.1.proc.files [98]).bind (shown (Buf.zeros UInt8 1024)) = some [104, 105] := by
  have h1 : ((editor .text_editor).run (start twoFiles, ⟨none, none⟩) [f1 [98], .f2 [104, 105]]).map
      (fun c => (c.2.text, c.1.proc.look c.1.fd, c.1.proc.files [98])) =
        some (some [104, 105], some (.file [98] 0), some []) := by decide +kernel
  obtain ⟨c, hc, hc2⟩ := Option.map_eq_some_iff.mp h1
  obtain ⟨htext, hrest⟩ := Prod.mk.inj hc2
  obtain ⟨hlook, hfile⟩ := Prod.mk.inj hrest
  obtain ⟨d, hd, -, hsaved, hshown⟩ := shows_saved_iff .text_editor c (.of_run ⟨twoFiles, rfl⟩ hc) [98] [104, 105] []
    ⟨0, hlook⟩ htext hfile (Buf.zeros UInt8 128) (Buf.zeros UInt8 1024)
  refine ⟨c, d, hc, hd, ?_⟩
  rw [hsaved]
  exact hshown.mpr (by decide)

end Editor
end Autumn
