/-
# The piping shell: what the parse writes

(`command_count.c`, `_command_.c`, `lexemes_count.c`, `param.c`.) The parse of
a line again, as the writes it makes: which entry of which array gets what.
Where the arrays of the two counting functions are zero behind what is copied
to them, the counts are the numbers of maximal runs of the line and of each
command, the writes are these runs in order, and NULL is behind the last word
(`parse_grammar`).

The line has at most 49 characters. That is less than the arrays for copies
and `argv` hold, but it can have more than ten commands: all writes stay inside
their arrays exactly if it has not (`inBounds_iff`). Where an array for a copy holds
no zero behind it, `strtok` reads on in the memory behind the array, up to the first
zero there, and the count is of all it has passed; where it finds none in all the
memory that can be read, the process ends in it.

Key definitions: `command_writes`, `param_writes`, `argvEntries`, `ZeroBehind`,
`Behind`, `parse_writes`, `InBounds`.
Key theorems: `command_writes_eq`, `param_writes_eq`, `command_writes_of_command`,
`param_writes_of_param`, `parse_grammar`, `count_tokens_extend`, `lexemes_writes_lt`,
`inBounds_iff`.
-/
import Autumn.Shell.LineByLine

namespace Autumn
namespace Shell

/-! ### The writes -/

/-- `command_path[i] = strdup(ptr)`, and whether `ptr` was never NULL. -/
def command_writes (s : Buf UInt8 512) (count : ℕ) : List (ℕ × List UInt8) × Bool :=
  storeTokens (fun _ ptr => ptr) (· == bar) count 0 (strtok (· == bar) (.start s.chars))

/-- What `param` stores at index `i`: `path` is put in front of the first token. -/
def param_entry (path : List UInt8) (i : ℕ) (ptr : List UInt8) : List UInt8 := if i = 0 then path ++ ptr else ptr

/-- `argv[i] = ...` for each token, and `argv[count] = NULL` if `ptr` was never
NULL before. -/
def param_writes (s path : List UInt8) (count : ℕ) : List (ℕ × Option (List UInt8)) × Bool :=
  let r := storeTokens (fun i ptr => some (param_entry path i ptr)) (· == space) count 0
    (strtok (· == space) (.start (s ++ [0])))
  (if r.2 then r.1 ++ [(count, none)] else r.1, r.2)

/-- The commands, one at each index from 0 on. -/
def commandEntries (ps : List (List UInt8)) : List (ℕ × List UInt8) := ps.zipIdx.map fun p => (p.2, p.1)

/-- The words of a command, one at each index, with `path` in front of the first
one. -/
def wordEntries (path : List UInt8) (ws : List (List UInt8)) : List (ℕ × Option (List UInt8)) :=
  ws.zipIdx.map fun p => (p.2, some (param_entry path p.2 p.1))

/-- The words of a command, and NULL behind them. -/
def argvEntries (path : List UInt8) (ws : List (List UInt8)) : List (ℕ × Option (List UInt8)) :=
  wordEntries path ws ++ [(ws.length, none)]

theorem commandEntries_fst (ps : List (List UInt8)) : (commandEntries ps).map Prod.fst = List.range ps.length := by
  rw [commandEntries, List.map_map, List.range_eq_range']
  exact List.zipIdx_map_snd 0 ps

theorem commandEntries_snd (ps : List (List UInt8)) : (commandEntries ps).map Prod.snd = ps := by
  rw [commandEntries, List.map_map]
  exact List.zipIdx_map_fst 0 ps

theorem wordEntries_fst (path : List UInt8) (ws : List (List UInt8)) :
    (wordEntries path ws).map Prod.fst = List.range ws.length := by
  rw [wordEntries, List.map_map, List.range_eq_range']
  exact List.zipIdx_map_snd 0 ws

theorem lt_of_mem_commandEntries {ps : List (List UInt8)} {p : ℕ × List UInt8} (h : p ∈ commandEntries ps) :
    p.1 < ps.length := by
  have hmem : p.1 ∈ (commandEntries ps).map Prod.fst := List.mem_map_of_mem h
  rwa [commandEntries_fst, List.mem_range] at hmem

/-- **What `_command_` writes.** -/
theorem command_writes_eq {line : Buf UInt8 512} (hl : line.Term) (count : ℕ) :
    command_writes line count =
      (commandEntries ((commands line.str).take count), decide (count ≤ (commands line.str).length)) :=
  storeTokens_eq (d := (· == bar)) rfl _ count 0 (t := .start line.chars) hl

/-- **What `param` writes.** -/
theorem param_writes_eq {s : List UInt8} (hs : (0 : UInt8) ∉ s) (path : List UInt8) (count : ℕ) :
    param_writes s path count = if count ≤ (lexemes s).length then (argvEntries path ((lexemes s).take count), true)
      else (wordEntries path (lexemes s), false) := by
  have hstr : cstr (s ++ [0]) = s := cstr_append_zero hs []
  have hstore := storeTokens_eq (d := (· == space)) rfl (fun i ptr => some (param_entry path i ptr)) count 0
    (t := Strtok.start (s ++ [0])) (by simp)
  rw [Strtok.rest_start, hstr, ← lexemes] at hstore
  rw [param_writes, hstore]
  by_cases hc : count ≤ (lexemes s).length
  · have hlen : ((lexemes s).take count).length = count := by rw [List.length_take, Nat.min_eq_left hc]
    simp only [hc, decide_true, if_true, argvEntries, wordEntries, hlen]
  · simp only [hc, decide_false, Bool.false_eq_true, if_false, wordEntries,
      List.take_of_length_le (by omega : (lexemes s).length ≤ count)]

theorem command_writes_of_command (line : Buf UInt8 512) (count : ℕ) :
    (_command_ line count).map Prod.fst = if count ≤ 10 ∧ (command_writes line count).2 = true then
      some ((command_writes line count).1.map Prod.snd) else none := by
  have htake := takeTokens_storeTokens (d := (· == bar)) count 0 (strtok (· == bar) (.start line.chars))
  unfold _command_ command_writes
  split
  · rename_i h10
    split
    · rename_i hnone
      rw [hnone, Option.map_none] at htake
      rw [Option.map_none]
      exact htake.trans (if_congr (and_iff_right h10).symm rfl rfl)
    · rename_i r hsome
      rw [hsome, Option.map_some] at htake
      rw [Option.map_some]
      exact htake.trans (if_congr (and_iff_right h10).symm rfl rfl)
  · rename_i h10
    rw [if_neg (fun h => h10 h.1), Option.map_none]

theorem entries_behind (path : List UInt8) {i : ℕ} (hi : 0 < i) (ws : List (List UInt8)) :
    ((ws.zipIdx i).map fun p => (p.2, some (param_entry path p.2 p.1))).filterMap Prod.snd = ws := by
  induction ws generalizing i with
  | nil => rfl
  | cons w ws ih =>
    have hw : param_entry path i w = w := if_neg hi.ne'
    rw [List.zipIdx_cons, List.map_cons, List.filterMap_cons, ih (Nat.succ_pos i)]
    simp only [hw]

theorem param_writes_of_param {s : List UInt8} (hs : (0 : UInt8) ∉ s) (path : List UInt8) (count : ℕ) :
    param s path count = if count < 256 ∧ (param_writes s path count).2 = true then
      some ((param_writes s path count).1.filterMap Prod.snd) else none := by
  have hstr : cstr (s ++ [0]) = s := cstr_append_zero hs []
  have htake := takeTokens_eq (d := (· == space)) rfl count (t := Strtok.start (s ++ [0])) (by simp)
  rw [Strtok.rest_start, hstr, ← lexemes] at htake
  rw [param, param_writes_eq hs]
  by_cases h256 : count < 256
  · by_cases hc : count ≤ (lexemes s).length
    · rw [if_pos hc] at htake ⊢
      obtain ⟨r, hr, hp⟩ := Option.map_eq_some_iff.mp htake
      rw [if_pos h256, if_pos ⟨h256, rfl⟩, hr, Option.map_some, hp, argvEntries, List.filterMap_append]
      rcases (lexemes s).take count with _ | ⟨w, ws⟩
      · rfl
      · rw [wordEntries, List.zipIdx_cons, List.map_cons, List.filterMap_cons,
          entries_behind path (Nat.succ_pos 0) ws]
        simp [param_entry]
    · rw [if_neg hc, Option.map_eq_none_iff] at htake
      rw [if_pos h256, htake, Option.map_none, if_neg hc, if_neg (by simp)]
  · rw [if_neg h256, if_neg (fun h => h256 h.1)]

/-! ### The reference grammar -/

/-- The arrays of the counting functions are zero behind what is copied to
them. -/
structure ZeroBehind (sc : Scratch) (line : List UInt8) : Prop where
  count : ∀ x ∈ sc.count.chars.drop line.length, x = 0
  lexemes : ∀ j w, (commands line)[j]? = some w → ∀ x ∈ (sc.lexemes j).chars.drop w.length, x = 0

/-- **The parse of a line is that of the reference grammar**, where the arrays
for the copies are zero behind them: both passes over the line, and over each
command, find the same maximal runs. -/
theorem parse_grammar (line : Buf UInt8 512) (hl : line.Term) (hlen : line.str.length ≤ 49) (sc : Scratch)
    (hz : ZeroBehind sc line.str) :
    ∃ ps, MaxRuns (· == bar) line.str ps ∧ command_count sc.count line.str = some ps.length ∧
      command_writes line ps.length = (commandEntries ps, true) ∧
      (_command_ line ps.length).map Prod.fst = (if ps.length ≤ 10 then some ps else none) ∧
      ∀ j w, ps[j]? = some w → ∃ ws, MaxRuns (· == space) w ws ∧
        lexemes_count (sc.lexemes j) w = some ws.length ∧
        param_writes w path ws.length = (argvEntries path ws, true) ∧
        param w path ws.length = some ((argvEntries path ws).filterMap Prod.snd) := by
  have hcommands : command_writes line (commands line.str).length = (commandEntries (commands line.str), true) := by
    rw [command_writes_eq hl, List.take_length, decide_eq_true le_rfl]
  refine ⟨commands line.str, maxRuns_iff.mpr rfl, ?_, hcommands, ?_,
    fun j w hj => ⟨lexemes w, maxRuns_iff.mpr rfl, ?_, ?_⟩⟩
  · have hlen' : line.str.length < sc.count.chars.length := by
      rw [sc.count.size]
      omega
    exact count_of_settles (d := (· == bar)) rfl line.str_nz (settles_of_zeros _ hlen' hz.count)
  · rw [command_writes_of_command, hcommands, commandEntries_snd]
    simp only [and_true]
  · have hw := List.mem_of_getElem? hj
    have hlen' : w.length < (sc.lexemes j).chars.length := by
      have := length_le_of_mem_pieces hw
      rw [(sc.lexemes j).size]
      omega
    exact count_of_settles (d := (· == space)) rfl (zero_not_mem_commands line.str_nz w hw)
      (settles_of_zeros _ hlen' (hz.lexemes j w hj))
  · have hw := zero_not_mem_commands line.str_nz w (List.mem_of_getElem? hj)
    have hwords : param_writes w path (lexemes w).length = (argvEntries path (lexemes w), true) := by
      rw [param_writes_eq hw, if_pos le_rfl, List.take_length]
    have hle : (lexemes w).length ≤ line.str.length :=
      (length_pieces_le_length w).trans (length_le_of_mem_pieces (List.mem_of_getElem? hj))
    refine ⟨hwords, ?_⟩
    rw [param_writes_of_param hw, hwords, if_pos ⟨by omega, rfl⟩]

theorem zeroBehind_cleared (c : List UInt8) : ZeroBehind cleared c where
  count := fun _ hx => List.eq_of_mem_replicate (List.mem_of_mem_drop hx)
  lexemes := fun _ _ _ _ hx => List.eq_of_mem_replicate (List.mem_of_mem_drop hx)

/-- `| ls  -l||wc|`, with spaces and bars in excess. -/
def padded : List UInt8 := [124, 32, 108, 115, 32, 32, 45, 108, 124, 124, 119, 99, 124]

theorem parse_grammar_padded : ∃ line : Buf UInt8 512, line.str = padded ∧
    ∃ ps, MaxRuns (· == bar) line.str ps ∧ command_count cleared.count line.str = some ps.length ∧
      command_writes line ps.length = (commandEntries ps, true) ∧
      (_command_ line ps.length).map Prod.fst = (if ps.length ≤ 10 then some ps else none) ∧
      ∀ j w, ps[j]? = some w → ∃ ws, MaxRuns (· == space) w ws ∧
        lexemes_count (cleared.lexemes j) w = some ws.length ∧
        param_writes w path ws.length = (argvEntries path ws, true) ∧
        param w path ws.length = some ((argvEntries path ws).filterMap Prod.snd) := by
  obtain ⟨line, -, hs, ht⟩ := (Buf.zeros UInt8 512).put_spec (w := padded) (by decide) (by decide)
  have hlen : line.str.length ≤ 49 := by
    rw [hs]
    decide
  exact ⟨line, hs, parse_grammar line ht hlen cleared (zeroBehind_cleared _)⟩

/-! ### Where the writes are -/

/-- The arrays the parse writes to. -/
inductive Arr
  | count_buf
  | command_path
  | lexemes_buf
  | argv
  deriving DecidableEq, Repr

/-- Their sizes, as declared. -/
def Arr.size : Arr → ℕ
  | .count_buf => 512
  | .command_path => 10
  | .lexemes_buf => 50
  | .argv => 256

/-- `strncpy(buf, s, strlen(s))` -/
def copy_writes (a : Arr) (s : List UInt8) : List (Arr × ℕ) := (List.range s.length).map fun i => (a, i)

/-- The memory behind the arrays of `command_count` and of `lexemes_count`, as far as
it can be read. -/
structure Behind where
  count : List UInt8
  lexemes : ℕ → List UInt8

/-- `command_count(s)`, when `strtok` can read on behind the array. -/
def command_count_on (sc : Scratch) (mem : Behind) (s : List UInt8) : Option ℕ :=
  count_tokens (· == bar) (sc.count.extend mem.count) s

/-- `lexemes_count(s)` of the `j`-th command. -/
def lexemes_count_on (sc : Scratch) (mem : Behind) (j : ℕ) (s : List UInt8) : Option ℕ :=
  count_tokens (· == space) ((sc.lexemes j).extend (mem.lexemes j)) s

/-- `lexemes_count` and `param` for the commands from the `j`-th on. Nothing follows
when a NULL is copied, or when `strtok` has come to the end of the memory. -/
def lexemes_writes (sc : Scratch) (mem : Behind) : ℕ → List (List UInt8) → List (Arr × ℕ)
  | _, [] => []
  | j, s :: ss =>
    copy_writes .lexemes_buf s ++
      match lexemes_count_on sc mem j s with
      | none => []
      | some l_count =>
        (param_writes s path l_count).1.map (fun p => (.argv, p.1)) ++
          if (param_writes s path l_count).2 then lexemes_writes sc mem (j + 1) ss else []

/-- `command_count` and `_command_` for the line, and then its commands. -/
def parse_writes (sc : Scratch) (mem : Behind) (line : Buf UInt8 512) : List (Arr × ℕ) :=
  copy_writes .count_buf line.str ++
    match command_count_on sc mem line.str with
    | none => []
    | some p_count =>
      (command_writes line p_count).1.map (fun p => (.command_path, p.1)) ++
        if (command_writes line p_count).2 then
          lexemes_writes sc mem 0 ((command_writes line p_count).1.map Prod.snd)
        else []

/-- Every index written is one of its array. -/
def InBounds (sc : Scratch) (mem : Behind) (line : Buf UInt8 512) : Prop :=
  ∀ w ∈ parse_writes sc mem line, w.2 < w.1.size

/-- A count that ends in its array is the same with any memory behind it. -/
theorem count_tokens_extend {n : ℕ} {d : UInt8 → Bool} (hd : d 0 = false) {buf : Buf UInt8 n} {s : List UInt8}
    (hs : (0 : UInt8) ∉ s) {k : ℕ} (h : count_tokens d buf s = some k) (l : List UInt8) :
    count_tokens d (buf.extend l) s = some k := by
  obtain ⟨h0, hk⟩ := (count_tokens_spec hd hs).mp h
  have hle : s.length ≤ buf.chars.length := by
    have := List.length_pos_of_mem h0
    rw [List.length_drop] at this
    omega
  have hdrop : (buf.extend l).chars.drop s.length = buf.chars.drop s.length ++ l := List.drop_append_of_le_length hle
  refine (count_tokens_spec hd hs).mpr ⟨?_, ?_⟩
  · rw [hdrop]
    exact List.mem_append_left l h0
  · rw [hdrop, cstr_append_of_mem h0]
    exact hk

theorem copy_writes_lt {a : Arr} {s : List UInt8} (h : s.length ≤ a.size) :
    ∀ w ∈ copy_writes a s, w.2 < w.1.size := by
  intro w hw
  obtain ⟨i, hi, rfl⟩ := List.mem_map.mp hw
  exact (List.mem_range.mp hi).trans_le h

/-- The entries of `param`, the NULL with them, are no more than the characters
of the command and one. -/
theorem param_writes_lt {s : List UInt8} (hs : (0 : UInt8) ∉ s) (hlen : s.length ≤ 49) (count : ℕ) :
    ∀ p ∈ (param_writes s path count).1, p.1 < 256 := by
  have hwords : ∀ ws : List (List UInt8), ws.length ≤ 49 → ∀ p ∈ wordEntries path ws, p.1 < 49 := by
    intro ws hws p hp
    have hmem : p.1 ∈ (wordEntries path ws).map Prod.fst := List.mem_map_of_mem hp
    rw [wordEntries_fst, List.mem_range] at hmem
    omega
  have hle : (lexemes s).length ≤ 49 := (length_pieces_le_length s).trans hlen
  rw [param_writes_eq hs]
  intro p hp
  split at hp
  · have htake : ((lexemes s).take count).length ≤ 49 := (List.length_take_le' _ _).trans hle
    rcases List.mem_append.mp hp with hp | hp
    · exact (hwords _ htake p hp).trans (by decide)
    · rw [List.mem_singleton.mp hp]
      exact htake.trans_lt (by decide)
  · exact (hwords _ hle p hp).trans (by decide)

theorem lexemes_writes_lt (sc : Scratch) (mem : Behind) : ∀ (j : ℕ) {ss : List (List UInt8)},
    (∀ s ∈ ss, (0 : UInt8) ∉ s ∧ s.length ≤ 49) → ∀ w ∈ lexemes_writes sc mem j ss, w.2 < w.1.size
  | _, [], _, w, hw => absurd hw (by simp [lexemes_writes])
  | j, s :: ss, h, w, hw => by
    obtain ⟨h0, hlen⟩ := h s List.mem_cons_self
    rw [lexemes_writes] at hw
    rcases List.mem_append.mp hw with hw | hw
    · exact copy_writes_lt (by show s.length ≤ 50; omega) w hw
    · split at hw
      · cases hw
      · rename_i l_count _
        rcases List.mem_append.mp hw with hw | hw
        · obtain ⟨p, hp, rfl⟩ := List.mem_map.mp hw
          exact param_writes_lt h0 hlen l_count p hp
        · split at hw
          · exact lexemes_writes_lt sc mem (j + 1) (fun v hv => h v (List.mem_cons_of_mem s hv)) w hw
          · cases hw

theorem command_writes_counted {line : Buf UInt8 512} (hl : line.Term) {sc : Scratch} {mem : Behind} {k : ℕ}
    (hk : command_count_on sc mem line.str = some k) :
    (command_writes line k).1 = commandEntries (commands line.str) := by
  obtain ⟨-, rfl⟩ := (count_tokens_spec (d := (· == bar)) rfl line.str_nz).mp hk
  rw [command_writes_eq hl, List.take_of_length_le]
  exact length_pieces_le _ _

/-- The writes for a string of at most 49 characters are inside exactly if it has
at most ten commands, where its count comes to an end. -/
theorem inBounds_of_short (line : Buf UInt8 512) (hl : line.Term) (hlen : line.str.length ≤ 49) (sc : Scratch)
    (mem : Behind) : InBounds sc mem line ↔
      ((0 : UInt8) ∈ (sc.count.chars ++ mem.count).drop line.str.length → (commands line.str).length ≤ 10) := by
  constructor
  · intro h h0
    have hk : command_count_on sc mem line.str = some _ :=
      (count_tokens_spec (d := (· == bar)) rfl line.str_nz).mpr ⟨h0, rfl⟩
    by_contra hlong
    have hmem : 10 ∈ (commandEntries (commands line.str)).map Prod.fst := by
      rw [commandEntries_fst, List.mem_range]
      omega
    obtain ⟨p, hp, hp10⟩ := List.mem_map.mp hmem
    have hw : (Arr.command_path, p.1) ∈ parse_writes sc mem line := by
      rw [parse_writes, hk]
      refine List.mem_append_right _ (List.mem_append_left _ (List.mem_map.mpr ⟨p, ?_, rfl⟩))
      rw [command_writes_counted hl hk]
      exact hp
    have := h _ hw
    rw [hp10] at this
    exact absurd this (by decide)
  · intro h w hw
    rw [parse_writes] at hw
    rcases List.mem_append.mp hw with hw | hw
    · exact copy_writes_lt (by show line.str.length ≤ 512; omega) w hw
    · split at hw
      · cases hw
      · rename_i p_count hk
        rw [command_writes_counted hl hk] at hw
        have h10 := h ((count_tokens_spec (d := (· == bar)) rfl line.str_nz).mp hk).1
        rcases List.mem_append.mp hw with hw | hw
        · obtain ⟨p, hp, rfl⟩ := List.mem_map.mp hw
          exact (lt_of_mem_commandEntries hp).trans_le h10
        · split at hw
          · rw [commandEntries_snd] at hw
            refine lexemes_writes_lt sc mem 0 (fun v hv => ⟨zero_not_mem_commands line.str_nz v hv, ?_⟩) w hw
            exact (length_le_of_mem_pieces hv).trans hlen
          · cases hw

/-! ### The lines that are read -/

theorem length_nextRead_le : ∀ (k : ℕ) (input : List UInt8), (nextRead k input).1.length ≤ k
  | 0, _ => Nat.zero_le _
  | _ + 1, [] => Nat.zero_le _
  | k + 1, c :: input => by
    have ih := length_nextRead_le k input
    rw [nextRead]
    split
    · exact Nat.succ_le_succ (Nat.zero_le k)
    · exact Nat.succ_le_succ ih

theorem length_chomped_le (w : List UInt8) : (chomped w).length ≤ w.length := by
  rw [chomped]
  split
  · exact (List.dropLast_sublist w).length_le
  · exact le_rfl

theorem fgets_short {command b line : Buf UInt8 512} {input rest : List UInt8} (hin : input ≠ [])
    (hf : fgets 50 command input = some (b, rest)) (hc : chomp b = some line) :
    line.Term ∧ line.str.length ≤ 49 := by
  rw [fgets, if_neg hin] at hf
  obtain ⟨b', hput, hb⟩ := Option.map_eq_some_iff.mp hf
  rw [Prod.mk.injEq] at hb
  obtain ⟨rfl, -⟩ := hb
  have hchars := (Buf.store_spec.mp hput).2
  rw [List.take_zero, List.nil_append] at hchars
  have hlen : b'.str.length ≤ 49 := by
    rw [Buf.str, hchars, cstr_append_of_mem (by simp)]
    refine Nat.le_of_lt_succ ?_
    calc (cstr ((nextRead 49 input).1 ++ [0])).length < ((nextRead 49 input).1 ++ [0]).length :=
          length_cstr_lt (by simp)
      _ = (nextRead 49 input).1.length + 1 := by simp
      _ ≤ 49 + 1 := Nat.succ_le_succ (length_nextRead_le 49 input)
  have hb' : b'.Term ∧ b'.str ≠ [] := by
    by_contra hb
    rw [chomp, if_neg hb] at hc
    cases hc
  obtain ⟨line', hline, ht, hs⟩ := chomp_spec hb'.1 hb'.2
  rw [hc, Option.some.injEq] at hline
  subst hline
  exact ⟨ht, hs ▸ (length_chomped_le _).trans hlen⟩

/-- **All writes of the parse of a line that is read are inside their arrays
exactly if the line has at most ten commands**, where its count comes to an end in the
array or behind it. -/
theorem inBounds_iff {command b line : Buf UInt8 512} {input rest : List UInt8} (hin : input ≠ [])
    (hf : fgets 50 command input = some (b, rest)) (hc : chomp b = some line) (sc : Scratch) (mem : Behind) :
    InBounds sc mem line ↔
      ((0 : UInt8) ∈ (sc.count.chars ++ mem.count).drop line.str.length → (commands line.str).length ≤ 10) := by
  obtain ⟨hl, hlen⟩ := fgets_short hin hf hc
  exact inBounds_of_short line hl hlen sc mem

theorem reads_typed (command : Buf UInt8 512) {w : List UInt8} (hnl : newline ∉ w) (h0 : (0 : UInt8) ∉ w)
    (hlen : w.length < 49) : ReadsLine ⟨w ++ [newline], command⟩ w [] := by
  have hread := reads_nextRead command (nextRead_line (r := []) hnl hlen) (by simp)
    (by simpa [h0] using (by decide : (0 : UInt8) ≠ newline)) (by simp; omega)
  rwa [chomped_concat] at hread

/-- No memory behind the arrays. -/
def nothing : Behind := ⟨[], fun _ => []⟩

/-- `ls|wc` is read and parsed inside. -/
theorem inBounds_iff_listing : ∃ line : Buf UInt8 512, line.str = [108, 115, 124, 119, 99] ∧
    InBounds cleared nothing line := by
  obtain ⟨b, line, hf, hc, -, hs⟩ := reads_typed (Buf.zeros UInt8 512) (w := [108, 115, 124, 119, 99])
    (by decide) (by decide) (by decide)
  refine ⟨line, hs, (inBounds_iff (by simp) hf hc cleared nothing).mpr fun _ => ?_⟩
  rw [hs]
  decide

/-- `a|a|a|a|a|a|a|a|a|a|a`, eleven commands. -/
def eleven : List UInt8 :=
  [97, 124, 97, 124, 97, 124, 97, 124, 97, 124, 97, 124, 97, 124, 97, 124, 97, 124, 97, 124, 97]

/-- The eleventh command is stored behind `command_path`. -/
theorem eleventh_outside : ¬ ∀ (command b line : Buf UInt8 512) (input rest : List UInt8) (sc : Scratch) (mem : Behind),
    input ≠ [] → fgets 50 command input = some (b, rest) → chomp b = some line → InBounds sc mem line := by
  intro h
  obtain ⟨b, line, hf, hc, ht, hs⟩ := reads_typed (Buf.zeros UInt8 512) (w := eleven) (by decide) (by decide)
    (by decide)
  have hin := h (Buf.zeros UInt8 512) b line (eleven ++ [newline]) [] cleared nothing (by simp) hf hc
  have hlen : line.str.length ≤ 49 := by
    rw [hs]
    decide
  have h0 : (0 : UInt8) ∈ (cleared.count.chars ++ nothing.count).drop line.str.length := by
    rw [show nothing.count = [] from rfl, List.append_nil]
    exact (settles_zeros (· == bar) (n := 512) (by omega)).1
  have h10 := (inBounds_of_short line ht hlen cleared nothing).mp hin h0
  rw [hs] at h10
  exact absurd h10 (by decide)

end Shell
end Autumn
