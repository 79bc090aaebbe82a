/-
# The piping shell: one pipeline for each line (`main.c`)

A line of 49 characters or more takes several reads, and each read is a round
of its own (`cuts`); after the last line the rounds go on with what is left in
`command`. So the loop runs exactly one pipeline for each line with a command,
up to "exit", if and only if no read holds a part of its line's commands only,
the counts of all rounds settle, and there is an "exit" line or the leftover
runs nothing (`lineByLine_iff`).

The rounds over the lines are peeled off one read at a time (`runs_lines`).
That a line read in parts does not run as one pipeline is a matter of counting
characters: the parts that hold no command hold no character but `|`
(`pipelines_append_eq`).

Key definitions: `cuts`, `expected`, `LineByLine`, `Whole`, `Quiet`,
`leftover`, `Kept`.
Key theorems: `runs_end`, `runs_lines`, `whole_iff`, `lineByLine_iff`.
-/
import Autumn.Shell.Loop

namespace Autumn
namespace Shell

/-! ### The reads of the lines -/

/-- Lines without newlines and NULs in them. -/
def Text (L : List (List UInt8)) : Prop := ∀ w ∈ L, newline ∉ w ∧ (0 : UInt8) ∉ w

instance (L : List (List UInt8)) : Decidable (Text L) := inferInstanceAs (Decidable (∀ w ∈ L, _ ∧ _))

/-- What the reads of a line give: 49 characters each, and the last one fewer. -/
def cuts (w : List UInt8) : List (List UInt8) :=
  (List.range (w.length / 49 + 1)).map fun k => (w.drop (49 * k)).take 49

theorem cuts_short {w : List UInt8} (h : w.length < 49) : cuts w = [w] := by
  rw [cuts, Nat.div_eq_of_lt h]
  simp [List.take_of_length_le h.le]

theorem cuts_long {w : List UInt8} (h : 49 ≤ w.length) : cuts w = w.take 49 :: cuts (w.drop 49) := by
  have hk : w.length / 49 = (w.drop 49).length / 49 + 1 := by
    rw [List.length_drop]
    omega
  rw [cuts, hk, List.range_succ_eq_map, List.map_cons, List.map_map, cuts]
  congr 1
  refine List.map_congr_left fun k _ => ?_
  rw [Function.comp_apply, List.drop_drop, Nat.mul_succ, Nat.add_comm]

theorem flatten_cuts (w : List UInt8) : (cuts w).flatten = w := by
  induction hn : w.length using Nat.strongRecOn generalizing w with
  | ind n ih =>
    by_cases h : w.length < 49
    · rw [cuts_short h, List.flatten_singleton]
    · rw [cuts_long (by omega), List.flatten_cons,
        ih (w.drop 49).length (by rw [List.length_drop]; omega) _ rfl, List.take_append_drop]

/-- The reads of all lines. -/
def reads (L : List (List UInt8)) : List (List UInt8) := L.flatMap cuts

@[simp] theorem reads_nil : reads [] = [] := rfl

theorem reads_cons (w : List UInt8) (L : List (List UInt8)) : reads (w :: L) = cuts w ++ reads L :=
  List.flatMap_cons

theorem next_read {w : List UInt8} {L : List (List UInt8)} (hL : Text (w :: L)) :
    ∃ c L', reads (w :: L) = c :: reads L' ∧ Text L' ∧
      ∀ b, ReadsLine ⟨lines newline (w :: L), b⟩ c (lines newline L') := by
  obtain ⟨hnl, h0⟩ := hL w List.mem_cons_self
  have hL' : Text L := fun v hv => hL v (List.mem_cons_of_mem w hv)
  by_cases hlen : w.length < 49
  · refine ⟨w, L, by rw [reads_cons, cuts_short hlen]; rfl, hL', fun b => ?_⟩
    have hread := nextRead_line (r := lines newline L) hnl hlen
    rw [← lines_cons] at hread
    have hw0 : (0 : UInt8) ∉ w ++ [newline] := by simpa [h0] using (by decide : (0 : UInt8) ≠ newline)
    have := reads_nextRead b hread (by simp) hw0 (by simp; omega)
    rwa [chomped_concat] at this
  · have htake : (w.take 49).length = 49 := by
      rw [List.length_take]
      omega
    have hnl' : newline ∉ w.take 49 := fun h => hnl (List.mem_of_mem_take h)
    have hread : nextRead 49 (lines newline (w :: L)) = (w.take 49, lines newline (w.drop 49 :: L)) := by
      have h := nextRead_full (r := lines newline (w.drop 49 :: L)) hnl'
      rw [htake] at h
      rw [← h, lines_cons, lines_cons, ← List.append_assoc, List.take_append_drop]
    refine ⟨w.take 49, w.drop 49 :: L, ?_, ?_, fun b => ?_⟩
    · rw [reads_cons, reads_cons, cuts_long (by omega)]
      rfl
    · intro v hv
      rcases List.mem_cons.mp hv with rfl | hv
      · exact ⟨fun h => hnl (List.mem_of_mem_drop h), fun h => h0 (List.mem_of_mem_drop h)⟩
      · exact hL' v hv
    · have := reads_nextRead b hread (fun h => by simp [h] at htake) (fun h => h0 (List.mem_of_mem_take h))
        (by omega)
      rwa [chomped_of_not_mem hnl'] at this

/-! ### What the loop is to run -/

/-- The lines, or the reads, before the first "exit". -/
def untilExit (cs : List (List UInt8)) : List (List UInt8) := cs.takeWhile fun c => decide (c ≠ exitLine)

/-- The pipelines of lines, without the empty ones. -/
def pipelines (cs : List (List UInt8)) : List (List (List UInt8)) :=
  (cs.map commands).filter fun p => decide (p ≠ [])

/-- One pipeline for each line with a command, up to "exit". -/
def expected (L : List (List UInt8)) : List (List (List UInt8)) := pipelines (untilExit L)

/-- The shell, started with `command` in its buffer, runs the text line by line. -/
def LineByLine (env : ℕ → Scratch) (command : Buf UInt8 512) (L : List (List UInt8)) : Prop :=
  Runs env 0 ⟨lines newline L, command⟩ (expected L)

@[simp] theorem pipelines_nil : pipelines [] = [] := rfl

theorem pipelines_cons (c : List UInt8) (cs : List (List UInt8)) :
    pipelines (c :: cs) = pipeline (commands c) ++ pipelines cs := by
  rw [pipelines, List.map_cons, pipeline]
  by_cases h : commands c = []
  · rw [if_pos h, List.filter_cons_of_neg (by simp [h])]
    rfl
  · rw [if_neg h, List.filter_cons_of_pos (by simp [h])]
    rfl

theorem pipelines_append (cs ds : List (List UInt8)) :
    pipelines (cs ++ ds) = pipelines cs ++ pipelines ds := by
  rw [pipelines, List.map_append, List.filter_append]
  rfl

@[simp] theorem untilExit_nil : untilExit [] = [] := rfl

@[simp] theorem untilExit_exit (cs : List (List UInt8)) : untilExit (exitLine :: cs) = [] :=
  List.takeWhile_cons_of_neg (by simp)

theorem untilExit_cons {c : List UInt8} (h : c ≠ exitLine) (cs : List (List UInt8)) :
    untilExit (c :: cs) = c :: untilExit cs :=
  List.takeWhile_cons_of_pos (by simpa using h)

theorem untilExit_append {cs : List (List UInt8)} (h : exitLine ∉ cs) (ds : List (List UInt8)) :
    untilExit (cs ++ ds) = cs ++ untilExit ds := by
  refine List.takeWhile_append_of_pos fun c hc => ?_
  rw [decide_eq_true_iff]
  rintro rfl
  exact h hc

theorem untilExit_append_of_mem {cs : List (List UInt8)} (h : exitLine ∈ cs) (ds : List (List UInt8)) :
    untilExit (cs ++ ds) = untilExit cs := by
  induction cs with
  | nil => cases h
  | cons c cs ih =>
    by_cases hc : c = exitLine
    · rw [hc, List.cons_append, untilExit_exit, untilExit_exit]
    · rw [List.cons_append, untilExit_cons hc, untilExit_cons hc,
        ih ((List.mem_cons.mp h).resolve_left (Ne.symm hc))]

/-! ### The rounds at the end of the input -/

variable {env : ℕ → Scratch} {i : ℕ}

/-- The string in an array, if it ends there. -/
def held (b : Buf UInt8 512) : Option (List UInt8) := if b.Term then some b.str else none

/-- What the round after the last read finds in `command`. -/
def leftover (command : Buf UInt8 512) (cs : List (List UInt8)) : Option (List UInt8) :=
  match cs.getLast? with
  | none => held command
  | some c => some (firstToken (· == bar) c)

/-- The string `s`, read again in every round from `i` on, runs nothing: it is
"exit", or there is no command in it and all counts settle. -/
def Quiet (env : ℕ → Scratch) (i : ℕ) (s : List UInt8) : Prop :=
  s ≠ [] ∧ (chomped s = exitLine ∨
    chomped s ≠ [] ∧ commands (chomped s) = [] ∧ ∀ k ≥ i, Fair (env k) (chomped s))

theorem held_eq_some {b : Buf UInt8 512} {s : List UInt8} : held b = some s ↔ b.Term ∧ b.str = s := by
  by_cases h : b.Term <;> simp [held, h]

theorem pipeline_eq_nil {p : List (List UInt8)} : pipeline p = [] ↔ p = [] := by
  by_cases h : p = [] <;> simp [pipeline, h]

/-- A line without a command is all `|`: it is its own first token, and there
is no newline at its end. -/
theorem commandless {c : List UInt8} (h : commands c = []) : firstToken (· == bar) c = c ∧ chomped c = c := by
  have hall := pieces_eq_nil_iff.mp h
  refine ⟨firstToken_of_delims hall, chomped_of_not_mem fun hn => ?_⟩
  exact absurd (hall newline hn) (by decide)

/-- A round at the end of the input that runs nothing and does not leave finds
the same line again. -/
theorem runs_end_next {b : Buf UInt8 512} (h : Runs env i ⟨[], b⟩ []) (hne : chomped b.str ≠ exitLine) :
    b.Term ∧ b.str ≠ [] ∧ commands (chomped b.str) = [] ∧ Fair (env i) (chomped b.str) ∧
      ∃ b', Runs env (i + 1) ⟨[], b'⟩ [] ∧ b'.str = chomped b.str := by
  have hb : b.Term ∧ b.str ≠ [] := by
    by_contra hb
    exact not_runs_of_none (iteration_unread (env i) hb) h
  rcases runs_of_reads env i (reads_end hb.1 hb.2) with
    ⟨hexit, -⟩ | ⟨-, -, hno⟩ | ⟨-, hfair, b', -, hs', hruns⟩
  · exact absurd hexit hne
  · exact absurd h (hno [])
  · obtain ⟨ps', hps, h'⟩ := (hruns []).mp h
    obtain ⟨hp, rfl⟩ := List.append_eq_nil_iff.mp hps.symm
    have hcmd := pipeline_eq_nil.mp hp
    exact ⟨hb.1, hb.2, hcmd, hfair, b', h', by rw [hs', (commandless hcmd).1]⟩

theorem fair_of_runs_end : ∀ (k : ℕ) {i : ℕ} {b : Buf UInt8 512}, Runs env i ⟨[], b⟩ [] →
    chomped b.str ≠ exitLine → Fair (env (i + k)) (chomped b.str)
  | 0, _, _, h, hne => (runs_end_next h hne).2.2.2.1
  | k + 1, i, b, h, hne => by
    obtain ⟨-, -, hcmd, -, b', h', hs'⟩ := runs_end_next h hne
    have hsame : chomped b'.str = chomped b.str := by rw [hs', (commandless hcmd).2]
    have := fair_of_runs_end k h' (by rwa [hsame])
    rwa [hsame, show i + 1 + k = i + (k + 1) by omega] at this

theorem run_end_of_fair {c : List UInt8} (hne : c ≠ []) (hcmd : commands c = []) :
    ∀ (n : ℕ) {i : ℕ} {b : Buf UInt8 512}, b.Term → b.str ≠ [] → chomped b.str = c →
      (∀ k ≥ i, Fair (env k) c) → run env n i ⟨[], b⟩ = some []
  | 0, _, _, _, _, _, _ => rfl
  | n + 1, i, b, ht, hb, hc, hfair => by
    have hexit : c ≠ exitLine := by
      rintro rfl
      exact absurd hcmd (by decide)
    have hread := reads_end ht hb
    rw [hc] at hread
    obtain ⟨b', hrun, ht', hs'⟩ := iteration_ran hread hexit (hfair i le_rfl)
    rw [(commandless hcmd).1] at hs'
    have ih := run_end_of_fair hne hcmd n ht' (hs' ▸ hne) (by rw [hs', (commandless hcmd).2])
      fun k hk => hfair k (Nat.le_of_succ_le hk)
    rw [run, hrun]
    simp only [hcmd, ih, Option.map_some]
    rfl

/-- **At the end of the input** the loop runs nothing exactly if what is left
in `command` is quiet. -/
theorem runs_end {b : Buf UInt8 512} : Runs env i ⟨[], b⟩ [] ↔ ∃ s, held b = some s ∧ Quiet env i s := by
  constructor
  · intro h
    have hb : b.Term ∧ b.str ≠ [] := by
      by_contra hb
      exact not_runs_of_none (iteration_unread (env i) hb) h
    refine ⟨b.str, held_eq_some.mpr ⟨hb.1, rfl⟩, hb.2, ?_⟩
    by_cases hexit : chomped b.str = exitLine
    · exact .inl hexit
    · obtain ⟨-, -, hcmd, -, b', h', hs'⟩ := runs_end_next h hexit
      have hb' : b'.str ≠ [] := by
        intro hn
        exact not_runs_of_none (iteration_unread (env (i + 1)) fun hb => hb.2 hn) h'
      refine .inr ⟨hs' ▸ hb', hcmd, fun k hk => ?_⟩
      obtain ⟨d, rfl⟩ := Nat.exists_eq_add_of_le hk
      exact fair_of_runs_end d h hexit
  · rintro ⟨s, hs, hne, hquiet⟩
    obtain ⟨ht, rfl⟩ := held_eq_some.mp hs
    rcases hquiet with hexit | ⟨hc, hcmd, hfair⟩
    · have hread := reads_end ht hne
      rw [hexit] at hread
      exact (runs_of_exit (iteration_exit (env i) hread)).mpr rfl
    · exact ⟨0, fun n _ => run_end_of_fair hc hcmd n ht hne rfl hfair⟩

/-! ### The rounds over the lines -/

/-- The counts settle in the rounds that read `cs`, from round `i` on. -/
def FairFrom (env : ℕ → Scratch) (i : ℕ) (cs : List (List UInt8)) : Prop :=
  ∀ j c, cs[j]? = some c → Fair (env (i + j)) c

theorem fairFrom_nil : FairFrom env i [] := fun j c h => by simp at h

theorem fairFrom_cons {c : List UInt8} {cs : List (List UInt8)} :
    FairFrom env i (c :: cs) ↔ Fair (env i) c ∧ FairFrom env (i + 1) cs := by
  constructor
  · intro h
    refine ⟨h 0 c rfl, fun j v hv => ?_⟩
    rw [show i + 1 + j = i + (j + 1) by omega]
    exact h (j + 1) v hv
  · rintro ⟨h0, h⟩ j v hv
    cases j with
    | zero =>
      cases hv
      exact h0
    | succ j =>
      rw [show i + (j + 1) = i + 1 + j by omega]
      exact h j v hv

theorem leftover_cons (b : Buf UInt8 512) {b' : Buf UInt8 512} {c : List UInt8}
    (h : held b' = some (firstToken (· == bar) c)) (cs : List (List UInt8)) :
    leftover b (c :: cs) = leftover b' cs := by
  rw [leftover, leftover, List.getLast?_cons]
  cases cs.getLast? with
  | none => exact h.symm
  | some v => rfl

/-- A run over the lines is fair up to the first "exit". -/
theorem fairFrom_of_runs : ∀ (n : ℕ) {L : List (List UInt8)}, (reads L).length = n → Text L →
    ∀ {i : ℕ} {b : Buf UInt8 512} {ps}, Runs env i ⟨lines newline L, b⟩ ps →
      FairFrom env i (untilExit (reads L))
  | _, [], _, _, _, _, _, _ => fairFrom_nil
  | n, w :: L, hn, hL, i, b, ps, h => by
    obtain ⟨c, L', hreads, hL', hread⟩ := next_read hL
    rw [hreads] at hn ⊢
    rcases runs_of_reads env i (hread b) with
      ⟨rfl, -⟩ | ⟨-, -, hno⟩ | ⟨hne, hfair, b', -, -, hruns⟩
    · rw [untilExit_exit]
      exact fairFrom_nil
    · exact absurd h (hno ps)
    · obtain ⟨ps', -, h'⟩ := (hruns ps).mp h
      rw [untilExit_cons hne, fairFrom_cons]
      cases n with
      | zero => cases hn
      | succ n => exact ⟨hfair, fairFrom_of_runs n (Nat.succ.inj hn) hL' h'⟩

/-- **The rounds over the lines**, if they are fair, run the pipelines of the
reads up to the first "exit"; without one they go on with the leftover. -/
theorem runs_lines : ∀ (n : ℕ) {L : List (List UInt8)}, (reads L).length = n → Text L →
    ∀ {i : ℕ} (b : Buf UInt8 512), FairFrom env i (untilExit (reads L)) →
      ∃ b', held b' = leftover b (untilExit (reads L)) ∧ ∀ ps, Runs env i ⟨lines newline L, b⟩ ps ↔
        ∃ ps', ps = pipelines (untilExit (reads L)) ++ ps' ∧
          if exitLine ∈ reads L then ps' = [] else Runs env (i + (untilExit (reads L)).length) ⟨[], b'⟩ ps'
  | _, [], _, _, _, b, _ => ⟨b, rfl, fun ps => by simp⟩
  | n, w :: L, hn, hL, i, b, hfair => by
    obtain ⟨c, L', hreads, hL', hread⟩ := next_read hL
    rw [hreads] at hn hfair ⊢
    rcases runs_of_reads env i (hread b) with
      ⟨rfl, hruns⟩ | ⟨hne, hno, -⟩ | ⟨hne, -, b1, ht, hs, hruns⟩
    · refine ⟨b, by rw [untilExit_exit]; rfl, fun ps => ?_⟩
      rw [hruns, untilExit_exit]
      simp
    · rw [untilExit_cons hne, fairFrom_cons] at hfair
      exact absurd hfair.1 hno
    · rw [untilExit_cons hne] at hfair ⊢
      cases n with
      | zero => cases hn
      | succ n =>
        obtain ⟨b', hb', hruns'⟩ := runs_lines n (Nat.succ.inj hn) hL' b1 (fairFrom_cons.mp hfair).2
        refine ⟨b', hb'.trans (leftover_cons b (held_eq_some.mpr ⟨ht, hs⟩) _).symm, fun ps => ?_⟩
        have hmem : exitLine ∈ c :: reads L' ↔ exitLine ∈ reads L' := by simp [Ne.symm hne]
        have hlen : i + (c :: untilExit (reads L')).length = i + 1 + (untilExit (reads L')).length := by
          rw [List.length_cons]
          omega
        simp only [hruns, hruns', hmem, hlen, pipelines_cons, List.append_assoc]
        constructor
        · rintro ⟨_, rfl, ps', rfl, h⟩
          exact ⟨ps', rfl, h⟩
        · rintro ⟨ps', rfl, h⟩
          exact ⟨_, rfl, ps', rfl, h⟩

/-! ### Lines read in parts -/

/-- The characters of `cs` that belong to commands. -/
def chars (cs : List (List UInt8)) : ℕ := (cs.flatten.filter fun c => !(c == bar)).length

theorem length_flatten_commands (c : List UInt8) : (commands c).flatten.length = chars [c] := by
  rw [commands, flatten_pieces, chars, List.flatten_singleton]

theorem chars_append (cs ds : List (List UInt8)) : chars (cs ++ ds) = chars cs + chars ds := by
  rw [chars, List.flatten_append, List.filter_append, List.length_append]
  rfl

theorem chars_cons (c : List UInt8) (cs : List (List UInt8)) :
    chars (c :: cs) = (commands c).flatten.length + chars cs := by
  rw [← List.singleton_append, chars_append, length_flatten_commands]

theorem chars_cuts (w : List UInt8) : chars (cuts w) = (commands w).flatten.length := by
  calc chars (cuts w) = (w.filter fun c => !(c == bar)).length := by rw [chars, flatten_cuts]
    _ = (commands w).flatten.length := by rw [commands, flatten_pieces]

theorem commands_eq_nil_iff {c : List UInt8} : commands c = [] ↔ (commands c).flatten.length = 0 := by
  constructor
  · intro h
    rw [h]
    rfl
  · intro h
    have := length_le_length_flatten (L := commands c) fun _ => pieces_ne_nil_mem
    exact List.length_eq_zero_iff.mp (by omega)

theorem commands_of_chars_eq_zero (cs : List (List UInt8)) (h : chars cs = 0) :
    ∀ c ∈ cs, commands c = [] := by
  induction cs with
  | nil => simp
  | cons c cs ih =>
    rw [chars_cons] at h
    intro v hv
    rcases List.mem_cons.mp hv with rfl | hv
    · exact commands_eq_nil_iff.mpr (by omega)
    · exact ih (by omega) v hv

theorem pipelines_eq_nil {cs : List (List UInt8)} (h : ∀ c ∈ cs, commands c = []) : pipelines cs = [] := by
  rw [pipelines, List.filter_eq_nil_iff]
  intro p hp
  obtain ⟨c, hc, rfl⟩ := List.mem_map.mp hp
  simp [h c hc]

theorem length_flatten_le_chars {cs : List (List UInt8)} {p : List (List UInt8)} (h : p ∈ pipelines cs) :
    p.flatten.length ≤ chars cs := by
  obtain ⟨c, hc, rfl⟩ := List.mem_map.mp (List.mem_filter.mp h).1
  obtain ⟨as, bs, rfl⟩ := List.append_of_mem hc
  rw [chars_append, chars_cons]
  omega

/-- Reads with as many command characters as `p` run as `p` first, exactly if
one of them holds all of `p` and the others no command. -/
theorem pipelines_append_eq {p : List (List UInt8)} (hp : p.flatten.length ≠ 0)
    {X Y : List (List (List UInt8))} : ∀ {cs : List (List UInt8)}, chars cs = p.flatten.length →
      (pipelines cs ++ X = p :: Y ↔ (∀ c ∈ cs, commands c = [] ∨ commands c = p) ∧ X = Y)
  | [], h => absurd h.symm hp
  | c :: cs, h => by
    rw [chars_cons] at h
    rw [pipelines_cons, List.append_assoc, List.forall_mem_cons]
    by_cases hc : commands c = []
    · have h' : chars cs = p.flatten.length := by
        rw [commands_eq_nil_iff.mp hc] at h
        omega
      have hnone : pipeline (commands c) = [] := if_pos hc
      rw [hnone, List.nil_append, pipelines_append_eq hp h']
      simp [hc]
    · have hone : pipeline (commands c) = [commands c] := if_neg hc
      rw [hone, List.singleton_append, List.cons.injEq]
      -- `c` holds all the characters, or it is not `p`
      constructor
      · rintro ⟨rfl, hXY⟩
        have hrest := commands_of_chars_eq_zero cs (by omega)
        rw [pipelines_eq_nil hrest] at hXY
        exact ⟨⟨.inr rfl, fun v hv => .inl (hrest v hv)⟩, hXY⟩
      · rintro ⟨⟨hcp, -⟩, rfl⟩
        obtain rfl := hcp.resolve_left hc
        have hrest := commands_of_chars_eq_zero cs (by omega)
        rw [pipelines_eq_nil hrest]
        exact ⟨rfl, rfl⟩

theorem pipelines_cuts {w : List UInt8} {X Y : List (List (List UInt8))} :
    pipelines (cuts w) ++ X = pipeline (commands w) ++ Y ↔
      (∀ c ∈ cuts w, commands c = [] ∨ commands c = commands w) ∧ X = Y := by
  by_cases hw : commands w = []
  · have hall := commands_of_chars_eq_zero (cuts w) (by rw [chars_cuts, hw]; rfl)
    rw [hw, pipelines_eq_nil hall]
    simp only [pipeline, if_true, List.nil_append, or_self]
    exact ⟨fun h => ⟨hall, h⟩, fun h => h.2⟩
  · have hone : pipeline (commands w) = [commands w] := if_neg hw
    have hpos : (commands w).flatten.length ≠ 0 := fun h => hw (commands_eq_nil_iff.mpr h)
    rw [hone, List.singleton_append, pipelines_append_eq hpos (chars_cuts w)]

theorem chars_untilExit_lt {cs : List (List UInt8)} (h : exitLine ∈ cs) :
    chars (untilExit cs) < chars cs := by
  induction cs with
  | nil => cases h
  | cons c cs ih =>
    rw [chars_cons]
    by_cases hc : c = exitLine
    · have : 0 < (commands exitLine).flatten.length := by decide
      rw [hc, untilExit_exit]
      exact Nat.lt_of_lt_of_le this (Nat.le_add_right _ _)
    · rw [untilExit_cons hc, chars_cons]
      have := ih ((List.mem_cons.mp h).resolve_left (Ne.symm hc))
      omega

/-- The reads of a line before a part of it that is "exit" do not run as the
line does. -/
theorem pipelines_untilExit_ne {w : List UInt8} (h : exitLine ∈ cuts w) (Y : List (List (List UInt8))) :
    pipelines (untilExit (cuts w)) ≠ pipeline (commands w) ++ Y := by
  intro heq
  have hlt : chars (untilExit (cuts w)) < (commands w).flatten.length := chars_cuts w ▸ chars_untilExit_lt h
  have hw : commands w ≠ [] := fun hw => by
    rw [commands_eq_nil_iff.mp hw] at hlt
    omega
  have hmem : commands w ∈ pipelines (untilExit (cuts w)) := by
    rw [heq, pipeline, if_neg hw]
    exact List.mem_cons_self
  apply lt_irrefl (commands w).flatten.length
  calc (commands w).flatten.length ≤ chars (untilExit (cuts w)) := length_flatten_le_chars hmem
    _ < (commands w).flatten.length := hlt

/-- Before the first "exit" line, no read is "exit", and every read of a line
holds all of its commands or none. -/
def Whole (L : List (List UInt8)) : Prop :=
  ∀ w ∈ untilExit L, ∀ c ∈ cuts w, c ≠ exitLine ∧ (commands c = [] ∨ commands c = commands w)

theorem cuts_exit : cuts exitLine = [exitLine] := by decide

theorem whole_nil : Whole [] := fun w hw => by simp at hw

theorem whole_exit (L : List (List UInt8)) : Whole (exitLine :: L) := fun w hw => by simp at hw

theorem whole_cons {w : List UInt8} (hw : w ≠ exitLine) {L : List (List UInt8)} : Whole (w :: L) ↔
    exitLine ∉ cuts w ∧ (∀ c ∈ cuts w, commands c = [] ∨ commands c = commands w) ∧ Whole L := by
  rw [Whole, untilExit_cons hw, List.forall_mem_cons]
  constructor
  · rintro ⟨h, hL⟩
    exact ⟨fun hmem => (h exitLine hmem).1 rfl, fun c hc => (h c hc).2, hL⟩
  · rintro ⟨hmem, h, hL⟩
    exact ⟨fun c hc => ⟨fun he => hmem (he ▸ hc), h c hc⟩, hL⟩

/-- Where the lines are whole, the reads before the first "exit" are those of
the lines before it. -/
theorem Whole.reads {L : List (List UInt8)} (h : Whole L) :
    untilExit (reads L) = reads (untilExit L) ∧ (exitLine ∈ Shell.reads L ↔ exitLine ∈ L) := by
  induction L with
  | nil => exact ⟨rfl, Iff.rfl⟩
  | cons w L ih =>
    by_cases hw : w = exitLine
    · subst hw
      rw [reads_cons, cuts_exit, List.singleton_append, untilExit_exit, untilExit_exit]
      exact ⟨rfl, by simp⟩
    · obtain ⟨hmem, -, hL⟩ := (whole_cons hw).mp h
      rw [reads_cons, untilExit_append hmem, untilExit_cons hw, reads_cons, (ih hL).1]
      refine ⟨rfl, ?_⟩
      rw [List.mem_append, (ih hL).2, List.mem_cons]
      simp [hmem, Ne.symm hw]

/-- **The reads up to the first "exit" run as the lines do**, and nothing after
them, exactly if the lines are whole. -/
theorem whole_iff : ∀ {L : List (List UInt8)} {X : List (List (List UInt8))}, (exitLine ∈ reads L → X = []) →
    (expected L = pipelines (untilExit (reads L)) ++ X ↔ Whole L ∧ X = [])
  | [], X, _ => by
    rw [expected, reads_nil, untilExit_nil, pipelines_nil, List.nil_append, eq_comm]
    exact (and_iff_right whole_nil).symm
  | w :: L, X, hX => by
    by_cases hw : w = exitLine
    · subst hw
      rw [expected, reads_cons, cuts_exit, List.singleton_append, untilExit_exit, untilExit_exit]
      simp [whole_exit, eq_comm]
    rw [whole_cons hw, expected, untilExit_cons hw, pipelines_cons, reads_cons]
    by_cases hmem : exitLine ∈ cuts w
    · rw [untilExit_append_of_mem hmem, hX (by rw [reads_cons]; exact List.mem_append_left _ hmem),
        List.append_nil]
      exact ⟨fun h => absurd h.symm (pipelines_untilExit_ne hmem _), fun h => absurd hmem h.1.1⟩
    · have ih := whole_iff (L := L) (X := X) fun h => hX (by rw [reads_cons]; exact List.mem_append_right _ h)
      rw [untilExit_append hmem, pipelines_append, List.append_assoc, eq_comm, pipelines_cuts, eq_comm,
        ← expected, ih]
      exact ⟨fun h => ⟨⟨hmem, h.1, h.2.1⟩, h.2.2⟩, fun h => ⟨h.1.2.1, h.1.2.2, h.2⟩⟩

/-! ### Line by line -/

/-- No line is split, all rounds are fair, and the loop comes to an end or has
nothing to repeat. -/
structure Kept (env : ℕ → Scratch) (command : Buf UInt8 512) (L : List (List UInt8)) : Prop where
  whole : Whole L
  fair : FairFrom env 0 (reads (untilExit L))
  ends : exitLine ∈ L ∨
    ∃ s, leftover command (reads (untilExit L)) = some s ∧ Quiet env (reads (untilExit L)).length s

/-- **The shell runs its input line by line** exactly if no line is split, all
rounds are fair, and the loop comes to an end or has nothing to repeat. -/
theorem lineByLine_iff (env : ℕ → Scratch) (command : Buf UInt8 512) (L : List (List UInt8)) (hL : Text L) :
    LineByLine env command L ↔ Kept env command L := by
  constructor
  · intro h
    have hfair := fairFrom_of_runs _ rfl hL h
    obtain ⟨b, hb, hruns⟩ := runs_lines _ rfl hL command hfair
    obtain ⟨X, hps, hX⟩ := (hruns _).mp h
    obtain ⟨hwhole, rfl⟩ := (whole_iff fun hmem => by rwa [if_pos hmem] at hX).mp hps
    obtain ⟨hreads, hexit⟩ := hwhole.reads
    rw [hreads] at hfair hb hX
    refine ⟨hwhole, hfair, ?_⟩
    by_cases hmem : exitLine ∈ L
    · exact .inl hmem
    · rw [if_neg fun h => hmem (hexit.mp h), Nat.zero_add] at hX
      exact .inr (hb ▸ runs_end.mp hX)
  · rintro ⟨hwhole, hfair, hends⟩
    obtain ⟨hreads, hexit⟩ := hwhole.reads
    obtain ⟨b, hb, hruns⟩ := runs_lines _ rfl hL command (hreads.symm ▸ hfair)
    refine (hruns _).mpr ⟨[], (whole_iff fun _ => rfl).mpr ⟨hwhole, rfl⟩, ?_⟩
    by_cases hmem : exitLine ∈ reads L
    · rw [if_pos hmem]
    · rw [if_neg hmem, Nat.zero_add, hreads]
      apply runs_end.mpr
      rw [hb, hreads]
      exact hends.resolve_left fun h => hmem (hexit.mpr h)

/-! ### Short lines, cleared arrays -/

theorem reads_short {L : List (List UInt8)} (h : ∀ w ∈ L, w.length < 49) : reads L = L := by
  induction L with
  | nil => rfl
  | cons w L ih =>
    rw [reads_cons, cuts_short (h w List.mem_cons_self), ih fun v hv => h v (List.mem_cons_of_mem w hv)]
    rfl

/-- With short lines up to an "exit" line, the counts decide. -/
theorem kept_of_short {env : ℕ → Scratch} {L : List (List UInt8)} (command : Buf UInt8 512)
    (hexit : exitLine ∈ L) (hlen : ∀ w ∈ untilExit L, w.length < 49)
    (hfair : FairFrom env 0 (untilExit L)) : Kept env command L where
  whole := fun w hw c hc => by
    rw [cuts_short (hlen w hw), List.mem_singleton] at hc
    subst hc
    have hne : c ≠ exitLine := by simpa using List.mem_takeWhile_imp hw
    exact ⟨hne, .inr rfl⟩
  fair := by rwa [reads_short hlen]
  ends := .inl hexit

/-- Cleared arrays. -/
def cleared : Scratch := ⟨Buf.zeros UInt8 512, fun _ => Buf.zeros UInt8 50⟩

theorem settles_zeros (d : UInt8 → Bool) {n : ℕ} {s : List UInt8} (h : s.length < n) :
    Settles d (Buf.zeros UInt8 n).chars s :=
  settles_of_zeros d (by simpa using h) fun _ hx => List.eq_of_mem_replicate (List.mem_of_mem_drop hx)

theorem fair_cleared {c : List UInt8} (hlen : c.length < 50) (hroom : (commands c).length ≤ 10) :
    Fair cleared c where
  count := settles_zeros _ (by omega)
  room := hroom
  lexemes := fun j w hw => by
    have hw : w ∈ commands c := List.mem_of_getElem? hw
    exact settles_zeros _ ((length_le_of_mem_pieces hw).trans_lt hlen)

/-- `ls|wc` and `exit`. -/
def listing : List (List UInt8) := [[108, 115, 124, 119, 99], exitLine]

theorem listing_fair : FairFrom (fun _ => cleared) 0 (untilExit listing) :=
  fairFrom_cons.mpr ⟨fair_cleared (by decide) (by decide), fairFrom_nil⟩

theorem lineByLine_iff_listing : LineByLine (fun _ => cleared) (Buf.zeros UInt8 512) listing :=
  (lineByLine_iff (fun _ => cleared) (Buf.zeros UInt8 512) listing (by decide)).mpr
    (kept_of_short _ (by decide) (by decide) listing_fair)

/-! ### A line that runs again -/

theorem run_extends {env : ℕ → Scratch} : ∀ {n m i : ℕ} {s : State} {ps qs : List (List (List UInt8))},
    n ≤ m → run env n i s = some ps → run env m i s = some qs → ps <+: qs
  | 0, _, _, _, _, _, _, hn, _ => by
    cases hn
    exact List.nil_prefix
  | n + 1, m + 1, i, s, ps, qs, hnm, hn, hm => by
    rw [run] at hn hm
    split at hn
    · cases hn
    · rename_i hs
      rw [hs] at hm
      cases hn
      exact List.nil_prefix
    · rename_i p _ s' hs
      rw [hs] at hm
      obtain ⟨ps', hps, rfl⟩ := Option.map_eq_some_iff.mp hn
      obtain ⟨qs', hqs, rfl⟩ := Option.map_eq_some_iff.mp hm
      exact (List.prefix_append_right_inj _).mpr (run_extends (Nat.le_of_succ_le_succ hnm) hps hqs)

/-- The line `ls` is run again at the end of the input. -/
theorem again_at_end : ¬ ∀ (env : ℕ → Scratch) (command : Buf UInt8 512) (L : List (List UInt8)), Text L →
    LineByLine env command L := by
  intro h
  obtain ⟨N, hN⟩ := h (fun _ => cleared) (Buf.zeros UInt8 512) [[108, 115]] (by decide)
  have htwice : run (fun _ => cleared) 2 0 ⟨lines newline [[108, 115]], Buf.zeros UInt8 512⟩ =
      some [[[108, 115]], [[108, 115]]] := by decide +kernel
  have hpre := run_extends (Nat.le_max_right N 2) htwice (hN _ (Nat.le_max_left N 2))
  have hlen := hpre.length_le
  have hone : (expected [[108, 115]]).length = 1 := by decide
  rw [hone] at hlen
  exact absurd hlen (by decide)

end Shell
end Autumn
