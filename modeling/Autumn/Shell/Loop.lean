/-
# The piping shell: the loop that reads and executes (`main.c`)

Each round of `while(1)` reads at most 49 characters with `fgets`, takes a
newline off the end, leaves on "exit", cuts the line into commands and runs
them. At the end of the input `fgets` leaves in `command` what the last round
left there, the first token of its line.

A round is a function of the state and of what the uninitialised arrays of the
counting functions hold (`Scratch`): it is undefined unless their counts settle
(`Fair`), and then it runs the commands of its line. Only this loop reads the
input here, `pipe` and `fork` succeed, and which end of the pipe each child
holds is the subject of `Autumn.Shell.Wiring`.

Key definitions: `fgets`, `chomp`, `iteration`, `run`, `Runs`, `ReadsLine`, `Fair`.
Key theorems: `reads_nextRead`, `reads_end`, `iteration_ran`,
`iteration_unfair`, `runs_of_reads`.
-/
import Autumn.Shell.Parse

namespace Autumn
namespace Shell

/-- What is left of the input, and the line buffer. -/
structure State where
  input : List UInt8
  command : Buf UInt8 512

/-- The arrays of the counting functions when a round calls them: of
`command_count`, and of `lexemes_count` for each command. -/
structure Scratch where
  count : Buf UInt8 512
  lexemes : ℕ → Buf UInt8 50

/-- What a round does: it leaves the shell, or runs the commands with their
arguments. -/
inductive Outcome
  | exit
  | ran (command_path : List (List UInt8)) (argvs : List (List (List UInt8))) (next : State)

/-- `"exit"`. -/
def exitLine : List UInt8 := [101, 120, 105, 116]

/-- `"/bin/"`. -/
def path : List UInt8 := [47, 98, 105, 110, 47]

/-- The characters of one read: at most `k`, up to a newline and with it. -/
def nextRead : ℕ → List UInt8 → List UInt8 × List UInt8
  | 0, input => ([], input)
  | _ + 1, [] => ([], [])
  | k + 1, c :: input =>
    if c = newline then ([c], input) else (c :: (nextRead k input).1, (nextRead k input).2)

/-- `fgets(command, n, stdin)`; at the end of the input `command` stays. -/
def fgets (n : ℕ) (command : Buf UInt8 512) (input : List UInt8) : Option (Buf UInt8 512 × List UInt8) :=
  if input = [] then some (command, input)
  else (command.put (nextRead (n - 1) input).1).map fun b => (b, (nextRead (n - 1) input).2)

/-- `i = strlen(command) - 1; if (command[i] == '\n') command[i] = '\0';`. The
empty string has no last character. -/
def chomp (command : Buf UInt8 512) : Option (Buf UInt8 512) :=
  if command.Term ∧ command.str ≠ [] then
    if command.str.getLast? = some newline then command.store (command.str.length - 1) [0] else some command
  else none

/-- `lexemes_count` and `param` for the commands from the `j`-th on. -/
def params (sc : Scratch) : ℕ → List (List UInt8) → Option (List (List (List UInt8)))
  | _, [] => some []
  | j, s :: ss => do
    let l_count ← lexemes_count (sc.lexemes j) s
    let argv ← param s path l_count
    let argvs ← params sc (j + 1) ss
    some (argv :: argvs)

/-- One round of `while(1)`; `none` where C leaves it undefined. -/
def iteration (sc : Scratch) (s : State) : Option Outcome := do
  let (command, input) ← fgets 50 s.command s.input
  let command ← chomp command
  if command.str = exitLine then some .exit
  else
    let p_count ← command_count sc.count command.str
    let (command_path, command) ← _command_ command p_count
    let argvs ← params sc 0 command_path
    some (.ran command_path argvs ⟨input, command⟩)

/-- The pipeline of a round: none, if there is no command. -/
def pipeline (command_path : List (List UInt8)) : List (List (List UInt8)) :=
  if command_path = [] then [] else [command_path]

/-- The pipelines of the rounds `i`, `i + 1`, ..., at most `n` of them. -/
def run (env : ℕ → Scratch) : ℕ → ℕ → State → Option (List (List (List UInt8)))
  | 0, _, _ => some []
  | n + 1, i, s =>
    match iteration (env i) s with
    | none => none
    | some .exit => some []
    | some (.ran command_path _ next) => (run env n (i + 1) next).map (pipeline command_path ++ ·)

/-- The loop runs the pipelines `ps` from round `i` on, and no others. -/
def Runs (env : ℕ → Scratch) (i : ℕ) (s : State) (ps : List (List (List UInt8))) : Prop :=
  ∃ N, ∀ n ≥ N, run env n i s = some ps

/-! ### What a round reads -/

/-- A string without a newline at its end. -/
def chomped (w : List UInt8) : List UInt8 := if w.getLast? = some newline then w.dropLast else w

theorem chomped_concat (w : List UInt8) : chomped (w ++ [newline]) = w := by simp [chomped]

theorem chomped_of_not_mem {w : List UInt8} (h : newline ∉ w) : chomped w = w :=
  if_neg fun hl => h (List.mem_of_getLast? hl)

theorem chomp_spec {b : Buf UInt8 512} (ht : b.Term) (hne : b.str ≠ []) :
    ∃ b', chomp b = some b' ∧ b'.Term ∧ b'.str = chomped b.str := by
  rw [chomp, if_pos ⟨ht, hne⟩, chomped]
  split
  · exact b.shorten ht hne
  · exact ⟨b, rfl, ht, rfl⟩

/-- The round reads the line `c` and leaves `input`. -/
def ReadsLine (s : State) (c input : List UInt8) : Prop :=
  ∃ b b', fgets 50 s.command s.input = some (b, input) ∧ chomp b = some b' ∧ b'.Term ∧ b'.str = c

theorem reads_nextRead {input r w : List UInt8} (b : Buf UInt8 512) (hr : nextRead 49 input = (w, r))
    (hne : w ≠ []) (hw : (0 : UInt8) ∉ w) (hlen : w.length < 512) : ReadsLine ⟨input, b⟩ (chomped w) r := by
  have hin : input ≠ [] := by
    rintro rfl
    rw [nextRead, Prod.mk.injEq] at hr
    exact hne hr.1.symm
  obtain ⟨b1, hb1, hs, ht⟩ := b.put_spec hw hlen
  obtain ⟨b2, hb2, ht2, hs2⟩ := chomp_spec ht (by rwa [hs])
  refine ⟨b1, b2, ?_, hb2, ht2, by rw [hs2, hs]⟩
  rw [fgets, if_neg hin, hr, hb1]
  rfl

theorem nextRead_line {r : List UInt8} : ∀ {w : List UInt8} {k : ℕ}, newline ∉ w → w.length < k →
    nextRead k (w ++ newline :: r) = (w ++ [newline], r)
  | [], k + 1, _, _ => by simp [nextRead]
  | c :: w, k + 1, hw, hk => by
    simp only [List.mem_cons, not_or] at hw
    rw [List.cons_append, nextRead, if_neg (Ne.symm hw.1),
      nextRead_line hw.2 (by simpa using hk)]
    rfl

theorem nextRead_full {r : List UInt8} : ∀ {w : List UInt8}, newline ∉ w → nextRead w.length (w ++ r) = (w, r)
  | [], _ => by cases r <;> rfl
  | c :: w, hw => by
    simp only [List.mem_cons, not_or] at hw
    rw [List.cons_append, List.length_cons, nextRead, if_neg (Ne.symm hw.1), nextRead_full hw.2]

theorem reads_end {b : Buf UInt8 512} (ht : b.Term) (hne : b.str ≠ []) :
    ReadsLine ⟨[], b⟩ (chomped b.str) [] := by
  obtain ⟨b', hb, ht', hs⟩ := chomp_spec ht hne
  exact ⟨b, b', rfl, hb, ht', hs⟩

theorem iteration_unread (sc : Scratch) {b : Buf UInt8 512} (h : ¬ (b.Term ∧ b.str ≠ [])) :
    iteration sc ⟨[], b⟩ = none := by
  have hf : fgets 50 b [] = some (b, []) := rfl
  have hc : chomp b = none := if_neg h
  simp [iteration, hf, hc]

/-! ### One round -/

/-- The counts for the line `c` settle, and `command_path` has room. -/
structure Fair (sc : Scratch) (c : List UInt8) : Prop where
  count : Settles (· == bar) sc.count.chars c
  room : (commands c).length ≤ 10
  lexemes : ∀ j w, (commands c)[j]? = some w → Settles (· == space) (sc.lexemes j).chars w

theorem params_spec (sc : Scratch) : ∀ (j : ℕ) {ss : List (List UInt8)} {as : List (List (List UInt8))},
    (∀ s ∈ ss, (0 : UInt8) ∉ s) → (params sc j ss = some as ↔
      (∀ k s, ss[k]? = some s → Settles (· == space) (sc.lexemes (j + k)).chars s) ∧ as = ss.map (argv path))
  | j, [], as, _ => by simp [params, eq_comm]
  | j, s :: ss, as, h0 => by
    have ih : ∀ as, params sc (j + 1) ss = some as ↔ _ := fun as =>
      params_spec sc (j + 1) fun s hs => h0 s (List.mem_cons_of_mem _ hs)
    have hcut := argv_cut (sc.lexemes j) path (h0 s List.mem_cons_self)
    have heq : params sc j (s :: ss) = ((lexemes_count (sc.lexemes j) s).bind (param s path)).bind fun a =>
        (params sc (j + 1) ss).map (a :: ·) := by
      simp only [params, Option.bind_eq_bind, Option.bind_assoc, Option.map_eq_bind]
      rfl
    rw [heq, hcut]
    constructor
    · intro h
      split at h
      · rename_i hset
        obtain ⟨as', has, rfl⟩ := Option.map_eq_some_iff.mp h
        obtain ⟨hk, rfl⟩ := (ih as').mp has
        refine ⟨fun k s' hs' => ?_, rfl⟩
        cases k with
        | zero =>
          cases hs'
          exact hset
        | succ k =>
          rw [show j + (k + 1) = j + 1 + k by omega]
          exact hk k s' hs'
      · cases h
    · rintro ⟨hk, rfl⟩
      have hset : Settles (· == space) (sc.lexemes j).chars s := hk 0 s rfl
      rw [if_pos hset, Option.bind_some, (ih _).mpr ⟨fun k s' hs' => ?_, rfl⟩]
      · rfl
      · rw [show j + 1 + k = j + (k + 1) by omega]
        exact hk (k + 1) s' hs'

theorem zero_not_mem_commands {c : List UInt8} (h : (0 : UInt8) ∉ c) : ∀ w ∈ commands c, (0 : UInt8) ∉ w :=
  fun _ hw h0 => h (mem_of_mem_pieces hw h0)

variable {sc : Scratch} {s : State} {c input : List UInt8}

theorem iteration_exit (sc : Scratch) (h : ReadsLine s exitLine input) : iteration sc s = some .exit := by
  obtain ⟨b, b', hf, hc, -, hs⟩ := h
  simp [iteration, hf, hc, hs]

theorem iteration_eq {b b' : Buf UInt8 512} (hf : fgets 50 s.command s.input = some (b, input))
    (hc : chomp b = some b') (hne : b'.str ≠ exitLine) :
    iteration sc s = ((command_count sc.count b'.str).bind (_command_ b')).bind fun p =>
      (params sc 0 p.1).map fun a => .ran p.1 a ⟨input, p.2⟩ := by
  simp only [iteration, hf, hc, Option.bind_eq_bind, Option.bind_some, if_neg hne, Option.bind_assoc,
    Option.map_eq_bind]
  rfl

/-- **A fair round** runs the commands of its line, and leaves the first token
of the line. -/
theorem iteration_ran (h : ReadsLine s c input) (hne : c ≠ exitLine) (hfair : Fair sc c) :
    ∃ b, iteration sc s = some (.ran (commands c) ((commands c).map (argv path)) ⟨input, b⟩) ∧
      b.Term ∧ b.str = firstToken (· == bar) c := by
  obtain ⟨b, b', hf, hc, ht, rfl⟩ := h
  obtain ⟨b2, hcut⟩ := exists_commands_cut ht hfair.count hfair.room
  obtain ⟨-, -, -, ht2, hs2⟩ := commands_cut ht hcut
  have hparams := (params_spec sc 0 (zero_not_mem_commands b'.str_nz)).mpr
    ⟨fun k w hw => by simpa using hfair.lexemes k w hw, rfl⟩
  refine ⟨b2, ?_, ht2, hs2⟩
  rw [iteration_eq hf hc hne, hcut, Option.bind_some, hparams, Option.map_some]

theorem iteration_unfair (h : ReadsLine s c input) (hne : c ≠ exitLine) (hfair : ¬ Fair sc c) :
    iteration sc s = none := by
  obtain ⟨b, b', hf, hc, ht, rfl⟩ := h
  rw [iteration_eq hf hc hne, Option.bind_eq_none_iff]
  rintro ⟨p, b2⟩ hcut
  obtain ⟨hset, hroom, rfl, -⟩ := commands_cut ht hcut
  rw [Option.map_eq_none_iff]
  rcases hp : params sc 0 (commands b'.str) with _ | as
  · rfl
  · have := (params_spec sc 0 (zero_not_mem_commands b'.str_nz)).mp hp
    exact absurd ⟨hset, hroom, fun k w hw => by simpa using this.1 k w hw⟩ hfair

/-! ### The rounds -/

variable {env : ℕ → Scratch} {i : ℕ} {ps : List (List (List UInt8))}

theorem runs_of_exit (h : iteration (env i) s = some .exit) : Runs env i s ps ↔ ps = [] := by
  have hrun : ∀ n, run env (n + 1) i s = some [] := fun n => by rw [run, h]
  constructor
  · rintro ⟨N, hN⟩
    have := hN (N + 1) (Nat.le_succ N)
    rw [hrun] at this
    exact (Option.some.inj this).symm
  · rintro rfl
    refine ⟨1, fun n hn => ?_⟩
    rw [← Nat.succ_pred_eq_of_pos hn]
    exact hrun _

theorem not_runs_of_none (h : iteration (env i) s = none) : ¬ Runs env i s ps := by
  rintro ⟨N, hN⟩
  have := hN (N + 1) (Nat.le_succ N)
  rw [run, h] at this
  cases this

theorem runs_of_ran {p : List (List UInt8)} {as : List (List (List UInt8))} {s' : State}
    (h : iteration (env i) s = some (.ran p as s')) :
    Runs env i s ps ↔ ∃ ps', ps = pipeline p ++ ps' ∧ Runs env (i + 1) s' ps' := by
  have hrun : ∀ n, run env (n + 1) i s = (run env n (i + 1) s').map (pipeline p ++ ·) := fun n => by
    rw [run, h]
  constructor
  · rintro ⟨N, hN⟩
    have hmap : ∀ n ≥ N, ∃ ps', run env n (i + 1) s' = some ps' ∧ pipeline p ++ ps' = ps := fun n hn => by
      have := hN (n + 1) (Nat.le_succ_of_le hn)
      rwa [hrun, Option.map_eq_some_iff] at this
    obtain ⟨ps', -, hps⟩ := hmap N le_rfl
    refine ⟨ps', hps.symm, N, fun n hn => ?_⟩
    obtain ⟨ps2, h2, hps2⟩ := hmap n hn
    rw [h2, List.append_cancel_left (hps2.trans hps.symm)]
  · rintro ⟨ps', rfl, N, hN⟩
    refine ⟨N + 1, fun n hn => ?_⟩
    obtain ⟨m, rfl⟩ : ∃ m, n = m + 1 := ⟨n - 1, by omega⟩
    rw [hrun, hN m (by omega), Option.map_some]

/-- What a round that reads `c` does to the run: "exit" ends it, it is
undefined if it is not fair, and otherwise puts the commands of `c` in front. -/
theorem runs_of_reads (env : ℕ → Scratch) (i : ℕ) (h : ReadsLine s c input) :
    (c = exitLine ∧ ∀ ps, Runs env i s ps ↔ ps = []) ∨
    (c ≠ exitLine ∧ ¬ Fair (env i) c ∧ ∀ ps, ¬ Runs env i s ps) ∨
    (c ≠ exitLine ∧ Fair (env i) c ∧ ∃ b : Buf UInt8 512, b.Term ∧ b.str = firstToken (· == bar) c ∧
      ∀ ps, Runs env i s ps ↔
        ∃ ps', ps = pipeline (commands c) ++ ps' ∧ Runs env (i + 1) ⟨input, b⟩ ps') := by
  by_cases hexit : c = exitLine
  · subst hexit
    exact .inl ⟨rfl, fun ps => runs_of_exit (iteration_exit (env i) h)⟩
  by_cases hfair : Fair (env i) c
  · obtain ⟨b, hb, ht, hs⟩ := iteration_ran h hexit hfair
    exact .inr (.inr ⟨hexit, hfair, b, ht, hs, fun ps => runs_of_ran hb⟩)
  · exact .inr (.inl ⟨hexit, hfair, fun ps => not_runs_of_none (iteration_unfair h hexit hfair)⟩)

end Shell
end Autumn
