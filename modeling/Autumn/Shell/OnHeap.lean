/-
# The piping shell: its blocks on the heap (`_command_.c`, `param.c`, `main.c`)

The rounds of `Autumn.Shell.Loop` again, with the heap they work on. `_command_`
makes a copy of each command, `param` cuts this copy into words and makes a block
for each of them, and `main` frees the words when the child is forked. The copies
of the commands are never freed.

So the shell with its heap runs what the shell without runs, and wherever that is
defined no block is freed twice or read when it is gone; the blocks that were there
before stay as they were, and after any number of rounds the shell holds one block
more for each command it has run, of the command's length and its NUL
(`leaks_commands`).

`malloc` does not fail, and a copy is cut into its words before the words are
copied: nothing else looks at it meanwhile.

Key definitions: `_command_`, `param`, `run_command`, `round`, `session`.
Key theorems: `run_command_spec`, `run_commands_spec`, `round_spec`, `leaks_commands`.
-/
import Autumn.Lib.Heap
import Autumn.Shell.Loop

namespace Autumn
namespace Shell
namespace OnHeap

variable (A : Allocator)

/-- The words of a command with `path` in front of the first one. -/
def withPath (path : List UInt8) : List (List UInt8) → List (List UInt8)
  | [] => []
  | ptr :: rest => (path ++ ptr) :: rest

/-- The strings, each with its NUL. -/
def ended (ws : List (List UInt8)) : List (List UInt8) := ws.map (· ++ [0])

/-- `param(argv, s, path, count)`: the blocks in `argv`. -/
def param (h : Heap UInt8) (s : ℕ) (path : List UInt8) (count : ℕ) : Option (List ℕ × Heap UInt8) := do
  let m ← h.read s
  if count < 256 then
    let (ws, t) ← takeTokens (· == space) count (strtok (· == space) (.start m))
    let h ← h.write s t.mem
    some (h.allocs A (ended (withPath path ws)))
  else none

/-- What is done for the command at `s`: its words are counted and put in blocks,
the child executes with the strings it finds there, and the blocks are freed. -/
def run_command (buf : Buf UInt8 50) (h : Heap UInt8) (s : ℕ) : Option (List (List UInt8) × Heap UInt8) := do
  let m ← h.read s
  if 0 ∈ m then
    let l_count ← lexemes_count buf (cstr m)
    let (argv, h) ← param A h s path l_count
    let strings ← argv.mapM h.read
    let h ← h.frees argv
    some (strings.map cstr, h)
  else none

/-- The loop over `command_path`, from the `j`-th command on. -/
def run_commands (sc : Scratch) : ℕ → Heap UInt8 → List ℕ → Option (List (List (List UInt8)) × Heap UInt8)
  | _, h, [] => some ([], h)
  | j, h, s :: ss => do
    let (argv, h) ← run_command A (sc.lexemes j) h s
    let (argvs, h) ← run_commands sc (j + 1) h ss
    some (argv :: argvs, h)

/-- One round of `while(1)`. -/
def round (sc : Scratch) (s : State) (h : Heap UInt8) : Option (Outcome × Heap UInt8) := do
  let (command, input) ← fgets 50 s.command s.input
  let command ← chomp command
  if command.str = exitLine then some (.exit, h)
  else
    let p_count ← command_count sc.count command.str
    let (ws, command) ← _command_ command p_count
    let (command_path, h) := h.allocs A (ended ws)
    let (argvs, h) ← run_commands A sc 0 h command_path
    some (.ran ws argvs ⟨input, command⟩, h)

/-- The pipelines of the rounds `i`, `i + 1`, ..., at most `n` of them, and the heap
after them. -/
def session (env : ℕ → Scratch) : ℕ → ℕ → State → Heap UInt8 → Option (List (List (List UInt8)) × Heap UInt8)
  | 0, _, _, h => some ([], h)
  | n + 1, i, s, h =>
    match round A (env i) s h with
    | none => none
    | some (.exit, h) => some ([], h)
    | some (.ran command_path _ next, h) =>
      (session env n (i + 1) next h).map fun p => (pipeline command_path ++ p.1, p.2)

variable {A}

theorem param_eq (s path : List UInt8) (count : ℕ) : Shell.param s path count =
    if count < 256 then
      (takeTokens (· == space) count (strtok (· == space) (.start (s ++ [0])))).map fun r => withPath path r.1
    else none := by
  rw [Shell.param]
  split
  · rfl
  · rfl

theorem withPath_nz {path : List UInt8} {ws : List (List UInt8)} (hp : (0 : UInt8) ∉ path)
    (hws : ∀ w ∈ ws, (0 : UInt8) ∉ w) : ∀ w ∈ withPath path ws, (0 : UInt8) ∉ w := by
  cases ws with
  | nil => exact hws
  | cons w ws =>
    obtain ⟨hw, hws⟩ := List.forall_mem_cons.mp hws
    exact List.forall_mem_cons.mpr ⟨by simp [hp, hw], hws⟩

theorem cstr_ended {ws : List (List UInt8)} (h : ∀ w ∈ ws, (0 : UInt8) ∉ w) : (ended ws).map cstr = ws := by
  have hid : ws.map (cstr ∘ (· ++ [0])) = ws.map id := List.map_congr_left fun w hw => cstr_append_zero (h w hw) []
  rw [ended, List.map_map, hid, List.map_id]

/-- **One command.** The child gets the words that the shell without a heap gives it,
or both are undefined; of the heap, only the copy of the command has changed. -/
theorem run_command_spec (buf : Buf UInt8 50) {h : Heap UInt8} {s : ℕ} {w : List UInt8} (hw : (0 : UInt8) ∉ w)
    (hr : h.read s = some (w ++ [0])) : ∃ m h', h.write s m = some h' ∧
      run_command A buf h s = ((lexemes_count buf w).bind (Shell.param w path)).map (·, h') := by
  have hstr : cstr (w ++ [0]) = w := cstr_append_zero hw []
  have hmem : (0 : UInt8) ∈ w ++ [0] := List.mem_append_right w List.mem_cons_self
  obtain ⟨h0, hsame⟩ := Heap.exists_write hr rfl
  rw [run_command, hr]
  simp only [Option.bind_eq_bind, Option.bind_some, if_pos hmem, hstr]
  rcases lexemes_count buf w with _ | k
  · exact ⟨_, h0, hsame, rfl⟩
  rw [Option.bind_some, Option.bind_some, param_eq, param, hr]
  by_cases hk : k < 256
  swap
  · exact ⟨_, h0, hsame, by simp [if_neg hk]⟩
  rw [if_pos hk]
  have hpieces := takeTokens_eq (d := (· == space)) rfl k (t := .start (w ++ [0])) hmem
  rcases htake : takeTokens (· == space) k (strtok (· == space) (.start (w ++ [0]))) with _ | ⟨ws, t⟩
  · exact ⟨_, h0, hsame, by simp [if_pos hk, htake]⟩
  have hws : ∀ x ∈ ws, (0 : UInt8) ∉ x := by
    intro x hx hx0
    rw [htake, Option.map_some, Strtok.rest_start, hstr] at hpieces
    split at hpieces
    · have hws : ws = _ := Option.some.inj hpieces
      rw [hws] at hx
      exact hw (mem_of_mem_pieces (List.mem_of_mem_take hx) hx0)
    · cases hpieces
  have hsize : t.mem.length = (w ++ [0]).length := by
    rw [takeTokens_length k htake, strtok_mem_length]
    rfl
  have hstrings : (ended (withPath path ws)).map cstr = withPath path ws := cstr_ended (withPath_nz (by decide) hws)
  obtain ⟨h', hwrite⟩ := Heap.exists_write hr hsize
  refine ⟨t.mem, h', hwrite, ?_⟩
  simp only [if_pos hk, Option.bind_eq_bind, Option.bind_some, htake, hwrite, Heap.reads_allocs,
    Heap.frees_allocs, hstrings, Option.map_some]

theorem params_cons (sc : Scratch) (j : ℕ) (w : List UInt8) (ws : List (List UInt8)) : params sc j (w :: ws) =
    ((lexemes_count (sc.lexemes j) w).bind (Shell.param w path)).bind fun argv =>
      (params sc (j + 1) ws).map (argv :: ·) := by
  simp only [params, Option.bind_eq_bind, Option.bind_assoc, Option.map_eq_bind]
  rfl

theorem run_commands_cons (sc : Scratch) (j : ℕ) (h : Heap UInt8) (s : ℕ) (ss : List ℕ) : run_commands A sc j h (s :: ss) =
    (run_command A (sc.lexemes j) h s).bind fun p =>
      (run_commands A sc (j + 1) p.2 ss).map fun q => (p.1 :: q.1, q.2) := by
  simp only [run_commands, Option.bind_eq_bind, Option.map_eq_bind]
  rfl

/-- **All commands of a line**, whose copies are among the blocks in front. -/
theorem run_commands_spec (sc : Scratch) {base : List (ℕ × List UInt8)} : ∀ (j : ℕ) {ss : List ℕ} {ws : List (List UInt8)}
    {h : Heap UInt8} {front : List (ℕ × List UInt8)}, h.blocks = front ++ base → (∀ s ∈ ss, s ∈ front.map Prod.fst) →
    ss.Nodup → List.Forall₂ (fun s w => (0 : UInt8) ∉ w ∧ h.read s = some (w ++ [0])) ss ws →
    ∃ h' front', run_commands A sc j h ss = (params sc j ws).map (·, h') ∧ h'.blocks = front' ++ base ∧
      Heap.sizes front' = Heap.sizes front
  | j, [], _, h, front, hb, _, _, .nil => ⟨h, front, rfl, hb, rfl⟩
  | j, s :: ss, w :: ws, h, front, hb, hmem, hnodup, .cons ⟨hw, hr⟩ hrest => by
    obtain ⟨hs, hss⟩ := List.nodup_cons.mp hnodup
    obtain ⟨hsm, hssm⟩ := List.forall_mem_cons.mp hmem
    obtain ⟨m, h1, hwrite, hone⟩ := run_command_spec (A := A) (sc.lexemes j) hw hr
    obtain ⟨front1, hb1, hsizes1⟩ := Heap.write_front hb hsm hwrite
    have haddrs : front1.map Prod.fst = front.map Prod.fst := by
      have := congrArg (List.map Prod.fst) hsizes1
      simpa [Heap.sizes, Function.comp_def] using this
    have hreads : List.Forall₂ (fun s w => (0 : UInt8) ∉ w ∧ h1.read s = some (w ++ [0])) ss ws := by
      have hne : ∀ s' ∈ ss, s' ≠ s := fun s' hs' he => hs (he ▸ hs')
      refine ((List.forall₂_and_left _ _).mpr ⟨hne, hrest⟩).imp ?_
      rintro s' w' ⟨hne, hw', hr'⟩
      exact ⟨hw', Heap.read_write_ne hwrite hne hr'⟩
    obtain ⟨h', front', heq, hb', hsizes⟩ := run_commands_spec sc (j + 1) hb1
      (fun s' hs' => haddrs ▸ hssm s' hs') hss hreads
    refine ⟨h', front', ?_, hb', hsizes.trans hsizes1⟩
    rw [params_cons, run_commands_cons, hone]
    rcases (lexemes_count (sc.lexemes j) w).bind (Shell.param w path) with _ | argv
    · rfl
    · rw [Option.map_some, Option.bind_some, Option.bind_some, heq, Option.map_map, Option.map_map]
      rfl

theorem copies_spec (h : Heap UInt8) {ws : List (List UInt8)} (hws : ∀ w ∈ ws, (0 : UInt8) ∉ w) :
    ∃ front, (h.allocs A (ended ws)).2.blocks = front ++ h.blocks ∧
      (∀ s ∈ (h.allocs A (ended ws)).1, s ∈ front.map Prod.fst) ∧ (h.allocs A (ended ws)).1.Nodup ∧
      List.Forall₂ (fun s w => (0 : UInt8) ∉ w ∧ (h.allocs A (ended ws)).2.read s = some (w ++ [0]))
        (h.allocs A (ended ws)).1 ws ∧
      (Heap.sizes front).map Prod.snd = (ws.map fun w => w.length + 1).reverse := by
  obtain ⟨hb, hlen⟩ := Heap.allocs_blocks (A := A) h (ended ws)
  refine ⟨_, hb, fun s hs => ?_, (Heap.allocs_fresh h (ended ws)).1, ?_, ?_⟩
  · rw [List.map_reverse, List.map_fst_zip hlen.le, List.mem_reverse]
    exact hs
  · rw [List.forall₂_iff_get]
    refine ⟨by rw [hlen, ended, List.length_map], fun k hk hkw => ⟨hws _ (List.get_mem ..), ?_⟩⟩
    apply Heap.read_allocs (k := k)
    · simp
    · simp [ended, hkw]
  · have hsnd : ((Heap.allocs A h (ended ws)).1.zip (ended ws)).map Prod.snd = ended ws := List.map_snd_zip hlen.ge
    have hsizes : (Heap.sizes ((Heap.allocs A h (ended ws)).1.zip (ended ws)).reverse).map Prod.snd =
        (((Heap.allocs A h (ended ws)).1.zip (ended ws)).map Prod.snd).reverse.map List.length := by
      simp [Heap.sizes, Function.comp_def]
    rw [hsizes, hsnd, List.map_reverse, ended, List.map_map]
    simp [Function.comp_def]

/-- The commands a round has run. -/
def commands_run : Outcome → List (List UInt8)
  | .exit => []
  | .ran command_path _ _ => command_path

/-- The sizes of the copies of commands, the last one first. -/
def copies (ws : List (List UInt8)) : List ℕ := (ws.map fun w => w.length + 1).reverse

/-- `Holds h h' ws`: `h'` is `h` with one block more for each of the commands. -/
def Holds (h h' : Heap UInt8) (ws : List (List UInt8)) : Prop :=
  ∃ front, h'.blocks = front ++ h.blocks ∧ (Heap.sizes front).map Prod.snd = copies ws

theorem Holds.refl (h : Heap UInt8) : Holds h h [] := ⟨[], rfl, rfl⟩

theorem Holds.trans {h h1 h2 : Heap UInt8} {ws vs : List (List UInt8)} (hw : Holds h h1 ws) (hv : Holds h1 h2 vs) :
    Holds h h2 (ws ++ vs) := by
  obtain ⟨front, hb, hsizes⟩ := hw
  obtain ⟨front', hb', hsizes'⟩ := hv
  refine ⟨front' ++ front, by rw [hb', hb, List.append_assoc], ?_⟩
  rw [Heap.sizes, List.map_append, List.map_append, copies, List.map_append, List.reverse_append]
  exact congrArg₂ (· ++ ·) hsizes' hsizes

/-- **One round** does with the heap what it does without, and keeps the copies of its
commands. -/
theorem round_spec (sc : Scratch) (s : State) (h : Heap UInt8) : ∃ h',
    round A sc s h = (iteration sc s).map (·, h') ∧ ∀ o, iteration sc s = some o → Holds h h' (commands_run o) := by
  rw [round, iteration]
  rcases fgets 50 s.command s.input with _ | ⟨b, input⟩
  · exact ⟨h, rfl, fun _ ho => by cases ho⟩
  rcases hchomp : chomp b with _ | line
  · exact ⟨h, by simp [hchomp], by simp [hchomp]⟩
  simp only [Option.bind_eq_bind, Option.bind_some, hchomp]
  by_cases hexit : line.str = exitLine
  · rw [if_pos hexit, if_pos hexit]
    exact ⟨h, rfl, fun o ho => Option.some.inj ho ▸ .refl h⟩
  rw [if_neg hexit, if_neg hexit]
  rcases hcount : command_count sc.count line.str with _ | k
  · exact ⟨h, rfl, fun _ ho => by cases ho⟩
  rcases hcut : _command_ line k with _ | ⟨ws, line'⟩
  · exact ⟨h, by simp [hcut], by simp [hcut]⟩
  have hterm : line.Term := by
    have hb : b.Term ∧ b.str ≠ [] := by
      by_contra hno
      rw [chomp, if_neg hno] at hchomp
      cases hchomp
    obtain ⟨line2, h2, ht, -⟩ := chomp_spec hb.1 hb.2
    rw [hchomp] at h2
    exact Option.some.inj h2 ▸ ht
  have hws : ∀ w ∈ ws, (0 : UInt8) ∉ w := by
    have hboth : (command_count sc.count line.str).bind (_command_ line) = some (ws, line') := by
      rw [hcount, Option.bind_some, hcut]
    obtain ⟨-, -, rfl, -⟩ := commands_cut hterm hboth
    exact zero_not_mem_commands line.str_nz
  obtain ⟨front, hb, hmem, hnodup, hreads, hsizes⟩ := copies_spec (A := A) h hws
  obtain ⟨h', front', heq, hb', hsizes'⟩ := run_commands_spec (A := A) sc 0 hb hmem hnodup hreads
  refine ⟨h', ?_, fun o ho => ?_⟩
  · simp only [Option.bind_some, hcut, heq, Option.bind_map, Option.map_bind]
    rfl
  · simp only [Option.bind_some, hcut] at ho
    obtain ⟨argvs, -, ho⟩ := Option.bind_eq_some_iff.mp ho
    cases ho
    exact ⟨front', hb', by rw [hsizes', hsizes]; rfl⟩

/-- **The shell keeps the copy of every command it has run**, and nothing else: for
any allocator and any number of rounds, the shell with its heap runs what the shell
without runs, the blocks it has found stay as they are, and one block more is there
for each command. -/
theorem leaks_commands (A : Allocator) (env : ℕ → Scratch) (n i : ℕ) (s : State) (h : Heap UInt8) : ∃ h',
    session A env n i s h = (run env n i s).map (·, h') ∧ ∀ ps, run env n i s = some ps → Holds h h' ps.flatten := by
  induction n generalizing i s h with
  | zero => exact ⟨h, rfl, fun ps hps => Option.some.inj hps ▸ .refl h⟩
  | succ n ih =>
    obtain ⟨h1, hround, hholds⟩ := round_spec (A := A) (env i) s h
    rw [session, run, hround]
    rcases hit : iteration (env i) s with _ | (_ | ⟨p, as, next⟩)
    · exact ⟨h, rfl, fun _ ho => by cases ho⟩
    · exact ⟨h1, rfl, fun ps hps => Option.some.inj hps ▸ hholds .exit hit⟩
    · obtain ⟨h', hrest, hrestHolds⟩ := ih (i + 1) next h1
      refine ⟨h', ?_, fun ps hps => ?_⟩
      · simp only [Option.map_some, hrest, Option.map_map]
        rfl
      · obtain ⟨ps', hps', rfl⟩ := Option.map_eq_some_iff.mp hps
        have hflat : (pipeline p ++ ps').flatten = p ++ ps'.flatten := by
          rw [List.flatten_append, pipeline]
          by_cases hp : p = []
          · simp [hp]
          · simp [hp]
        rw [hflat]
        exact (hholds _ hit).trans (hrestHolds ps' hps')

end OnHeap
end Shell
end Autumn
