/-
# The shell for one command (`command interpreter/main.c`)

The first shell reads as the piping one does, at most 49 characters at a time, and
executes `/bin/` with all it has read behind it. It does not cut `command`, so at
the end of the input it executes what it read last once more, in every round; and
where this is the empty string, it looks at `command[-1]`.

So for any text, with lines of any length, the names that `execv` is given in the
first `n` rounds are those of the first `n` reads, the last of them again and again,
up to an "exit"; only where the last read is empty and none is "exit" are the rounds
behind the text undefined (`run_eq`). The block for the name is freed in every round.

The child has the same input. A program that runs may read from it, and where `execv`
fails, `exit(1)` sets a file back to where the shell has read. So what is left behind a
round is an argument, `child`, and `run_eq` is about children that leave the input
alone (`LeavesInput`). `argv[1]` is never set: of what `execv` is given the model has
`argv[0]` only, and not whether it succeeds. `malloc` and `fork` succeed, and `strcpy`
and `strncat` fill the block.

Key definitions: `fgets`, `chomp`, `round`, `run`, `LeavesInput`, `found`, `again`,
`Inside`.
Key theorems: `next_round`, `round_spec`, `run_from`, `run_eq`.
-/
import Autumn.Lib.Heap
import Autumn.Shell.LineByLine

namespace Autumn
namespace Shell
namespace Single

/-- What is left of the input, the array, and the heap. -/
structure State where
  input : List UInt8
  command : Buf UInt8 50
  heap : Heap UInt8

/-- What a round does: it leaves the shell, or a child calls `execv` for a file. -/
inductive Outcome
  | exit
  | executed (file : List UInt8) (next : State)

/-- What the child that calls `execv` for a file leaves of the input. -/
abbrev Child := List UInt8 → List UInt8 → List UInt8

/-- `fgets(command, 50, stdin)` -/
def fgets (command : Buf UInt8 50) (input : List UInt8) : Option (Buf UInt8 50 × List UInt8) :=
  if input = [] then some (command, input)
  else (command.put (nextRead 49 input).1).map fun b => (b, (nextRead 49 input).2)

/-- `i = strlen(command) - 1; if (command[i] == '\n') command[i] = '\0';`. The empty
string has no last character. -/
def chomp (command : Buf UInt8 50) : Option (Buf UInt8 50) :=
  if command.Term ∧ command.str ≠ [] then
    if command.str.getLast? = some newline then command.store (command.str.length - 1) [0] else some command
  else none

/-- One round of `while(1)`: the child finds the name in the block that the parent
frees after it. -/
def round (A : Allocator) (child : Child) (s : State) : Option Outcome := do
  let (command, input) ← fgets s.command s.input
  let command ← chomp command
  if command.str = exitLine then some .exit
  else
    let (argv0, heap) := s.heap.alloc A (path ++ command.str ++ [0])
    let file ← heap.read argv0
    let heap ← heap.free argv0
    some (.executed (cstr file) ⟨child (cstr file) input, command, heap⟩)

/-- The files of the first `n` rounds, and the heap after them. -/
def run (A : Allocator) (child : Child) : ℕ → State → Option (List (List UInt8) × Heap UInt8)
  | 0, s => some ([], s.heap)
  | n + 1, s =>
    match round A child s with
    | none => none
    | some .exit => some ([], s.heap)
    | some (.executed file next) => (run A child n next).map fun p => (file :: p.1, p.2)

/-- The children neither read the input nor set it back. -/
def LeavesInput (child : Child) : Prop := ∀ file input, child file input = input

/-! ### One round -/

theorem chomp_spec {b : Buf UInt8 50} (ht : b.Term) (hne : b.str ≠ []) :
    ∃ b', chomp b = some b' ∧ b'.Term ∧ b'.str = chomped b.str := by
  rw [chomp, if_pos ⟨ht, hne⟩, chomped]
  split
  · exact b.shorten ht hne
  · exact ⟨b, rfl, ht, rfl⟩

/-- The round finds the line `c` in `command`, and leaves `input`. -/
def Finds (s : State) (c input : List UInt8) : Prop :=
  ∃ b b', fgets s.command s.input = some (b, input) ∧ chomp b = some b' ∧ b'.Term ∧ b'.str = c

theorem finds_read {input r u : List UInt8} (b : Buf UInt8 50) (h : Heap UInt8) (hr : nextRead 49 input = (u, r))
    (hne : u ≠ []) (hu : (0 : UInt8) ∉ u) (hlen : u.length < 50) : Finds ⟨input, b, h⟩ (chomped u) r := by
  have hin : input ≠ [] := by
    rintro rfl
    rw [nextRead, Prod.mk.injEq] at hr
    exact hne hr.1.symm
  obtain ⟨b1, hb1, hs, ht⟩ := b.put_spec hu hlen
  obtain ⟨b2, hb2, ht2, hs2⟩ := chomp_spec ht (by rwa [hs])
  refine ⟨b1, b2, ?_, hb2, ht2, by rw [hs2, hs]⟩
  rw [fgets, if_neg hin, hr, hb1]
  rfl

theorem next_round {w : List UInt8} {L : List (List UInt8)} (hL : Text (w :: L)) : ∃ c L',
    reads (w :: L) = c :: reads L' ∧ Text L' ∧ newline ∉ c ∧
      ∀ b h, Finds ⟨lines newline (w :: L), b, h⟩ c (lines newline L') := by
  obtain ⟨hnl, h0⟩ := hL w List.mem_cons_self
  have hL' : Text L := fun v hv => hL v (List.mem_cons_of_mem w hv)
  by_cases hlen : w.length < 49
  · refine ⟨w, L, by rw [reads_cons, cuts_short hlen]; rfl, hL', hnl, fun b h => ?_⟩
    have hread := nextRead_line (r := lines newline L) hnl hlen
    rw [← lines_cons] at hread
    have hw0 : (0 : UInt8) ∉ w ++ [newline] := by simpa [h0] using (by decide : (0 : UInt8) ≠ newline)
    have := finds_read b h hread (by simp) hw0 (by simp; omega)
    rwa [chomped_concat] at this
  · have htake : (w.take 49).length = 49 := List.length_take_of_le (by omega)
    have hnl' : newline ∉ w.take 49 := fun h => hnl (List.mem_of_mem_take h)
    have hread : nextRead 49 (lines newline (w :: L)) = (w.take 49, lines newline (w.drop 49 :: L)) := by
      have h := nextRead_full (r := lines newline (w.drop 49 :: L)) hnl'
      rw [htake] at h
      rw [← h, lines_cons, lines_cons, ← List.append_assoc, List.take_append_drop]
    refine ⟨w.take 49, w.drop 49 :: L, ?_, ?_, hnl', fun b h => ?_⟩
    · rw [reads_cons, reads_cons, cuts_long (by omega)]
      rfl
    · refine List.forall_mem_cons.mpr ⟨?_, hL'⟩
      exact ⟨fun h => hnl (List.mem_of_mem_drop h), fun h => h0 (List.mem_of_mem_drop h)⟩
    · have := finds_read b h hread (fun h => by simp [h] at htake) (fun h => h0 (List.mem_of_mem_take h)) (by omega)
      rwa [chomped_of_not_mem hnl'] at this

theorem finds_end {b : Buf UInt8 50} (h : Heap UInt8) (ht : b.Term) (hne : b.str ≠ []) (hnl : newline ∉ b.str) :
    Finds ⟨[], b, h⟩ b.str [] := by
  obtain ⟨b', hb, ht', hs⟩ := chomp_spec ht hne
  exact ⟨b, b', rfl, hb, ht', hs.trans (chomped_of_not_mem hnl)⟩

/-- **A round** leaves the shell, or executes what it finds and leaves the heap as it
was. -/
theorem round_spec (A : Allocator) (child : Child) {s : State} {c input : List UInt8} (h : Finds s c input) :
    (c = exitLine → round A child s = some .exit) ∧ (c ≠ exitLine → ∃ b, b.Term ∧ b.str = c ∧
      round A child s = some (.executed (path ++ c) ⟨child (path ++ c) input, b, s.heap⟩)) := by
  obtain ⟨b, b', hfgets, hchomp, ht, rfl⟩ := h
  have hnz : (0 : UInt8) ∉ path ++ b'.str := by
    rw [List.mem_append, not_or]
    exact ⟨by decide, b'.str_nz⟩
  refine ⟨fun hexit => ?_, fun hne => ⟨b', ht, rfl, ?_⟩⟩
  · simp [round, hfgets, hchomp, hexit]
  · simp only [round, hfgets, hchomp, Option.bind_eq_bind, Option.bind_some, if_neg hne, Heap.read_alloc,
      Heap.free_alloc, cstr_append_zero hnz]

/-! ### All rounds -/

/-- What the first `n` rounds find: the reads, and then `last` again and again. -/
def found (cs : List (List UInt8)) (last : List UInt8) (n : ℕ) : List (List UInt8) :=
  (List.range n).map fun k => cs.getD k last

theorem found_cons (c : List UInt8) (cs : List (List UInt8)) (last : List UInt8) (n : ℕ) :
    found (c :: cs) last (n + 1) = c :: found cs last n := by
  rw [found, List.range_succ_eq_map, List.map_cons, List.map_map]
  rfl

theorem found_nil (last : List UInt8) (n : ℕ) : found [] last (n + 1) = last :: found [] last n := by
  rw [found, List.range_succ_eq_map, List.map_cons, List.map_map]
  rfl

/-- The last read, or what was in `command`. -/
def again (cs : List (List UInt8)) (prev : List UInt8) : List UInt8 := cs.getLast?.getD prev

/-- No round of the first `n` looks at a character that is not there. -/
def Inside (cs : List (List UInt8)) (prev : List UInt8) (n : ℕ) : Prop :=
  exitLine ∈ cs ∨ n ≤ cs.length ∨ again cs prev ≠ []

instance (cs : List (List UInt8)) (prev : List UInt8) (n : ℕ) : Decidable (Inside cs prev n) :=
  inferInstanceAs (Decidable (_ ∨ _))

theorem again_cons (c : List UInt8) (cs : List (List UInt8)) (prev : List UInt8) :
    again (c :: cs) prev = again cs c := by
  rw [again, again, List.getLast?_cons, Option.getD_some]

/-- The rounds from any point on, where `prev` is in `command` if the input is at its
end. -/
theorem run_from (A : Allocator) {child : Child} (hchild : LeavesInput child) : ∀ (n : ℕ) {L : List (List UInt8)}
    {prev : List UInt8} {b : Buf UInt8 50} (h : Heap UInt8), Text L → newline ∉ prev → prev ≠ exitLine →
    (L = [] → b.Term ∧ b.str = prev) → run A child n ⟨lines newline L, b, h⟩ =
      if Inside (reads L) prev n then some ((untilExit (found (reads L) (again (reads L) prev) n)).map (path ++ ·), h)
      else none
  | 0, L, prev, b, h, _, _, _, _ => by
    rw [if_pos (.inr (.inl (Nat.zero_le _)))]
    rfl
  | n + 1, [], prev, b, h, hL, hnl, hne, hb => by
    obtain ⟨ht, rfl⟩ := hb rfl
    by_cases hempty : b.str = []
    · have hround : round A child ⟨[], b, h⟩ = none := by
        have hchomp : chomp b = none := if_neg fun hc => hc.2 hempty
        have hfgets : fgets b [] = some (b, []) := rfl
        simp [round, hfgets, hchomp]
      have hout : ¬ Inside [] b.str (n + 1) := by simp [Inside, again, hempty]
      rw [reads_nil, if_neg hout, run, lines_nil, hround]
    · obtain ⟨b', ht', hs', hround⟩ := (round_spec A child (finds_end h ht hempty hnl)).2 hne
      rw [hchild] at hround
      have ih := run_from A hchild n h hL hnl hne fun _ => ⟨ht', hs'⟩
      have hin : ∀ k, Inside [] b.str k := fun k => .inr (.inr hempty)
      have hagain : again [] b.str = b.str := rfl
      rw [reads_nil, if_pos (hin n), hagain] at ih
      rw [reads_nil, if_pos (hin (n + 1)), hagain, found_nil, untilExit_cons hne, run, lines_nil, hround]
      dsimp only
      rw [lines_nil] at ih
      rw [ih, Option.map_some, List.map_cons]
  | n + 1, w :: L, prev, b, h, hL, hnl, hne, hb => by
    obtain ⟨c, L', hreads, hL', hcnl, hfinds⟩ := next_round hL
    obtain ⟨hexit, hexec⟩ := round_spec A child (hfinds b h)
    rw [hreads, found_cons, again_cons]
    by_cases hc : c = exitLine
    · subst hc
      rw [if_pos (.inl List.mem_cons_self), untilExit_exit, run, hexit rfl]
      rfl
    · obtain ⟨b', ht', hs', hround⟩ := hexec hc
      rw [hchild] at hround
      have ih := run_from A hchild n h hL' hcnl hc fun hnil => ⟨ht', hs'⟩
      have hin : Inside (c :: reads L') prev (n + 1) ↔ Inside (reads L') c n := by
        rw [Inside, Inside, again_cons, List.mem_cons, List.length_cons, Nat.succ_le_succ_iff,
          or_iff_right (Ne.symm hc)]
      rw [run, hround, untilExit_cons hc]
      dsimp only
      rw [ih]
      by_cases hi : Inside (reads L') c n
      · rw [if_pos hi, if_pos (hin.mpr hi), Option.map_some, List.map_cons]
      · rw [if_neg hi, if_neg (mt hin.mp hi), Option.map_none]

/-- **The shell calls `execv` for the reads of its input**, and for the last one again
and again, up to an "exit": for every text, every number of rounds, whatever is in
`command` and on the heap at first, and any children that leave the input alone. It is
undefined exactly in the rounds behind the text, if the last read is empty. -/
theorem run_eq (A : Allocator) (child : Child) (hchild : LeavesInput child) (w : List UInt8) (L : List (List UInt8))
    (hL : Text (w :: L)) (command : Buf UInt8 50) (heap : Heap UInt8) (n : ℕ) :
    run A child n ⟨lines newline (w :: L), command, heap⟩ =
      if Inside (reads (w :: L)) [] n then
        some ((untilExit (found (reads (w :: L)) (again (reads (w :: L)) []) n)).map (path ++ ·), heap)
      else none :=
  run_from A hchild n heap hL (by decide) (by decide) nofun

/-- `ls`, and the end of the input: `ls` again. -/
theorem run_eq_ls : run .highest (fun _ input => input) 2
    ⟨lines newline [[108, 115]], Buf.zeros UInt8 50, ⟨[], List.nodup_nil⟩⟩ =
      some ([[47, 98, 105, 110, 47, 108, 115], [47, 98, 105, 110, 47, 108, 115]], ⟨[], List.nodup_nil⟩) := by
  have hin : Inside (reads [[108, 115]]) [] 2 := by decide
  rw [run_eq .highest (fun _ input => input) (fun _ _ => rfl) [108, 115] [] (by decide), if_pos hin]
  rfl

end Single
end Shell
end Autumn
