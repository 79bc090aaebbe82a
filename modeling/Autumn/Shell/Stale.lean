/-
# The piping shell: what earlier lines leave

(`command_count.c`, `lexemes_count.c`, `main.c`.) The arrays of the counting
functions are not cleared, so a parse depends on the line and on what they
hold. Over any two contents a line has the same counts, commands and arguments
exactly if both contents are inert: behind each copy they end, and hold only
separators but for characters that go on with the last run of the copy. The
line has at most ten commands then.

A session is a function of its lines, each parsed on its own, exactly if this
is so in all of its rounds (`lineOnly_iff`).

Key definitions: `Inert`, `InertFor`, `parse`, `LineOnly`, `obtained`,
`reference`, `LinesOnly`.
Key theorems: `settles_iff`, `parse_eq_some`, `lineOnly_iff_fair`,
`lineOnly_iff`.
-/
import Autumn.Shell.LineByLine

namespace Autumn
namespace Shell

/-! ### Inert characters -/

/-- The old characters behind `s` end in the array, and add no token. -/
def Inert (d : UInt8 → Bool) (buf s : List UInt8) : Prop :=
  0 ∈ buf.drop s.length ∧ AddsNone d s (cstr (buf.drop s.length))

instance (d : UInt8 → Bool) (buf s : List UInt8) : Decidable (Inert d buf s) :=
  inferInstanceAs (Decidable (_ ∧ _))

theorem settles_iff {d : UInt8 → Bool} {buf s : List UInt8} : Settles d buf s ↔ Inert d buf s :=
  and_congr_right fun _ => length_pieces_append_iff

/-- The arrays are inert for a line and for each of its commands. -/
structure InertFor (sc : Scratch) (c : List UInt8) : Prop where
  count : Inert (· == bar) sc.count.chars c
  lexemes : ∀ j w, (commands c)[j]? = some w → Inert (· == space) (sc.lexemes j).chars w

variable {sc sc' : Scratch} {c : List UInt8}

theorem fair_iff : Fair sc c ↔ InertFor sc c ∧ (commands c).length ≤ 10 := by
  constructor
  · rintro ⟨hcount, hroom, hlex⟩
    exact ⟨⟨settles_iff.mp hcount, fun j w hw => settles_iff.mp (hlex j w hw)⟩, hroom⟩
  · rintro ⟨⟨hcount, hlex⟩, hroom⟩
    exact ⟨settles_iff.mpr hcount, hroom, fun j w hw => settles_iff.mpr (hlex j w hw)⟩

/-! ### One line -/

/-- The commands of the line in `command`, and their arguments. A NULL that is
duplicated leaves it undefined. -/
def parse (sc : Scratch) (command : Buf UInt8 512) : Option (List (List UInt8) × List (List (List UInt8))) := do
  let p_count ← command_count sc.count command.str
  let (command_path, _) ← _command_ command p_count
  let argvs ← params sc 0 command_path
  some (command_path, argvs)

/-- What a line alone says: its commands, each with its words. -/
def reference (c : List UInt8) : List (List UInt8) × List (List (List UInt8)) :=
  (commands c, (commands c).map (argv path))

/-- Both are defined, and the same. -/
def Agree {β : Type*} (x y : Option β) : Prop := ∃ r, x = some r ∧ y = some r

/-- The parse of a line over two contents of the arrays: all counts are the
same, and so are the commands and their arguments. -/
structure LineOnly (sc sc' : Scratch) (line : Buf UInt8 512) : Prop where
  count : Agree (command_count sc.count line.str) (command_count sc'.count line.str)
  lexemes : ∀ j w, (commands line.str)[j]? = some w →
    Agree (lexemes_count (sc.lexemes j) w) (lexemes_count (sc'.lexemes j) w)
  parsed : Agree (parse sc line) (parse sc' line)

/-- **A parse is defined exactly if its counts are right**, and is that of the
line alone. -/
theorem parse_eq_some {line : Buf UInt8 512} (hl : line.Term) {r : List (List UInt8) × List (List (List UInt8))} :
    parse sc line = some r ↔ Fair sc line.str ∧ r = reference line.str := by
  have heq : parse sc line = ((command_count sc.count line.str).bind (_command_ line)).bind fun p =>
      (params sc 0 p.1).map fun a => (p.1, a) := by
    simp only [parse, Option.bind_eq_bind, Option.bind_assoc, Option.map_eq_bind]
    rfl
  have hparams : ∀ as, params sc 0 (commands line.str) = some as ↔ _ := fun as =>
    params_spec sc 0 (zero_not_mem_commands line.str_nz)
  simp only [Nat.zero_add] at hparams
  rw [heq]
  constructor
  · intro h
    obtain ⟨⟨p, line'⟩, hcut, h⟩ := Option.bind_eq_some_iff.mp h
    obtain ⟨hset, hroom, rfl, -⟩ := commands_cut hl hcut
    obtain ⟨as, has, rfl⟩ := Option.map_eq_some_iff.mp h
    obtain ⟨hlex, rfl⟩ := (hparams as).mp has
    exact ⟨⟨hset, hroom, hlex⟩, rfl⟩
  · rintro ⟨⟨hset, hroom, hlex⟩, rfl⟩
    obtain ⟨line', hcut⟩ := exists_commands_cut hl hset hroom
    rw [hcut, Option.bind_some, (hparams _).mpr ⟨hlex, rfl⟩]
    rfl

theorem lineOnly_iff_fair {line : Buf UInt8 512} (hl : line.Term) :
    LineOnly sc sc' line ↔ Fair sc line.str ∧ Fair sc' line.str := by
  constructor
  · rintro ⟨-, -, r, h, h'⟩
    exact ⟨((parse_eq_some hl).mp h).1, ((parse_eq_some hl).mp h').1⟩
  · rintro ⟨h, h'⟩
    refine ⟨⟨_, count_of_settles (d := (· == bar)) rfl line.str_nz h.count,
      count_of_settles (d := (· == bar)) rfl line.str_nz h'.count⟩, fun j w hw => ?_,
      _, (parse_eq_some hl).mpr ⟨h, rfl⟩, (parse_eq_some hl).mpr ⟨h', rfl⟩⟩
    have hw0 := zero_not_mem_commands line.str_nz w (List.mem_of_getElem? hw)
    exact ⟨_, count_of_settles (d := (· == space)) rfl hw0 (h.lexemes j w hw),
      count_of_settles (d := (· == space)) rfl hw0 (h'.lexemes j w hw)⟩

/-! ### The lines of a session -/

/-- The commands and their arguments in the rounds `i`, `i + 1`, ..., at most
`n` of them. -/
def obtained (env : ℕ → Scratch) :
    ℕ → ℕ → State → Option (List (List (List UInt8) × List (List (List UInt8))))
  | 0, _, _ => some []
  | n + 1, i, s =>
    match iteration (env i) s with
    | none => none
    | some .exit => some []
    | some (.ran command_path argvs next) => (obtained env n (i + 1) next).map ((command_path, argvs) :: ·)

/-- The rounds that read the text obtain for each line what it says alone. -/
def LinesOnly (env : ℕ → Scratch) (command : Buf UInt8 512) (L : List (List UInt8)) : Prop :=
  obtained env (reads L).length 0 ⟨lines newline L, command⟩ = some ((untilExit (reads L)).map reference)

/-- The rounds from the `i`-th on obtain what the lines say exactly if all are
fair. -/
theorem obtained_iff {env : ℕ → Scratch} : ∀ (n : ℕ) {L : List (List UInt8)}, (reads L).length = n → Text L →
    ∀ {i : ℕ} {b : Buf UInt8 512}, obtained env n i ⟨lines newline L, b⟩ = some ((untilExit (reads L)).map reference) ↔
      FairFrom env i (untilExit (reads L))
  | _, [], rfl, _, _, _ => iff_of_true rfl fairFrom_nil
  | n, w :: L, hn, hL, i, b => by
    obtain ⟨c, L', hreads, hL', hread⟩ := next_read hL
    rw [hreads] at hn ⊢
    cases n with
    | zero => cases hn
    | succ n =>
      rw [obtained]
      by_cases hexit : c = exitLine
      · subst hexit
        rw [iteration_exit (env i) (hread b), untilExit_exit]
        exact iff_of_true rfl fairFrom_nil
      rw [untilExit_cons hexit, fairFrom_cons, List.map_cons]
      by_cases hfair : Fair (env i) c
      · obtain ⟨b', hrun, -⟩ := iteration_ran (hread b) hexit hfair
        rw [hrun, and_iff_right hfair, ← obtained_iff n (Nat.succ.inj hn) hL' (b := b')]
        simp [reference]
      · rw [iteration_unfair (hread b) hexit hfair]
        exact iff_of_false (by simp) fun h => hfair h.1

/-- **The parse depends on the typed line only** exactly over inert arrays, for
lines of at most ten commands: over any two contents of the arrays, and in the
rounds of any session. -/
theorem lineOnly_iff (line : Buf UInt8 512) (hl : line.Term) (sc sc' : Scratch) (env : ℕ → Scratch)
    (command : Buf UInt8 512) (L : List (List UInt8)) (hL : Text L) :
    (LineOnly sc sc' line ↔
      InertFor sc line.str ∧ InertFor sc' line.str ∧ (commands line.str).length ≤ 10) ∧
    (LinesOnly env command L ↔ ∀ j c, (untilExit (reads L))[j]? = some c →
      InertFor (env j) c ∧ (commands c).length ≤ 10) := by
  constructor
  · rw [lineOnly_iff_fair hl, fair_iff, fair_iff]
    tauto
  · rw [LinesOnly, obtained_iff _ rfl hL, FairFrom]
    simp only [Nat.zero_add, fair_iff]

/-- What the count of `a|b` leaves in a cleared array. -/
def leftBy : Buf UInt8 512 :=
  ⟨[97, 0, 98] ++ List.replicate 509 0, by rw [List.length_append, List.length_replicate]; rfl⟩

example : (tokens (· == bar) 513 (.start ([97, 124, 98] ++ List.replicate 509 0))).2.mem = leftBy.chars := by
  decide +kernel

/-- The arrays after that count. -/
def stale : Scratch := ⟨leftBy, cleared.lexemes⟩

/-- `ls|wc` covers what is left of `a|b`. -/
theorem inertFor_stale : InertFor stale [108, 115, 124, 119, 99] where
  count := by decide +kernel
  lexemes := (fair_iff.mp (fair_cleared (by decide) (by decide))).1.lexemes

theorem lineOnly_iff_listing : ∃ line : Buf UInt8 512, line.str = [108, 115, 124, 119, 99] ∧
    LineOnly cleared stale line ∧ LinesOnly (fun _ => stale) leftBy [[108, 115, 124, 119, 99]] := by
  obtain ⟨line, -, hs, ht⟩ := (Buf.zeros UInt8 512).put_spec (w := [108, 115, 124, 119, 99]) (by decide) (by decide)
  obtain ⟨hline, hlines⟩ := lineOnly_iff line ht cleared stale (fun _ => stale) leftBy [[108, 115, 124, 119, 99]]
    (by decide)
  refine ⟨line, hs, hline.mpr ?_, hlines.mpr fun j c hc => ?_⟩
  · rw [hs]
    exact ⟨(fair_iff.mp (fair_cleared (by decide) (by decide))).1, inertFor_stale, by decide⟩
  · have hmem : c ∈ untilExit (reads [[108, 115, 124, 119, 99]]) := List.mem_of_getElem? hc
    have hreads : untilExit (reads [[108, 115, 124, 119, 99]]) = [[108, 115, 124, 119, 99]] := by decide
    rw [hreads, List.mem_singleton] at hmem
    subst hmem
    exact ⟨inertFor_stale, by decide⟩

/-- After `a|b` the line `c|` has two commands. -/
theorem tail_counted : ¬ ∀ (line : Buf UInt8 512) (sc sc' : Scratch), line.Term → line.str.length ≤ 49 →
    LineOnly sc sc' line := by
  intro h
  obtain ⟨line, -, hs, ht⟩ := (Buf.zeros UInt8 512).put_spec (w := [99, 124]) (by decide) (by decide)
  obtain ⟨k, hone, htwo⟩ := (h line cleared stale ht (by rw [hs]; decide)).count
  have h1 : command_count cleared.count [99, 124] = some 1 := by decide +kernel
  have h2 : command_count stale.count [99, 124] = some 2 := by decide +kernel
  rw [hs] at hone htwo
  rw [h1] at hone
  rw [h2, ← hone] at htwo
  exact absurd htwo (by decide)

end Shell
end Autumn
