/-
# The piping shell: which end of which pipe a child holds (`main.c`)

For a line of `p_count` commands the shell opens one pipe and forks one child
for each command. Child `j` has a copy of the shell's descriptor table; it
takes the write end as its stdout if `j` is even and `p_count > 1`, and else
the read end as its stdin, and closes the ends.

With two commands that is a pipeline. With one, the child's stdin is an empty
pipe; with three or more, the second child's stdout and the third child's stdin
are the shell's own (`wired_iff`).

Key definitions: `Table`, `pipe`, `child`, `children`, `Wired`.
Key theorems: `pipe_spec`, `child_even`, `child_odd`, `wired_iff`.
-/
import Autumn.Lib.Fds

namespace Autumn
namespace Shell

/-- What a descriptor refers to: the read or the write end of a pipe, or
something else. -/
inductive End
  | read (pipe : ℕ)
  | write (pipe : ℕ)
  | other (k : ℕ)
  deriving DecidableEq, Repr

/-- The pipe an end belongs to. -/
def End.pipe? : End → Option ℕ
  | .read p => some p
  | .write p => some p
  | .other _ => none

/-- The shell's descriptors, with its own stdin, stdout and stderr open, and the
number of the next pipe: the pipes it knows have smaller ones. -/
structure Table where
  fds : Fds End
  next : ℕ
  std : ∀ n < 3, fds n ≠ none
  known : ∀ n e p, fds n = some e → e.pipe? = some p → p < next

/-- `pipe(pfd)`: the two lowest free descriptors, and the table with them. -/
def pipe (openMax : ℕ) (t : Table) : Option ((ℕ × ℕ) × Fds End) := do
  let r ← t.fds.lowestFree openMax
  let w ← (t.fds.put r (.read t.next)).lowestFree openMax
  some ((r, w), (t.fds.put r (.read t.next)).put w (.write t.next))

/-- What the child for command `j` of `p_count` does to its copy of the table
before `execve`. -/
def child (p_count : ℕ) (pfd : ℕ × ℕ) (t : Fds End) (j : ℕ) : Fds End :=
  if j % 2 = 0 ∧ p_count > 1 then ((t.close pfd.1).dup2 pfd.2 1).close pfd.2
  else ((t.close pfd.2).dup2 pfd.1 0).close pfd.1

/-- The tables of the children of a line of `p_count` commands. -/
def children (p_count : ℕ) (pfd : ℕ × ℕ) (t : Fds End) : List (Fds End) :=
  (List.range p_count).map (child p_count pfd t)

/-- The child reads from the pipe on its stdin. -/
def Reads (c : Fds End) (p : ℕ) : Prop := c 0 = some (.read p)

/-- The child writes to the pipe on its stdout. -/
def Writes (c : Fds End) (p : ℕ) : Prop := c 1 = some (.write p)

/-- The children form a pipeline between the stdin and the stdout in `t`: the
first one reads the stdin, the last one writes the stdout, and every other
stdout is joined to the next stdin by a pipe of these two children only. -/
structure Wired (t : Fds End) (cs : List (Fds End)) : Prop where
  first : ∀ c, cs[0]? = some c → c 0 = t 0
  last : ∀ c, cs[cs.length - 1]? = some c → c 1 = t 1
  joined : ∀ j c c', cs[j]? = some c → cs[j + 1]? = some c' → ∃ p, Writes c p ∧ Reads c' p ∧
    ∀ k d, k ≠ j → k ≠ j + 1 → cs[k]? = some d → ¬ Reads d p ∧ ¬ Writes d p

/-! ### The tables -/

/-- The new pipe's ends are at two free descriptors above 2, and the rest of
the table is as before. -/
theorem pipe_spec {openMax : ℕ} {t : Table} {pfd : ℕ × ℕ} {u : Fds End}
    (h : pipe openMax t = some (pfd, u)) :
    3 ≤ pfd.1 ∧ 3 ≤ pfd.2 ∧ pfd.1 ≠ pfd.2 ∧ u pfd.1 = some (.read t.next) ∧
      u pfd.2 = some (.write t.next) ∧ ∀ n < 3, u n = t.fds n := by
  obtain ⟨r, hr, h⟩ := Option.bind_eq_some_iff.mp h
  obtain ⟨w, hw, h⟩ := Option.bind_eq_some_iff.mp h
  cases h
  obtain ⟨-, hr0, -⟩ := Fds.lowestFree_spec.mp hr
  obtain ⟨-, hw0, -⟩ := Fds.lowestFree_spec.mp hw
  have h3 : 3 ≤ r := by
    by_contra hlt
    exact t.std r (by omega) hr0
  have hne : w ≠ r := fun he => by rw [he, Fds.put_self] at hw0; cases hw0
  have h3' : 3 ≤ w := by
    by_contra hlt
    rw [Fds.put_ne _ _ hne] at hw0
    exact t.std w (by omega) hw0
  refine ⟨h3, h3', hne.symm, ?_, Fds.put_self _ _ _, fun n hn => ?_⟩
  · rw [Fds.put_ne _ _ hne.symm, Fds.put_self]
  · rw [Fds.put_ne _ _ (by omega), Fds.put_ne _ _ (by omega)]

section Children

variable {openMax p_count j : ℕ} {t : Table} {pfd : ℕ × ℕ} {u : Fds End}
  (h : pipe openMax t = some (pfd, u))

include h

theorem child_even (hj : j % 2 = 0) (hn : p_count > 1) :
    child p_count pfd u j 0 = t.fds 0 ∧ child p_count pfd u j 1 = some (.write t.next) := by
  obtain ⟨h1, h2, hne, -, hw, hrest⟩ := pipe_spec h
  have hw' : u.close pfd.1 pfd.2 = some (.write t.next) := by rw [Fds.close_ne _ hne.symm, hw]
  rw [child, if_pos ⟨hj, hn⟩, Fds.dup2_eq hw']
  constructor
  · rw [Fds.close_ne _ (by omega), Fds.put_ne _ _ (by omega), Fds.close_ne _ (by omega),
      hrest 0 (by omega)]
  · rw [Fds.close_ne _ (by omega), Fds.put_self]

theorem child_odd (hj : ¬ (j % 2 = 0 ∧ p_count > 1)) :
    child p_count pfd u j 0 = some (.read t.next) ∧ child p_count pfd u j 1 = t.fds 1 := by
  obtain ⟨h1, h2, hne, hr, -, hrest⟩ := pipe_spec h
  have hr' : u.close pfd.2 pfd.1 = some (.read t.next) := by rw [Fds.close_ne _ hne, hr]
  rw [child, if_neg hj, Fds.dup2_eq hr']
  constructor
  · rw [Fds.close_ne _ (by omega), Fds.put_self]
  · rw [Fds.close_ne _ (by omega), Fds.put_ne _ _ (by omega), Fds.close_ne _ (by omega),
      hrest 1 (by omega)]

omit h in
theorem children_getElem? {j : ℕ} (hj : j < p_count) :
    (children p_count pfd u)[j]? = some (child p_count pfd u j) := by
  simp [children, hj]

theorem not_wired_one : ¬ Wired t.fds (children 1 pfd u) := by
  intro hW
  have h0 := hW.first _ (children_getElem? (by omega))
  rw [(child_odd h (by omega)).1] at h0
  exact lt_irrefl _ (t.known 0 _ t.next h0.symm rfl)

theorem wired_two : Wired t.fds (children 2 pfd u) := by
  have hc0 := child_even h (show 0 % 2 = 0 by omega) (show 2 > 1 by omega)
  have hc1 := child_odd h (show ¬(1 % 2 = 0 ∧ 2 > 1) by omega)
  refine ⟨fun c hc => ?_, fun c hc => ?_, fun j c c' hc hc' => ?_⟩
  · rw [children_getElem? (by omega)] at hc
    rw [← Option.some.inj hc]; exact hc0.1
  · have hlen : (children 2 pfd u).length - 1 = 1 := by simp [children]
    rw [hlen, children_getElem? (by omega)] at hc
    rw [← Option.some.inj hc]; exact hc1.2
  · have hj : j = 0 := by
      have := (List.getElem?_eq_some_iff.mp hc').1
      simp only [children, List.length_map, List.length_range] at this
      omega
    subst hj
    rw [children_getElem? (by omega)] at hc hc'
    refine ⟨t.next, ?_, ?_, fun k d hk hk' hd => ?_⟩
    · rw [Writes, ← Option.some.inj hc]; exact hc0.2
    · rw [Reads, ← Option.some.inj hc']; exact hc1.1
    · have := (List.getElem?_eq_some_iff.mp hd).1
      simp only [children, List.length_map, List.length_range] at this
      omega

theorem not_wired_of_three (hn : 3 ≤ p_count) : ¬ Wired t.fds (children p_count pfd u) := by
  intro hW
  obtain ⟨p, hw, hr, hothers⟩ := hW.joined 1 _ _ (children_getElem? (by omega)) (children_getElem? (by omega))
  have h2 := (child_even h (show 2 % 2 = 0 by omega) (show p_count > 1 by omega)).1
  have h0 := (child_even h (show 0 % 2 = 0 by omega) (show p_count > 1 by omega)).1
  have hstdin : t.fds 0 = some (.read p) := by rw [← h2]; exact hr
  exact (hothers 0 _ (by omega) (by omega) (children_getElem? (by omega))).1 (h0.trans hstdin)

end Children

/-- **The children of a line form a pipeline exactly when there are two.** -/
theorem wired_iff (openMax p_count : ℕ) (t : Table) (pfd : ℕ × ℕ) (u : Fds End) (hn : 1 ≤ p_count)
    (h : pipe openMax t = some (pfd, u)) : Wired t.fds (children p_count pfd u) ↔ p_count = 2 := by
  constructor
  · intro hW
    by_contra hne
    rcases Nat.lt_or_ge p_count 3 with hlt | hge
    · obtain rfl : p_count = 1 := by omega
      exact not_wired_one h hW
    · exact not_wired_of_three h hge hW
  · rintro rfl
    exact wired_two h

/-! ### A shell on a terminal -/

/-- The descriptors 0, 1 and 2 are the terminal. -/
def onTerminal : Table where
  fds n := if n < 3 then some (.other 0) else none
  next := 0
  std n hn := by simp [hn]
  known n e p he hp := by
    split at he
    · cases he; cases hp
    · cases he

/-- A line of one command, from a terminal: the child reads the pipe. -/
theorem one_command_reads_pipe : ¬ ∀ (openMax p_count : ℕ) (t : Table) (pfd : ℕ × ℕ) (u : Fds End),
    1 ≤ p_count → pipe openMax t = some (pfd, u) → Wired t.fds (children p_count pfd u) :=
  fun hall => not_wired_one (show pipe 8 onTerminal = some ((3, 4), _) from rfl)
    (hall 8 1 onTerminal (3, 4) _ le_rfl rfl)

theorem two_commands_wired : ∃ u, pipe 8 onTerminal = some ((3, 4), u) ∧
    Wired onTerminal.fds (children 2 (3, 4) u) :=
  ⟨_, rfl, (wired_iff 8 2 onTerminal (3, 4) _ (by decide) rfl).mpr rfl⟩

end Shell
end Autumn
