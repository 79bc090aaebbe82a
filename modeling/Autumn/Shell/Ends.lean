/-
# The piping shell: who has the ends of the pipe open (`main.c`)

A child that reads sees the end of the file when nobody has the write end open any
more, and one that writes is killed when nobody has the read end. The shell closes
both of its own after the last `fork`, and each child closes those it was born with,
after `dup2`. So of a line's pipe the write end is open exactly in the children that
write to it, the even ones of two or more, while they live; the read end in the
others (`ends_held_iff`). The descriptors of the shell itself are after each line
what they were before it: however many lines it runs, it does not run out of them.

Key definitions: `line`, `lines`, `Open`.
Key theorems: `closed_pipe`, `child_writes_iff`, `child_reads_iff`, `lines_fds`, `ends_held_iff`.
-/
import Autumn.Shell.Wiring

namespace Autumn
namespace Shell

theorem closed_pipe {openMax : ℕ} {t : Table} {pfd : ℕ × ℕ} {u : Fds End} (h : pipe openMax t = some (pfd, u)) :
    (u.close pfd.1).close pfd.2 = t.fds := by
  obtain ⟨r, hr, h⟩ := Option.bind_eq_some_iff.mp h
  obtain ⟨w, hw, h⟩ := Option.bind_eq_some_iff.mp h
  cases h
  obtain ⟨-, hr0, -⟩ := Fds.lowestFree_spec.mp hr
  obtain ⟨-, hw0, -⟩ := Fds.lowestFree_spec.mp hw
  have hne : w ≠ r := fun he => by rw [he, Fds.put_self] at hw0; cases hw0
  funext n
  by_cases hnw : n = w
  · rw [hnw, Fds.close_self]
    rw [Fds.put_ne _ _ hne] at hw0
    exact hw0.symm
  · rw [Fds.close_ne _ hnw]
    by_cases hnr : n = r
    · rw [hnr, Fds.close_self]
      exact hr0.symm
    · rw [Fds.close_ne _ hnr, Fds.put_ne _ _ hnw, Fds.put_ne _ _ hnr]

/-- The body of the shell's loop for a line of `p_count` commands: the children's
tables, and the shell's own after the two `close`s. -/
def line (openMax p_count : ℕ) (t : Table) : Option (List (Fds End) × Table) :=
  match h : pipe openMax t with
  | none => none
  | some (pfd, u) =>
    some (children p_count pfd u,
      { fds := (u.close pfd.1).close pfd.2
        next := t.next + 1
        std := by rw [closed_pipe h]; exact t.std
        known := fun n e p he hp => Nat.lt_succ_of_lt (t.known n e p (by rw [← closed_pipe h]; exact he) hp) })

/-- The shell's loop over lines of `ns` commands. -/
def lines (openMax : ℕ) (t : Table) : List ℕ → Option (List (List (Fds End)) × Table)
  | [] => some ([], t)
  | n :: ns => do
    let (cs, t) ← line openMax n t
    let (css, t) ← lines openMax t ns
    return (cs :: css, t)

/-- Somebody has `e` open: the shell, or a child that lives. -/
def Open (e : End) (shell : Fds End) (cs : List (Fds End)) (alive : ℕ → Prop) : Prop :=
  (∃ d, shell d = some e) ∨ ∃ j c d, alive j ∧ cs[j]? = some c ∧ c d = some e

/-! ### A child -/

section Child

variable {openMax p_count j : ℕ} {t : Table} {pfd : ℕ × ℕ} {u : Fds End}

theorem pipe_free (h : pipe openMax t = some (pfd, u)) : t.fds pfd.1 = none ∧ t.fds pfd.2 = none := by
  rw [← closed_pipe h]
  refine ⟨?_, Fds.close_self _ _⟩
  by_cases heq : pfd.1 = pfd.2
  · rw [heq, Fds.close_self]
  · rw [Fds.close_ne _ heq, Fds.close_self]

/-- What `dup2` and the two `close`s leave of the table: the end that was kept, at
`std`. -/
theorem child_keeps (h : pipe openMax t = some (pfd, u)) {kept other std : ℕ} {e : End} (hkept : u kept = some e)
    (hends : kept = pfd.1 ∧ other = pfd.2 ∨ kept = pfd.2 ∧ other = pfd.1) (hne : kept ≠ other) (hstd : std < 3)
    (h3 : 3 ≤ kept) (n : ℕ) :
    ((u.close other).dup2 kept std).close kept n = if n = std then some e else t.fds n := by
  obtain ⟨hf1, hf2⟩ := pipe_free h
  have hdup : u.close other kept = some e := by rw [Fds.close_ne _ hne, hkept]
  have hfree : t.fds kept = none ∧ t.fds other = none := by
    rcases hends with ⟨rfl, rfl⟩ | ⟨rfl, rfl⟩
    · exact ⟨hf1, hf2⟩
    · exact ⟨hf2, hf1⟩
  rw [Fds.dup2_eq hdup]
  by_cases hnk : n = kept
  · rw [hnk, Fds.close_self, if_neg (by omega), hfree.1]
  rw [Fds.close_ne _ hnk]
  by_cases hns : n = std
  · rw [hns, Fds.put_self, if_pos rfl]
  rw [Fds.put_ne _ _ hns, if_neg hns]
  by_cases hno : n = other
  · rw [hno, Fds.close_self, hfree.2]
  rw [Fds.close_ne _ hno, ← closed_pipe h]
  rcases hends with ⟨rfl, rfl⟩ | ⟨rfl, rfl⟩
  · rw [Fds.close_ne _ hno, Fds.close_ne _ hnk]
  · rw [Fds.close_ne _ hnk, Fds.close_ne _ hno]

/-- **What a child has open**: its end of the pipe, where it belongs, and else what
the shell had. -/
theorem child_eq (h : pipe openMax t = some (pfd, u)) (n : ℕ) : child p_count pfd u j n =
    if j % 2 = 0 ∧ p_count > 1 then (if n = 1 then some (.write t.next) else t.fds n)
    else if n = 0 then some (.read t.next) else t.fds n := by
  obtain ⟨h1, h2, hne, hr, hw, -⟩ := pipe_spec h
  unfold child
  split
  · exact child_keeps h hw (.inr ⟨rfl, rfl⟩) hne.symm (by decide) h2 n
  · exact child_keeps h hr (.inl ⟨rfl, rfl⟩) hne (by decide) h1 n

theorem Table.no_next (t : Table) {e : End} (he : e.pipe? = some t.next) (n : ℕ) : t.fds n ≠ some e :=
  fun hn => lt_irrefl _ (t.known n e t.next hn he)

theorem child_writes_iff (h : pipe openMax t = some (pfd, u)) :
    (∃ n, child p_count pfd u j n = some (.write t.next)) ↔ j % 2 = 0 ∧ p_count > 1 := by
  have hno := t.no_next (e := .write t.next) rfl
  constructor
  · rintro ⟨n, hn⟩
    rw [child_eq h] at hn
    by_contra hj
    rw [if_neg hj] at hn
    split at hn
    · cases hn
    · exact hno n hn
  · intro hj
    exact ⟨1, by rw [child_eq h, if_pos hj, if_pos rfl]⟩

theorem child_reads_iff (h : pipe openMax t = some (pfd, u)) :
    (∃ n, child p_count pfd u j n = some (.read t.next)) ↔ ¬ (j % 2 = 0 ∧ p_count > 1) := by
  have hno := t.no_next (e := .read t.next) rfl
  constructor
  · rintro ⟨n, hn⟩ hj
    rw [child_eq h, if_pos hj] at hn
    split at hn
    · cases hn
    · exact hno n hn
  · intro hj
    exact ⟨0, by rw [child_eq h, if_neg hj, if_pos rfl]⟩

end Child

/-! ### A line, and any number of them -/

section Line

variable {openMax n : ℕ} {t t' : Table} {cs : List (Fds End)}

theorem line_eq_some (h : line openMax n t = some (cs, t')) :
    (∃ pfd u, pipe openMax t = some (pfd, u) ∧ cs = children n pfd u) ∧ t'.fds = t.fds ∧ t'.next = t.next + 1 := by
  unfold line at h
  split at h
  · cases h
  · rename_i pfd u hp
    obtain ⟨rfl, rfl⟩ := Prod.mk.inj (Option.some.inj h)
    exact ⟨⟨pfd, u, hp, rfl⟩, closed_pipe hp, rfl⟩

theorem open_iff (h : line openMax n t = some (cs, t')) {e : End} (he : e.pipe? = some t.next) {alive : ℕ → Prop}
    {P : ℕ → Prop} (hP : ∀ pfd u, pipe openMax t = some (pfd, u) → ∀ j, (∃ d, child n pfd u j d = some e) ↔ P j) :
    Open e t.fds cs alive ↔ ∃ j < n, alive j ∧ P j := by
  obtain ⟨⟨pfd, u, hp, rfl⟩, -⟩ := line_eq_some h
  constructor
  · rintro (⟨d, hd⟩ | ⟨j, c, d, hj, hc, hd⟩)
    · exact absurd hd (t.no_next he d)
    · have hlt : j < n := by
        have := (List.getElem?_eq_some_iff.mp hc).1
        simpa [children] using this
      rw [children_getElem? hlt] at hc
      exact ⟨j, hlt, hj, (hP pfd u hp j).mp ⟨d, by rw [Option.some.inj hc]; exact hd⟩⟩
  · rintro ⟨j, hlt, hj, hPj⟩
    obtain ⟨d, hd⟩ := (hP pfd u hp j).mpr hPj
    exact .inr ⟨j, _, d, hj, children_getElem? hlt, hd⟩

theorem ends_of_line (h : line openMax n t = some (cs, t')) (alive : ℕ → Prop) :
    (Open (.write t.next) t.fds cs alive ↔ ∃ j < n, alive j ∧ (j % 2 = 0 ∧ n > 1)) ∧
    (Open (.read t.next) t.fds cs alive ↔ ∃ j < n, alive j ∧ ¬ (j % 2 = 0 ∧ n > 1)) :=
  ⟨open_iff h rfl fun _ _ hp _ => child_writes_iff hp, open_iff h rfl fun _ _ hp _ => child_reads_iff hp⟩

/-- Whether there are descriptors for a pipe is a matter of the table alone. -/
theorem isSome_pipe {u : Table} (hu : u.fds = t.fds) : (pipe openMax u).isSome = (pipe openMax t).isSome := by
  have hfree : ∀ (r : ℕ) (p q : ℕ), ((t.fds.put r (.read p)).lowestFree openMax) =
      (t.fds.put r (.read q)).lowestFree openMax := by
    intro r p q
    unfold Fds.lowestFree Fds.put
    congr 1
    funext n
    split <;> rfl
  unfold pipe
  rw [hu]
  cases t.fds.lowestFree openMax with
  | none => rfl
  | some r =>
    simp only [Option.bind_eq_bind, Option.bind_some]
    rw [hfree r u.next t.next]
    cases (t.fds.put r (.read t.next)).lowestFree openMax with
    | none => rfl
    | some w => rfl

theorem isSome_line : (line openMax n t).isSome = (pipe openMax t).isSome := by
  unfold line
  split
  · rename_i hp
    exact (congrArg Option.isSome hp).symm
  · rename_i hp
    exact (congrArg Option.isSome hp).symm

end Line

theorem lines_cons {openMax n : ℕ} {t t' : Table} {ns : List ℕ} {css : List (List (Fds End))}
    (h : lines openMax t (n :: ns) = some (css, t')) : ∃ cs u css', line openMax n t = some (cs, u) ∧
      lines openMax u ns = some (css', t') ∧ css = cs :: css' := by
  obtain ⟨⟨cs, u⟩, hl, h⟩ := Option.bind_eq_some_iff.mp h
  obtain ⟨⟨css', v⟩, hls, h⟩ := Option.bind_eq_some_iff.mp h
  obtain ⟨rfl, rfl⟩ := Prod.mk.inj (Option.some.inj h)
  exact ⟨cs, u, css', hl, hls, rfl⟩

theorem lines_fds {openMax : ℕ} : ∀ {ns : List ℕ} {t t' : Table} {css : List (List (Fds End))},
    lines openMax t ns = some (css, t') → t'.fds = t.fds
  | [], t, t', css, h => by
    obtain ⟨-, rfl⟩ := Prod.mk.inj (Option.some.inj h)
    rfl
  | n :: ns, t, t', css, h => by
    obtain ⟨cs, u, css', hl, hls, rfl⟩ := lines_cons h
    exact (lines_fds hls).trans (line_eq_some hl).2.1

theorem isSome_lines {openMax : ℕ} : ∀ (ns : List ℕ) (t : Table),
    (lines openMax t ns).isSome ↔ ns = [] ∨ (pipe openMax t).isSome
  | [], t => by simp [lines]
  | n :: ns, t => by
    rw [← isSome_line (n := n)]
    cases hl : line openMax n t with
    | none => simp [lines, hl]
    | some r =>
      obtain ⟨cs, u⟩ := r
      have hpipe : (pipe openMax u).isSome := by
        rw [isSome_pipe (line_eq_some hl).2.1, ← isSome_line (n := n), hl]
        rfl
      obtain ⟨v, hv⟩ := Option.isSome_iff_exists.mp ((isSome_lines ns u).mpr (.inr hpipe))
      simp [lines, hl, hv]

/-- Line `k` of a run is run as the first line is, on the next pipe. -/
theorem lines_getElem? {openMax : ℕ} : ∀ {ns : List ℕ} {t t' : Table} {css : List (List (Fds End))},
    lines openMax t ns = some (css, t') → ∀ {k n : ℕ} {cs : List (Fds End)}, ns[k]? = some n → css[k]? = some cs →
      ∃ u u', line openMax n u = some (cs, u') ∧ u.fds = t.fds ∧ u.next = t.next + k
  | [], t, t', css, _, k, n, cs, hn, _ => by simp at hn
  | m :: ns, t, t', css, h, 0, n, cs, hn, hcs => by
    obtain ⟨cs', u, css', hl, -, rfl⟩ := lines_cons h
    obtain rfl := Option.some.inj hn
    obtain rfl := Option.some.inj hcs
    exact ⟨t, u, hl, rfl, rfl⟩
  | m :: ns, t, t', css, h, k + 1, n, cs, hn, hcs => by
    obtain ⟨cs', u, css', hl, hls, rfl⟩ := lines_cons h
    obtain ⟨v, v', hv, hfds, hnext⟩ := lines_getElem? hls hn hcs
    refine ⟨v, v', hv, hfds.trans (line_eq_some hl).2.1, ?_⟩
    rw [hnext, (line_eq_some hl).2.2]
    omega

/-- **Who has the ends of the pipe.** The shell can run any number of lines if it can
run one, and keeps no descriptor of them; and while it waits for the children of one,
the write end is open exactly as long as an even child of two or more lives, and the
read end as long as another one does. -/
theorem ends_held_iff (openMax : ℕ) (t : Table) (ns : List ℕ) :
    ((lines openMax t ns).isSome ↔ ns = [] ∨ (pipe openMax t).isSome) ∧
    ∀ css t', lines openMax t ns = some (css, t') → t'.fds = t.fds ∧
      ∀ k n cs, ns[k]? = some n → css[k]? = some cs → ∀ alive : ℕ → Prop,
        (Open (.write (t.next + k)) t.fds cs alive ↔ ∃ j < n, alive j ∧ (j % 2 = 0 ∧ n > 1)) ∧
        (Open (.read (t.next + k)) t.fds cs alive ↔ ∃ j < n, alive j ∧ ¬ (j % 2 = 0 ∧ n > 1)) := by
  refine ⟨isSome_lines ns t, fun css t' h => ⟨lines_fds h, fun k n cs hn hcs alive => ?_⟩⟩
  obtain ⟨u, u', hl, hfds, hnext⟩ := lines_getElem? h hn hcs
  rw [← hnext, ← hfds]
  exact ends_of_line hl alive

/-- Three lines on a terminal. Of the second one, of three commands, the first and
the last child keep the write end open: the reader waits for both. -/
theorem ends_held_iff_threeLines : ∃ css t', lines 8 onTerminal [1, 3, 2] = some (css, t') ∧
    t'.fds = onTerminal.fds ∧ ∀ cs, css[1]? = some cs → Open (.write 1) onTerminal.fds cs (fun j => j = 2) ∧
      ¬ Open (.write 1) onTerminal.fds cs fun j => j = 1 := by
  obtain ⟨hsome, h⟩ := ends_held_iff 8 onTerminal [1, 3, 2]
  obtain ⟨⟨css, t'⟩, hl⟩ := Option.isSome_iff_exists.mp (hsome.mpr (.inr rfl))
  obtain ⟨hfds, hends⟩ := h css t' hl
  refine ⟨css, t', hl, hfds, fun cs hcs => ⟨?_, ?_⟩⟩
  · exact (hends 1 3 cs rfl hcs fun j => j = 2).1.mpr ⟨2, by decide, rfl, by decide⟩
  · intro hopen
    obtain ⟨j, -, rfl, hj⟩ := (hends 1 3 cs rfl hcs fun j => j = 1).1.mp hopen
    exact absurd hj.1 (by decide)

end Shell
end Autumn
