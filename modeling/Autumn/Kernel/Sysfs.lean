/-
# The sysfs file that answers a greeting (`sys/hello.c`)

A write of "hello" and a newline, with anything behind it, puts the word into
`foo`, and the next read clears `foo` and answers. `sscanf` has no limit, but the
word it finds there has five characters, so it fits; over every history a read
answers exactly if there has been a greeting since the last read
(`answered_iff_waiting`).

`sys_init` creates an object in `/sys/kernel` and a file in it. If it cannot create
the file, it fails and leaves the object there; no object of this name can be
created any more, so every later load fails too (`loadable_iff`).

The kernel puts a NUL behind what is written; behind that there may be anything.
`kobject_put` removes the object with its file.

Key definitions: `foo_store`, `foo_show`, `sys_init`, `sys_exit`, `sys`, `Waiting`,
`FileCreated`.
Key theorems: `foo_store_spec`, `answered_iff_waiting`, `init_spec`, `loadable_iff`.
-/
import Autumn.Lib.Resources
import Autumn.Lib.Sscanf

namespace Autumn
namespace Sysfs

open Resources Sscanf

/-! ### Loading and unloading -/

/-- The object in `/sys/kernel`, and the file in it. -/
inductive Resource
  | kobject
  | file
  deriving DecidableEq, Repr

def needs : Resource → Finset Resource
  | .kobject => ∅
  | .file => {.kobject}

/-- What the calls of `sys_init` answer: whether there is memory for an object, and
0 or an error. -/
structure Answers where
  kobject_create_and_add : Bool
  sysfs_create_file : ℤ
  deriving Repr

def ENOMEM : ℤ := 12

/-- `sys_init()`: what it returns, and what is held. No two objects have one name. -/
def sys_init (c : Answers) (held : Finset Resource) : Option (ℤ × Finset Resource) :=
  if c.kobject_create_and_add ∧ .kobject ∉ held then do
    let held ← take needs held .kobject
    if c.sysfs_create_file = 0 then (take needs held .file).map fun held => (0, held)
    else some (c.sysfs_create_file, held)
  else some (-ENOMEM, held)

/-- `kobject_put(example_kobject)` -/
def sys_exit (held : Finset Resource) : Option (Finset Resource) :=
  giveAll needs held [(.file, .file ∈ held), (.kobject, true)]

/-- The module's variable is `foo`. -/
def hello_module : Loadable Resource Answers (Buf UInt8 6) where
  init c held := (sys_init c held).map fun p => (if p.1 = 0 then some (Buf.zeros UInt8 6) else none, p.2)
  exit _ held := sys_exit held

/-! ### The file -/

/-- `"hello\n"` -/
def hello : List UInt8 := [104, 101, 108, 108, 111, 10]

/-- `answer`, `"Hi!\n"` -/
def answer : List UInt8 := [72, 105, 33, 10]

/-- `foo_store`; `buf` is the memory from the kernel's copy on. -/
def foo_store (foo : Buf UInt8 6) (buf : List UInt8) : Option (Buf UInt8 6) :=
  if buf.take 6 = hello then foo.put (scan_s buf) else some foo

/-- `foo_show`: what it prints, and `foo`. -/
def foo_show (foo : Buf UInt8 6) : Option (List UInt8 × Buf UInt8 6) :=
  if foo.Term then some (if foo.str.length ≠ 0 then (answer, Buf.zeros UInt8 6) else ([], foo)) else none

/-! ### The module -/

/-- The module is loaded or unloaded, or its file is written or read. -/
inductive Action
  | life (a : Resources.Action Answers)
  | store (text behind : List UInt8)
  | show

/-- One action; only a loaded module has its file. -/
def step (s : State Resource (Buf UInt8 6)) : Action → Option (State Resource (Buf UInt8 6))
  | .life a => hello_module.step s a
  | .store text behind => s.vars.bind fun foo => (foo_store foo (text ++ 0 :: behind)).map fun foo => ⟨some foo, s.held⟩
  | .show => s.vars.bind fun foo => (foo_show foo).map fun p => ⟨some p.2, s.held⟩

def sys : System (State Resource (Buf UInt8 6)) Action where
  init s := s = ⟨none, ∅⟩
  step := step

/-- The text begins with the greeting. -/
def Greets : Action → Prop
  | .store text _ => hello <+: text
  | _ => False

/-- There has been a greeting, and no read since, and the module has not been
loaded anew. -/
def Waiting (as : List Action) : Prop :=
  ∃ p a r, as = p ++ a :: r ∧ Greets a ∧ .show ∉ r ∧ ∀ c, .life c ∉ r

/-- If the load creates the object, it creates the file too. -/
def FileCreated (s : State Resource (Buf UInt8 6)) : Action → Prop
  | .life (.load c) => c.kobject_create_and_add = true ∧ .kobject ∉ s.held → c.sysfs_create_file = 0
  | _ => True

/-! ### Greetings and answers -/

/-- `"hello"` -/
def word : List UInt8 := [104, 101, 108, 108, 111]

theorem compares_iff (text behind : List UInt8) : (text ++ 0 :: behind).take 6 = hello ↔ hello <+: text := by
  constructor
  · intro h
    rcases Nat.lt_or_ge text.length 6 with hlt | hge
    · -- the NUL is compared with a character of the greeting
      have hmem : (0 : UInt8) ∈ (text ++ 0 :: behind).take 6 := by
        rw [List.take_append, List.mem_append]
        obtain ⟨k, hk⟩ : ∃ k, 6 - text.length = k + 1 := ⟨5 - text.length, by omega⟩
        rw [hk, List.take_succ_cons]
        exact .inr List.mem_cons_self
      rw [h] at hmem
      exact absurd hmem (by decide)
    · rw [List.take_append_of_le_length hge] at h
      exact h ▸ List.take_prefix 6 text
  · rintro ⟨r, rfl⟩
    rfl

theorem scan_s_hello (r : List UInt8) : scan_s (hello ++ r) = word := by
  have hnz : (0 : UInt8) ∉ hello := by decide
  rw [scan_s, cstr_append hnz]
  rfl

/-- **A write** puts the word into `foo` if it is a greeting. -/
theorem foo_store_spec (foo : Buf UInt8 6) (text behind : List UInt8) :
    ∃ foo', foo_store foo (text ++ 0 :: behind) = some foo' ∧
      (hello <+: text → foo'.Term ∧ foo'.str = word) ∧ (¬ hello <+: text → foo' = foo) := by
  rw [foo_store]
  by_cases h : hello <+: text
  · obtain ⟨foo', hput, hstr, hterm⟩ := foo.put_spec (w := word) (by decide) (by decide)
    obtain ⟨r, rfl⟩ := h
    rw [if_pos ((compares_iff _ _).mpr ⟨r, rfl⟩), List.append_assoc, scan_s_hello]
    exact ⟨foo', hput, fun _ => ⟨hterm, hstr⟩, fun hno => absurd ⟨r, rfl⟩ hno⟩
  · rw [if_neg fun hcmp => h ((compares_iff _ _).mp hcmp)]
    exact ⟨foo, rfl, fun hyes => absurd hyes h, fun _ => rfl⟩

/-- What `foo` holds: the word of a greeting that waits for its answer, or zeros. -/
def Pending (foo : Buf UInt8 6) (waiting : Prop) : Prop :=
  waiting ∧ foo.Term ∧ foo.str = word ∨ ¬ waiting ∧ foo = Buf.zeros UInt8 6

/-- **A read** answers a greeting that waits, and clears `foo`. -/
theorem Pending.foo_show {foo : Buf UInt8 6} {waiting : Prop} (h : Pending foo waiting) : ∃ out,
    foo_show foo = some (out, Buf.zeros UInt8 6) ∧ (waiting ∧ out = answer ∨ ¬ waiting ∧ out = []) := by
  rw [Sysfs.foo_show]
  rcases h with ⟨hw, hterm, hstr⟩ | ⟨hw, rfl⟩
  · exact ⟨answer, by rw [if_pos hterm, if_pos (by rw [hstr]; decide)], .inl ⟨hw, rfl⟩⟩
  · exact ⟨[], rfl, .inr ⟨hw, rfl⟩⟩

theorem waiting_concat {as : List Action} {a : Action} :
    Waiting (as ++ [a]) ↔ Greets a ∨ Waiting as ∧ a ≠ .show ∧ ∀ c, a ≠ .life c := by
  constructor
  · rintro ⟨p, b, r, heq, hb, hshow, hlife⟩
    rcases concat_eq_append_cons heq with ⟨-, -, rfl⟩ | ⟨r, rfl, rfl⟩
    · exact .inl hb
    · simp only [List.mem_append, List.mem_singleton, not_or] at hshow hlife
      exact .inr ⟨⟨p, b, r, rfl, hb, hshow.1, fun c => (hlife c).1⟩, Ne.symm hshow.2, fun c => Ne.symm (hlife c).2⟩
  · rintro (ha | ⟨⟨p, b, r, rfl, hb, hshow, hlife⟩, hns, hnl⟩)
    · exact ⟨as, a, [], rfl, ha, by simp, by simp⟩
    · refine ⟨p, b, r ++ [a], by simp, hb, ?_, fun c => ?_⟩
      · rw [List.mem_append, List.mem_singleton, not_or]
        exact ⟨hshow, Ne.symm hns⟩
      · rw [List.mem_append, List.mem_singleton, not_or]
        exact ⟨hlife c, Ne.symm (hnl c)⟩

theorem life_vars {s t : State Resource (Buf UInt8 6)} {a : Resources.Action Answers} {foo : Buf UInt8 6}
    (h : hello_module.step s a = some t) (hv : t.vars = some foo) : foo = Buf.zeros UInt8 6 := by
  cases a with
  | load c =>
    rw [Loadable.step] at h
    split at h
    · cases h
    · obtain ⟨p, hp, rfl⟩ := Option.map_eq_some_iff.mp h
      obtain ⟨q, -, rfl⟩ := Option.map_eq_some_iff.mp hp
      dsimp only at hv
      split at hv
      · exact (Option.some.inj hv).symm
      · cases hv
  | unload =>
    obtain ⟨vars, -, h⟩ := Option.bind_eq_some_iff.mp h
    obtain ⟨held, -, rfl⟩ := Option.map_eq_some_iff.mp h
    cases hv

theorem run_pending : ∀ {as : List Action} {s : State Resource (Buf UInt8 6)} {foo : Buf UInt8 6},
    sys.run ⟨none, ∅⟩ as = some s → s.vars = some foo → Pending foo (Waiting as) := by
  intro as
  induction as using List.reverseRecOn with
  | nil =>
    intro s foo h hv
    cases h
    cases hv
  | append_singleton as a ih =>
    intro t foo h hv
    rw [System.run_concat] at h
    obtain ⟨s, hs, hst⟩ := Option.bind_eq_some_iff.mp h
    cases a with
    | life c =>
      have hno : ¬ Waiting (as ++ [.life c]) := by
        rw [waiting_concat]
        rintro (hg | ⟨-, -, hc⟩)
        · exact hg
        · exact hc c rfl
      exact .inr ⟨hno, life_vars hst hv⟩
    | store text behind =>
      obtain ⟨foo0, hv0, hst⟩ := Option.bind_eq_some_iff.mp hst
      obtain ⟨foo', hfoo, rfl⟩ := Option.map_eq_some_iff.mp hst
      cases hv
      obtain ⟨foo2, h2, hyes, hno⟩ := foo_store_spec foo0 text behind
      obtain rfl := Option.some.inj (hfoo.symm.trans h2)
      by_cases hg : hello <+: text
      · exact .inl ⟨waiting_concat.mpr (.inl hg), hyes hg⟩
      · have hiff : Waiting (as ++ [.store text behind]) ↔ Waiting as := by
          rw [waiting_concat]
          exact ⟨fun h => (h.resolve_left hg).1, fun h => .inr ⟨h, nofun, nofun⟩⟩
        rw [Pending, hiff, hno hg]
        exact ih hs hv0
    | «show» =>
      obtain ⟨foo0, hv0, hst⟩ := Option.bind_eq_some_iff.mp hst
      obtain ⟨p, hp, rfl⟩ := Option.map_eq_some_iff.mp hst
      cases hv
      obtain ⟨out, hout, -⟩ := (ih hs hv0).foo_show
      obtain rfl := Option.some.inj (hp.symm.trans hout)
      have hno : ¬ Waiting (as ++ [.show]) := by
        rw [waiting_concat]
        rintro (hg | ⟨-, hc, -⟩)
        · exact hg
        · exact hc rfl
      exact .inr ⟨hno, rfl⟩

/-- **A read answers exactly if a greeting waits**, after any history; and no write
or read leaves `foo`. -/
theorem answered_iff_waiting (as : List Action) (s : State Resource (Buf UInt8 6)) (foo : Buf UInt8 6)
    (h : sys.run ⟨none, ∅⟩ as = some s) (hv : s.vars = some foo) :
    (∃ out, foo_show foo = some (out, Buf.zeros UInt8 6) ∧ (Waiting as ∧ out = answer ∨ ¬ Waiting as ∧ out = [])) ∧
      ∀ text behind, ∃ t, sys.step s (.store text behind) = some t := by
  refine ⟨(run_pending h hv).foo_show, fun text behind => ?_⟩
  obtain ⟨foo', hfoo, -⟩ := foo_store_spec foo text behind
  exact ⟨⟨some foo', s.held⟩, by simp [sys, step, hv, hfoo]⟩

/-- A greeting with an exclamation mark on the next line. -/
def greeted : List Action := [.life (.load ⟨true, 0⟩), .store (hello ++ [33]) []]

theorem answered_iff_waiting_greeted : ∃ s foo, sys.run ⟨none, ∅⟩ greeted = some s ∧ s.vars = some foo ∧
    foo_show foo = some (answer, Buf.zeros UInt8 6) := by
  have hrun : ∃ s foo, sys.run ⟨none, ∅⟩ greeted = some s ∧ s.vars = some foo := ⟨_, _, rfl, rfl⟩
  obtain ⟨s, foo, hs, hv⟩ := hrun
  have hw : Waiting greeted := ⟨[.life (.load ⟨true, 0⟩)], _, [], rfl, List.prefix_append hello [33], nofun, nofun⟩
  obtain ⟨⟨out, hout, ⟨-, rfl⟩ | ⟨hno, -⟩⟩, -⟩ := answered_iff_waiting greeted s foo hs hv
  · exact ⟨s, foo, hs, hv, hout⟩
  · exact absurd hw hno

/-! ### What stays in `/sys/kernel` -/

/-- Nothing is left behind: a loaded module has the object and the file. -/
def Good (s : State Resource (Buf UInt8 6)) : Prop :=
  (s.vars = none → s.held = ∅) ∧ (s.vars ≠ none → s.held = {.file, .kobject})

/-- The object is left behind. -/
def Bad (s : State Resource (Buf UInt8 6)) : Prop := s.vars = none ∧ s.held = {.kobject}

/-- **Loading**, when there is no object of the name. -/
theorem init_spec (c : Answers) : ∃ ret held, sys_init c ∅ = some (ret, held) ∧
    (c.kobject_create_and_add = false ∧ ret ≠ 0 ∧ held = ∅ ∨
      c.kobject_create_and_add = true ∧ c.sysfs_create_file = 0 ∧ ret = 0 ∧ held = {.file, .kobject} ∨
      c.kobject_create_and_add = true ∧ c.sysfs_create_file ≠ 0 ∧ ret ≠ 0 ∧ held = {.kobject}) := by
  have hobject : take needs ∅ .kobject = some {.kobject} := take_eq (by decide) (by decide)
  have hfile : take needs {.kobject} .file = some {.file, .kobject} := take_eq (by decide) (by decide)
  rw [sys_init]
  by_cases hc : c.kobject_create_and_add = true
  · rw [if_pos ⟨hc, by decide⟩, hobject, Option.bind_eq_bind, Option.bind_some]
    by_cases hf : c.sysfs_create_file = 0
    · rw [if_pos hf, hfile]
      exact ⟨0, _, rfl, .inr (.inl ⟨hc, hf, rfl, rfl⟩)⟩
    · rw [if_neg hf]
      exact ⟨_, _, rfl, .inr (.inr ⟨hc, hf, hf, rfl⟩)⟩
  · rw [if_neg fun h => hc h.1]
    exact ⟨-ENOMEM, ∅, rfl, .inl ⟨by simpa using hc, by decide, rfl⟩⟩

theorem exit_spec : sys_exit {.file, .kobject} = some ∅ := by
  have hrest : ({.file, .kobject} : Finset Resource) \ {.file, .kobject} = ∅ := Finset.sdiff_self _
  rw [sys_exit, giveAll_eq]
  · exact congrArg some hrest
  · simp
  · simp
  · simp [needs]
  · simp [needs]
  · simp

theorem step_file {s t : State Resource (Buf UInt8 6)} {a : Action} (ha : ∀ c, a ≠ .life c) (h : step s a = some t) :
    s.vars ≠ none ∧ t.vars ≠ none ∧ t.held = s.held := by
  cases a with
  | life c => exact absurd rfl (ha c)
  | store text behind =>
    obtain ⟨foo, hv, h⟩ := Option.bind_eq_some_iff.mp h
    obtain ⟨foo', -, rfl⟩ := Option.map_eq_some_iff.mp h
    exact ⟨by simp [hv], nofun, rfl⟩
  | «show» =>
    obtain ⟨foo, hv, h⟩ := Option.bind_eq_some_iff.mp h
    obtain ⟨p, -, rfl⟩ := Option.map_eq_some_iff.mp h
    exact ⟨by simp [hv], nofun, rfl⟩

theorem good_step (s : State Resource (Buf UInt8 6)) (a : Action) (t : State Resource (Buf UInt8 6)) (hg : Good s)
    (h : sys.step s a = some t) : FileCreated s a ∧ Good t ∨ ¬ FileCreated s a ∧ Bad t := by
  rcases a with (c | _) | ⟨text, behind⟩ | _
  · have hv : s.vars = none := by
      by_contra hv
      have hnone : hello_module.step s (.load c) = none := if_pos (Option.isSome_iff_ne_none.mpr hv)
      cases hnone.symm.trans h
    have hheld := hg.1 hv
    obtain ⟨ret, held, hinit, hcases⟩ := init_spec c
    have ht : t = ⟨if ret = 0 then some (Buf.zeros UInt8 6) else none, held⟩ := by
      have hstep : hello_module.step s (.load c) = some ⟨if ret = 0 then some (Buf.zeros UInt8 6) else none, held⟩ := by
        simp [Loadable.step, hv, hheld, hello_module, hinit]
      exact Option.some.inj (h.symm.trans hstep)
    subst ht
    rw [FileCreated, hheld, and_iff_left (Finset.notMem_empty _)]
    rcases hcases with ⟨hc, hret, rfl⟩ | ⟨hc, hf, rfl, rfl⟩ | ⟨hc, hf, hret, rfl⟩
    · exact .inl ⟨by simp [hc], by simp [Good, hret]⟩
    · exact .inl ⟨fun _ => hf, by simp [Good]⟩
    · exact .inr ⟨fun hall => hf (hall hc), by simp [Bad, hret]⟩
  · obtain ⟨foo, hv, h⟩ := Option.bind_eq_some_iff.mp h
    obtain ⟨held, hexit, rfl⟩ := Option.map_eq_some_iff.mp h
    have hheld : s.held = {.file, .kobject} := hg.2 (by simp [hv])
    have hexit' : sys_exit s.held = some held := hexit
    rw [hheld, exit_spec] at hexit'
    obtain rfl := Option.some.inj hexit'
    exact .inl ⟨trivial, fun _ => rfl, fun hne => absurd rfl hne⟩
  · obtain ⟨hs, ht, hheld⟩ := step_file (a := .store text behind) (by simp) h
    exact .inl ⟨trivial, fun hn => absurd hn ht, fun _ => hheld.trans (hg.2 hs)⟩
  · obtain ⟨hs, ht, hheld⟩ := step_file (a := .show) (by simp) h
    exact .inl ⟨trivial, fun hn => absurd hn ht, fun _ => hheld.trans (hg.2 hs)⟩

theorem bad_step (s : State Resource (Buf UInt8 6)) (a : Action) (t : State Resource (Buf UInt8 6)) (hb : Bad s)
    (h : sys.step s a = some t) : Bad t := by
  obtain ⟨hv, hheld⟩ := hb
  rcases a with (c | _) | ⟨text, behind⟩ | _
  · have hinit : sys_init c s.held = some (-ENOMEM, s.held) := by
      rw [sys_init, if_neg]
      rw [hheld]
      exact fun h => h.2 (Finset.mem_singleton_self _)
    have hstep : hello_module.step s (.load c) = some ⟨none, s.held⟩ := by
      simp [Loadable.step, hv, hello_module, hinit, ENOMEM]
    obtain rfl := Option.some.inj (hstep.symm.trans h)
    exact ⟨rfl, hheld⟩
  · obtain ⟨foo, hv', -⟩ := Option.bind_eq_some_iff.mp h
    cases hv.symm.trans hv'
  · exact absurd hv (step_file (a := .store text behind) (by simp) h).1
  · exact absurd hv (step_file (a := .show) (by simp) h).1

/-- **The module can still be loaded**, now or later, exactly if no load has created
the object without the file. -/
theorem loadable_iff (as : List Action) (s : State Resource (Buf UInt8 6)) (h : sys.run ⟨none, ∅⟩ as = some s) :
    (∃ bs t, sys.run s bs = some t ∧ t.vars ≠ none) ↔ sys.Meets FileCreated ⟨none, ∅⟩ as := by
  rcases System.run_good_or_bad good_step bad_step ⟨fun _ => rfl, fun hne => absurd rfl hne⟩ h with
    ⟨hmeets, hg⟩ | ⟨hmeets, hb⟩
  · refine iff_of_true ?_ hmeets
    by_cases hv : s.vars = none
    · have hstep : hello_module.step s (.load ⟨true, 0⟩) =
          some ⟨some (Buf.zeros UInt8 6), {.file, .kobject}⟩ := by
        rw [Loadable.step, hv, hg.1 hv]
        rfl
      exact ⟨[.life (.load ⟨true, 0⟩)], _, by rw [System.run_single]; exact hstep, by simp⟩
    · exact ⟨[], s, rfl, hv⟩
  · refine iff_of_false ?_ hmeets
    rintro ⟨bs, t, hr, hv⟩
    exact hv (System.run_invariant bad_step hb hr).1

/-- A load that cannot create the file. -/
def leftBehind : List Action := [.life (.load ⟨true, -12⟩)]

theorem loadable_iff_leftBehind : ∃ s, sys.run ⟨none, ∅⟩ leftBehind = some s ∧
    ¬ ∃ bs t, sys.run s bs = some t ∧ t.vars ≠ none := by
  have hrun : ∃ s, sys.run ⟨none, ∅⟩ leftBehind = some s := ⟨_, rfl⟩
  obtain ⟨s, hs⟩ := hrun
  have hmeets : ¬ sys.Meets FileCreated ⟨none, ∅⟩ leftBehind := by
    rintro ⟨hc, -⟩
    exact absurd (hc ⟨rfl, Finset.notMem_empty _⟩) (by decide)
  exact ⟨s, hs, fun h => hmeets ((loadable_iff leftBehind s hs).mp h)⟩

end Sysfs
end Autumn
