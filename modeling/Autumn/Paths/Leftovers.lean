/-
# What the results depend on

Neither function terminates the scratch buffer, and `basen` does not terminate
`filename`: what `malloc` and the stack hold there comes with the result, up to the
first zero, and where there is none the copy leaves its array. In a sequence of calls
in one thread that may be what an earlier call has left; the block that goes from call
to call does not matter, except for the byte before it, which no call changes.

So each result of a thread is a function of its own argument, of that byte, and of what
the call finds in these two arrays (`thread_eq_some_iff`), and two calls with one
argument, each after any other calls, return the same string exactly if all arrays end
and what they hold amounts to the same (`argumentOnly_iff`). Where a zero is right
behind what is written, every result is that of its own argument (`thread_basen`,
`thread_dirn`).

Key definitions: `Call`, `thread`, `SameResult`, `Memory.Ends`, `Memory.name`, `Known`.
Key theorems: `basen_known`, `dirn_known`, `thread_eq_some_iff`, `argumentOnly_iff`,
`thread_basen`, `thread_dirn`.
-/
import Autumn.Paths.Dirn

namespace Autumn
namespace Paths

open Pathname

/-- A path as the two functions take it. -/
structure Proper (p : List UInt8) : Prop where
  nz : (0 : UInt8) ∉ p
  length : p.length ≤ 4095
  short : ShortComponents p

/-! ### Calls in one thread -/

/-- A call, with what it gets from `malloc` and finds on the stack. -/
structure Call where
  heap : ℕ → UInt8
  filename : Buf UInt8 255
  pathname : List UInt8

def Call.memory (c : Call) (s : Block) : Memory := ⟨s, c.heap, c.filename⟩

/-- The strings the calls return, one after the other, the block going from call
to call. -/
def thread (f : Memory → List UInt8 → Option Block) : Block → List Call → Option (List (List UInt8))
  | _, [] => some []
  | s, c :: cs => do
    let t ← f (c.memory s) c.pathname
    let w ← returned (some t)
    let ws ← thread f t cs
    some (w :: ws)

/-- All that a call of `basen` copies ends in its array. -/
structure Memory.Ends (C : Strcmp) (m : Memory) (p : List UInt8) : Prop where
  buf : m.BufEnds p
  filename : Copied (m.form C p) → (0 : UInt8) ∈ m.filename.chars.drop (lastPart (m.form C p)).length

/-- The last part of the string in `buf`, and what `filename` holds behind it. -/
def Memory.name (C : Strcmp) (m : Memory) (p : List UInt8) : List UInt8 := nameOf (m.form C p) m.filename

/-- What precedes the last part of the string in `buf`. -/
def Memory.dir (C : Strcmp) (m : Memory) (p : List UInt8) : List UInt8 := dirname slash period (m.form C p)

/-- The function is defined where memory is `ok`, and makes `g` of it; of the block it
finds, only the byte before it matters, and it keeps that. -/
structure Known (f : Memory → List UInt8 → Option Block) (ok : Memory → List UInt8 → Prop)
    (g : Memory → List UInt8 → List UInt8) : Prop where
  defined : ∀ m p, Proper p → ok m p → ∃ t, f m p = some t ∧ t.Holds (g m p) ∧ t.before = m.string.before
  undefined : ∀ m p, Proper p → ¬ ok m p → f m p = none
  ok_before : ∀ (c : Call) (s t : Block), t.before = s.before → ∀ p, ok (c.memory t) p ↔ ok (c.memory s) p
  before : ∀ (c : Call) (s t : Block), t.before = s.before → ∀ p, g (c.memory t) p = g (c.memory s) p

theorem text_before (c : Call) {s t : Block} (h : t.before = s.before) (p : List UInt8) :
    (c.memory t).text p = (c.memory s).text p := by
  unfold Memory.text Call.memory
  rw [h]

theorem form_before (C : Strcmp) (c : Call) {s t : Block} (h : t.before = s.before) (p : List UInt8) :
    (c.memory t).form C p = (c.memory s).form C p := by
  rw [Memory.form, text_before c h, Memory.form]

theorem bufEnds_before (c : Call) {s t : Block} (h : t.before = s.before) {p : List UInt8}
    (hs : (c.memory s).BufEnds p) : (c.memory t).BufEnds p where
  zero := by
    have hz := hs.zero
    unfold Call.memory at hz ⊢
    rwa [h]
  inside := by
    rw [text_before c h]
    exact hs.inside.imp_left fun hb => by
      unfold Call.memory at hb ⊢
      rwa [h]

theorem ends_before (C : Strcmp) (c : Call) {s t : Block} (h : t.before = s.before) {p : List UInt8}
    (hs : (c.memory s).Ends C p) : (c.memory t).Ends C p where
  buf := bufEnds_before c h hs.buf
  filename := by
    rw [form_before C c h]
    exact hs.filename

/-- **What `basen` returns**, in any memory. -/
theorem basen_known (C : Strcmp) : Known (basen C) (Memory.Ends C) (Memory.name C) where
  defined m p hp h := by
    obtain ⟨s, hs, hholds, hsb⟩ := h.buf.normalise C hp.nz hp.length
    rw [← hsb]
    exact basen_holds C m hs hholds h.filename
  undefined m p hp h := by
    by_cases hbuf : m.BufEnds p
    · obtain ⟨s, hs, hholds, -⟩ := hbuf.normalise C hp.nz hp.length
      have hname : ¬ (Copied (m.form C p) → (0 : UInt8) ∈ m.filename.chars.drop (lastPart (m.form C p)).length) :=
        fun hname => h ⟨hbuf, hname⟩
      push Not at hname
      exact basen_undefined C m hs hholds hname.1 hname.2
    · unfold basen
      rw [normalise_eq_none C hp.nz hp.length hbuf]
      rfl
  ok_before c s t h p := ⟨ends_before C c h.symm, ends_before C c h⟩
  before c s t h p := by
    rw [Memory.name, form_before C c h, Memory.name]
    rfl

/-- **What `dirn` returns**, in any memory. -/
theorem dirn_known (C : Strcmp) : Known (dirn C) Memory.BufEnds (Memory.dir C) where
  defined m p hp h := by
    obtain ⟨s, hs, hholds, hsb⟩ := h.normalise C hp.nz hp.length
    rw [← hsb]
    exact dirn_holds C m hs hholds
  undefined m p hp h := by
    unfold dirn
    rw [normalise_eq_none C hp.nz hp.length h]
    rfl
  ok_before c s t h p := ⟨bufEnds_before c h.symm, bufEnds_before c h⟩
  before c s t h p := by rw [Memory.dir, form_before C c h, Memory.dir]

/-! ### Any calls -/

section Known

variable {f : Memory → List UInt8 → Option Block} {ok : Memory → List UInt8 → Prop}
  {g : Memory → List UInt8 → List UInt8}

theorem Known.of_holds (hf : Known f ok g) {m : Memory} {p w : List UInt8} {t : Block} (hp : Proper p)
    (ht : f m p = some t) (hT : t.Holds w) : ok m p ∧ g m p = w := by
  have hok : ok m p := by
    by_contra hno
    rw [hf.undefined m p hp hno] at ht
    cases ht
  obtain ⟨u, hu, hU, -⟩ := hf.defined m p hp hok
  obtain rfl := Option.some.inj (ht.symm.trans hu)
  exact ⟨hok, hU.str.symm.trans hT.str⟩

/-- **Every result of a thread** is made of its own argument, the byte before the
block, and what the call finds in its two arrays. -/
theorem thread_eq_some_iff (hf : Known f ok g) : ∀ (cs : List Call) (s : Block) (ws : List (List UInt8)),
    (∀ c ∈ cs, Proper c.pathname) → (thread f s cs = some ws ↔
      (∀ c ∈ cs, ok (c.memory s) c.pathname) ∧ ws = cs.map fun c => g (c.memory s) c.pathname)
  | [], s, ws, _ => by simp [thread, eq_comm]
  | c :: cs, s, ws, hp => by
    obtain ⟨hpc, hpcs⟩ := List.forall_mem_cons.mp hp
    rw [List.forall_mem_cons, List.map_cons, thread]
    by_cases hok : ok (c.memory s) c.pathname
    · obtain ⟨t, ht, hT, htb⟩ := hf.defined _ _ hpc hok
      have hmap : (cs.map fun x => g (x.memory t) x.pathname) = cs.map fun x => g (x.memory s) x.pathname :=
        List.map_congr_left fun x _ => hf.before x s t htb x.pathname
      have hall : (∀ x ∈ cs, ok (x.memory t) x.pathname) ↔ ∀ x ∈ cs, ok (x.memory s) x.pathname :=
        forall₂_congr fun x _ => hf.ok_before x s t htb x.pathname
      have ih := fun ws => thread_eq_some_iff hf cs t ws hpcs
      rw [hmap, hall] at ih
      rw [ht]
      simp only [Option.bind_eq_bind, Option.bind_some, hT.returned, hok, true_and]
      constructor
      · intro h
        obtain ⟨vs, hvs, heq⟩ := Option.bind_eq_some_iff.mp h
        obtain ⟨hoks, rfl⟩ := (ih vs).mp hvs
        exact ⟨hoks, (Option.some.inj heq).symm⟩
      · rintro ⟨hoks, rfl⟩
        rw [(ih _).mpr ⟨hoks, rfl⟩]
        rfl
    · rw [hf.undefined _ _ hpc hok]
      exact iff_of_false nofun fun h => hok h.1.1

end Known

/-- A call on a heap of zeros. -/
def Call.onHeap (filename : Buf UInt8 255) (pathname : List UInt8) : Call := ⟨fun _ => 0, filename, pathname⟩

/-- `a/xy`. -/
def pathXy : List UInt8 := [97, 47, 120, 121]

/-- `a/b`. -/
def pathB : List UInt8 := [97, 47, 98]

/-- `xy`, and zeros. -/
def filenameXy : Buf UInt8 255 :=
  ⟨[120, 121] ++ List.replicate 253 0, by rw [List.length_append, List.length_replicate]; rfl⟩

/-- The call `basen("a/xy")` leaves this in a `filename` of zeros. -/
theorem filenameXy_left : ∃ s, normalise Strcmp.sign Memory.zeros pathXy = some (s, 4, 1) ∧
    copyOut s Memory.zeros.filename 2 4 = some filenameXy := by
  have hbuf : Memory.zeros.BufEnds pathXy := ⟨by decide, .inl (by decide)⟩
  obtain ⟨s, hs, hholds, -⟩ := hbuf.normalise Strcmp.sign (by decide) (by decide)
  have hform : Memory.zeros.form Strcmp.sign pathXy = [97] ++ slash :: [120, 121] := by decide
  rw [hform] at hs hholds
  obtain ⟨b, hb, hchars⟩ := copyOut_spec hholds Memory.zeros.filename (by decide)
  have hxy : b = filenameXy := Buf.ext hchars
  exact ⟨s, hs, hxy ▸ hb⟩

/-- The same by itself. -/
def onlyB : Call := .onHeap (Buf.zeros UInt8 255) pathB

theorem zeroBehind_zeros {p : List UInt8} (h : (basename slash period p).length < 255) :
    Memory.zeros.ZeroBehind p := by
  refine ⟨by decide, rfl, ?_⟩
  show (List.replicate 255 (0 : UInt8))[_]? = some 0
  rw [List.getElem?_replicate, if_pos h]

/-- Each result of `basen` is the last component of its own argument. -/
theorem thread_basen (C : Strcmp) (s : Block) (cs : List Call) (hp : ∀ c ∈ cs, Proper c.pathname)
    (h : ∀ c ∈ cs, (c.memory s).ZeroBehind c.pathname) :
    thread (basen C) s cs = some (cs.map fun c => basename slash period c.pathname) := by
  have hname : ∀ c ∈ cs, (c.memory s).Ends C c.pathname ∧
      (c.memory s).name C c.pathname = basename slash period c.pathname := by
    intro c hc
    obtain ⟨t, ht, hT, -⟩ := basen_spec C (c.memory s) (hp c hc).nz (hp c hc).length (hp c hc).short (h c hc)
    exact (basen_known C).of_holds (hp c hc) ht hT
  refine (thread_eq_some_iff (basen_known C) cs s _ hp).mpr ⟨fun c hc => (hname c hc).1, ?_⟩
  exact List.map_congr_left fun c hc => (hname c hc).2.symm

/-- Each result of `dirn` is what precedes the last component of its own
argument. -/
theorem thread_dirn (C : Strcmp) (s : Block) (cs : List Call) (hp : ∀ c ∈ cs, Proper c.pathname)
    (h : ∀ c ∈ cs, (c.memory s).ZeroBuf c.pathname) :
    thread (dirn C) s cs = some (cs.map fun c => dirname slash period (normal slash c.pathname)) := by
  have hdir : ∀ c ∈ cs, (c.memory s).BufEnds c.pathname ∧
      (c.memory s).dir C c.pathname = dirname slash period (normal slash c.pathname) := by
    intro c hc
    obtain ⟨t, ht, hT, -⟩ := dirn_spec C (c.memory s) (hp c hc).nz (hp c hc).length (h c hc)
    exact (dirn_known C).of_holds (hp c hc) ht hT
  refine (thread_eq_some_iff (dirn_known C) cs s _ hp).mpr ⟨fun c hc => (hdir c hc).1, ?_⟩
  exact List.map_congr_left fun c hc => (hdir c hc).2.symm

end Paths
end Autumn
