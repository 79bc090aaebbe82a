/-
# Threads that accept and serve (`server models/2` and `server models/4`)

What the two servers whose threads call `accept` themselves do with
connections, without how a thread comes to its `accept`: a free thread accepts
a connection under the lowest free descriptor, then makes three calls on it,
`recv`, `send` and `close`, and is free again. The steps of the threads
interleave in any order.

`Served` says that no interleaving mixes two connections up: each one has had
its whole script from the thread that accepted it, or that thread is in the
middle of it. `Replied` says what the interleaving leaves of each thread by
itself: the loop `serve` over what it has received.

Key definitions: `service`, `Served`, `Replied`, `Inv`, `Main`, `Created`.
Key theorems: `step_moves`, `inv_step`, `exists_accept`, `replied_step`.
-/
import Mathlib.Data.Finset.Image
import Mathlib.Data.Fintype.Card
import Autumn.Lib.System
import Autumn.Server.Common
import Autumn.Server.Replies

namespace Autumn
namespace Server
namespace Service

/-- What a thread has in hand: nothing, or a connection on which the named call
is the next. -/
inductive Hand
  | free
  | recv (cfd : ℤ)
  | send (cfd : ℤ)
  | close (cfd : ℤ)
  deriving DecidableEq, Repr

structure State (W : Type) where
  fds : Fds Desc
  hand : W → Hand
  buf : W → Buf UInt8 bufSize
  accepted : List (W × ℤ)
  log : List (Event W)

/-- The call of a thread; `data` is what arrives at its `recv`. -/
inductive Action (W : Type)
  | accept (w : W)
  | recv (w : W) (data : List UInt8)
  | send (w : W)
  | close (w : W)

section Machine

variable {W : Type} [DecidableEq W]

/-- Thread `w` makes a call on `cfd`, and has `h` in hand then. -/
def State.record (s : State W) (w : W) (c : Call) (cfd : ℤ) (bytes : List UInt8) (h : Hand) : State W :=
  { s with
    log := s.log ++ [⟨w, c, cfd, look s.fds cfd, bytes⟩]
    hand := Function.update s.hand w h }

def step (openMax : ℕ) (s : State W) : Action W → Option (State W)
  | .accept w =>
    match s.hand w with
    | .free =>
      (s.fds.lowestFree openMax).map fun cfd =>
        { s with
          fds := s.fds.put cfd (.conn s.accepted.length)
          accepted := s.accepted ++ [(w, (cfd : ℤ))]
          hand := Function.update s.hand w (.recv cfd) }
    | _ => none
  | .recv w data =>
    match s.hand w with
    | .recv cfd =>
      (receive (s.buf w) data).map fun buf =>
        { s.record w .recv cfd data (.send cfd) with buf := Function.update s.buf w buf }
    | _ => none
  | .send w =>
    match s.hand w with
    | .send cfd =>
      some { s.record w .send cfd (s.buf w).chars (.close cfd) with
        buf := Function.update s.buf w (Buf.zeros UInt8 bufSize) }
    | _ => none
  | .close w =>
    match s.hand w with
    | .close cfd => some { s.record w .close cfd [] .free with fds := shut s.fds cfd }
    | _ => none

/-- All runs over descriptors of which those below `base` are open at first,
none of them for a connection; `buf` is what the threads' buffers hold then. -/
def service (base openMax : ℕ) (buf : W → Buf UInt8 bufSize) : System (State W) (Action W) where
  init s := (∀ n, s.fds n ≠ none → n < base) ∧ (∀ w, s.hand w = .free) ∧ s.buf = buf ∧ s.accepted = [] ∧ s.log = []
  step := step openMax

end Machine

/-! ### What holds of the connections -/

/-- The descriptor in hand, and how many calls on it have been made. -/
def Hand.made : Hand → Option (ℤ × ℕ)
  | .free => none
  | .recv cfd => some (cfd, 0)
  | .send cfd => some (cfd, 1)
  | .close cfd => some (cfd, 2)

@[simp] theorem made_free : Hand.free.made = none := rfl

@[simp] theorem made_recv (cfd : ℤ) : (Hand.recv cfd).made = some (cfd, 0) := rfl

@[simp] theorem made_send (cfd : ℤ) : (Hand.send cfd).made = some (cfd, 1) := rfl

@[simp] theorem made_close (cfd : ℤ) : (Hand.close cfd).made = some (cfd, 2) := rfl

/-- The calls it takes to have nothing in hand. -/
def Hand.left : Hand → ℕ
  | .free => 0
  | .recv _ => 3
  | .send _ => 2
  | .close _ => 1

section Connections

variable {W : Type}

/-- Thread `w` has connection `k` in hand, with `n` calls on it made. -/
structure Holds (s : State W) (w : W) (k : ℕ) (cfd : ℤ) (n : ℕ) : Prop where
  made : (s.hand w).made = some (cfd, n)
  accepted : s.accepted[k]? = some (w, cfd)
  open_ : look s.fds cfd = some (.conn k)
  calls : calls s.log k = (script w cfd).take n

/-- Every connection is served once, whole, by the thread that accepted it and
through the descriptor value accepted. -/
structure Served (s : State W) : Prop where
  /-- A connection has had its whole script from the thread that accepted it,
  or that thread is in the middle of it and the descriptor is still its. -/
  once : ∀ k w cfd, s.accepted[k]? = some (w, cfd) → calls s.log k = script w cfd ∨ ∃ n, Holds s w k cfd n
  /-- What a thread has in hand is a connection it accepted. -/
  busy : ∀ w cfd n, (s.hand w).made = some (cfd, n) → ∃ k, Holds s w k cfd n
  /-- No call is made on a connection before it is accepted. -/
  untouched : ∀ k, s.accepted.length ≤ k → calls s.log k = []
  /-- No thread calls on anything but a connection. -/
  conns : ∀ e ∈ s.log, ∃ k, e.on = some (.conn k)

/-- Every connection accepted has had its whole script. -/
def AllClosed (s : State W) : Prop :=
  ∀ k w cfd, s.accepted[k]? = some (w, cfd) → calls s.log k = script w cfd

structure Inv (base : ℕ) (s : State W) : Prop where
  served : Served s
  /-- A descriptor in use was open at first or is in some hand. -/
  table : ∀ n : ℕ, s.fds n ≠ none → n < base ∨ ∃ w m, (s.hand w).made = some ((n : ℤ), m)

theorem Holds.frame {s t : State W} {w : W} {k : ℕ} {cfd : ℤ} {n : ℕ} (h : Holds s w k cfd n)
    (hw : t.hand w = s.hand w) (ha : s.accepted <+: t.accepted) (ho : look t.fds cfd = some (.conn k))
    (hc : Server.calls t.log k = Server.calls s.log k) : Holds t w k cfd n where
  made := by rw [hw]; exact h.made
  accepted := getElem?_of_prefix ha h.accepted
  open_ := ho
  calls := by rw [hc]; exact h.calls

theorem Holds.ne {s : State W} {w w' : W} {k k' : ℕ} {cfd cfd' : ℤ} {n n' : ℕ} (h : Holds s w k cfd n)
    (h' : Holds s w' k' cfd' n') (hne : w ≠ w') : k ≠ k' := by
  rintro rfl
  exact hne (congrArg Prod.fst (Option.some.inj (h.accepted.symm.trans h'.accepted)))

theorem Holds.fd_ne {s : State W} {w w' : W} {k k' : ℕ} {cfd cfd' : ℤ} {n n' : ℕ} (h : Holds s w k cfd n)
    (h' : Holds s w' k' cfd' n') (hne : w ≠ w') : cfd ≠ cfd' := by
  rintro rfl
  apply h.ne h' hne
  exact Desc.conn.inj (Option.some.inj (h.open_.symm.trans h'.open_))

theorem Inv.allClosed {base : ℕ} {s : State W} (hI : Inv base s) (h : ∀ w, s.hand w = .free) : AllClosed s := by
  intro k w cfd hk
  refine (hI.served.once k w cfd hk).resolve_right ?_
  rintro ⟨n, hn⟩
  have := hn.made
  rw [h w] at this
  cases this

end Connections

/-! ### What a step can do -/

variable {W : Type} [DecidableEq W]

/-- The step, with what it needs. -/
inductive Moves (openMax : ℕ) (s : State W) : Action W → State W → Prop
  | accept (w : W) (cfd : ℕ) : s.hand w = .free → s.fds.lowestFree openMax = some cfd →
      Moves openMax s (.accept w)
        { s with
          fds := s.fds.put cfd (.conn s.accepted.length)
          accepted := s.accepted ++ [(w, (cfd : ℤ))]
          hand := Function.update s.hand w (.recv cfd) }
  | recv (w : W) (data : List UInt8) (cfd : ℤ) (buf : Buf UInt8 bufSize) : s.hand w = .recv cfd →
      receive (s.buf w) data = some buf →
      Moves openMax s (.recv w data)
        { s.record w .recv cfd data (.send cfd) with buf := Function.update s.buf w buf }
  | send (w : W) (cfd : ℤ) : s.hand w = .send cfd →
      Moves openMax s (.send w)
        { s.record w .send cfd (s.buf w).chars (.close cfd) with
          buf := Function.update s.buf w (Buf.zeros UInt8 bufSize) }
  | close (w : W) (cfd : ℤ) : s.hand w = .close cfd →
      Moves openMax s (.close w) { s.record w .close cfd [] .free with fds := shut s.fds cfd }

theorem step_moves {openMax : ℕ} {s t : State W} {a : Action W} (h : step openMax s a = some t) :
    Moves openMax s a t := by
  cases a with
  | accept w =>
    simp only [step] at h
    split at h
    · rename_i hw
      obtain ⟨cfd, hcfd, rfl⟩ := Option.map_eq_some_iff.mp h
      exact .accept w cfd hw hcfd
    · cases h
  | recv w data =>
    simp only [step] at h
    split at h
    · rename_i cfd hw
      obtain ⟨buf, hbuf, rfl⟩ := Option.map_eq_some_iff.mp h
      exact .recv w data cfd buf hw hbuf
    · cases h
  | send w =>
    simp only [step] at h
    split at h
    · rename_i cfd hw
      cases h
      exact .send w cfd hw
    · cases h
  | close w =>
    simp only [step] at h
    split at h
    · rename_i cfd hw
      cases h
      exact .close w cfd hw
    · cases h

/-! ### The invariant -/

theorem inv_init {base openMax : ℕ} {buf : W → Buf UInt8 bufSize} {s : State W}
    (h : (service base openMax buf).init s) : Inv base s := by
  obtain ⟨hf, hw, -, ha, hl⟩ := h
  refine ⟨⟨fun k w cfd hk => ?_, fun w cfd n hn => ?_, fun k _ => ?_, fun e he => ?_⟩, fun n hn => .inl (hf n hn)⟩
  · simp [ha] at hk
  · simp [hw] at hn
  · rw [hl, calls_nil]
  · simp [hl] at he

theorem inv_accept {base openMax : ℕ} {s : State W} (hI : Inv base s) {w : W} {cfd : ℕ}
    (hw : s.hand w = .free) (h : s.fds.lowestFree openMax = some cfd) :
    Inv base { s with
      fds := s.fds.put cfd (.conn s.accepted.length)
      accepted := s.accepted ++ [(w, (cfd : ℤ))]
      hand := Function.update s.hand w (.recv cfd) } := by
  set t : State W := { s with
      fds := s.fds.put cfd (.conn s.accepted.length)
      accepted := s.accepted ++ [(w, (cfd : ℤ))]
      hand := Function.update s.hand w (.recv cfd) } with ht
  have hfree : s.fds cfd = none := (Fds.lowestFree_spec.mp h).2.1
  have hpre : s.accepted <+: t.accepted := List.prefix_append _ _
  have hnew : Holds t w s.accepted.length cfd 0 := by
    refine ⟨by simp [ht], List.getElem?_concat_length, ?_, hI.served.untouched _ le_rfl⟩
    rw [ht, look_put, if_pos rfl]
  have hne : ∀ w', w' ≠ w → t.hand w' = s.hand w' := fun w' h => Function.update_of_ne h _ _
  have hframe : ∀ w' k c n, Holds s w' k c n → Holds t w' k c n := by
    intro w' k c n hh
    refine hh.frame (hne w' ?_) hpre (look_put_of_look hfree _ hh.open_) rfl
    rintro rfl
    have := hh.made
    rw [hw] at this
    cases this
  refine ⟨⟨fun k w' c hk => ?_, fun w' c n hn => ?_, fun k hk => ?_, hI.served.conns⟩, fun n hn => ?_⟩
  · rcases lt_or_ge k s.accepted.length with hlt | hge
    · rw [ht, List.getElem?_append_left hlt] at hk
      exact (hI.served.once k w' c hk).imp_right fun ⟨n, hn⟩ => ⟨n, hframe w' k c n hn⟩
    · -- the connection just accepted
      have hk' := (List.getElem?_eq_some_iff.mp hk).1
      simp only [ht, List.length_append, List.length_singleton] at hk'
      obtain rfl : k = s.accepted.length := by omega
      rw [ht, List.getElem?_concat_length, Option.some.injEq, Prod.mk.injEq] at hk
      obtain ⟨rfl, rfl⟩ := hk
      exact .inr ⟨0, hnew⟩
  · by_cases hww : w' = w
    · subst hww
      simp only [ht, Function.update_self, made_recv, Option.some.injEq, Prod.mk.injEq] at hn
      obtain ⟨rfl, rfl⟩ := hn
      exact ⟨_, hnew⟩
    · rw [hne w' hww] at hn
      obtain ⟨k, hk⟩ := hI.served.busy w' c n hn
      exact ⟨k, hframe w' k c n hk⟩
  · apply hI.served.untouched k
    simp only [ht, List.length_append, List.length_singleton] at hk
    omega
  · by_cases hnc : n = cfd
    · subst hnc
      exact .inr ⟨w, 0, hnew.made⟩
    · refine (hI.table n fun h0 => hn ((Fds.put_ne _ _ hnc).trans h0)).imp_right ?_
      rintro ⟨w', m, hm⟩
      obtain ⟨k, hk⟩ := hI.served.busy w' n m hm
      exact ⟨w', m, (hframe w' k n m hk).made⟩

/-- A call on the connection in hand: the thread goes on with it, or has nothing
in hand after the last one. -/
theorem Served.of_call {s t : State W} (hS : Served s) {w : W} {k : ℕ} {cfd : ℤ} {n : ℕ} {h : Hand} {c : Call}
    (bytes : List UInt8) (hk : Holds s w k cfd n) (hc : (script w cfd)[n]? = some (w, c, cfd))
    (hlog : t.log = s.log ++ [⟨w, c, cfd, some (.conn k), bytes⟩])
    (hhand : t.hand = Function.update s.hand w h) (hacc : t.accepted = s.accepted)
    (hfds : ∀ fd d, fd ≠ cfd → look s.fds fd = some d → look t.fds fd = some d)
    (hnext : h.made = none ∧ n = 2 ∨ h.made = some (cfd, n + 1) ∧ look t.fds cfd = some (.conn k)) :
    Served t := by
  have hself : t.hand w = h := by rw [hhand, Function.update_self]
  have hne : ∀ w', w' ≠ w → t.hand w' = s.hand w' := fun w' h => by rw [hhand, Function.update_of_ne h]
  have hcalls : calls t.log k = (script w cfd).take (n + 1) := by
    rw [hlog]
    exact calls_concat_script bytes hk.calls hc
  have hother : ∀ j, j ≠ k → calls t.log j = calls s.log j := by
    intro j hj
    rw [hlog]
    exact calls_concat_of_ne rfl (Ne.symm hj)
  have hframe : ∀ w' j c' m, w' ≠ w → Holds s w' j c' m → Holds t w' j c' m := fun w' j c' m hw hj =>
    hj.frame (hne w' hw) (hacc ▸ List.prefix_refl _) (hfds c' _ (hj.fd_ne hk hw) hj.open_)
      (hother j (hj.ne hk hw))
  refine ⟨fun j w' c' hj => ?_, fun w' c' m hm => ?_, fun j hj => ?_, fun e he => ?_⟩
  · rw [hacc] at hj
    by_cases hjk : j = k
    · subst hjk
      obtain ⟨rfl, rfl⟩ := Prod.mk.inj (Option.some.inj (hj.symm.trans hk.accepted))
      rcases hnext with ⟨-, rfl⟩ | ⟨hmade, hopen⟩
      · exact .inl hcalls
      · exact .inr ⟨n + 1, hself ▸ hmade, hacc ▸ hj, hopen, hcalls⟩
    · rcases hS.once j w' c' hj with hdone | ⟨m, hm⟩
      · exact .inl ((hother j hjk).trans hdone)
      · refine .inr ⟨m, hframe w' j c' m ?_ hm⟩
        rintro rfl
        -- the thread has one connection in hand
        obtain ⟨rfl, -⟩ := Prod.mk.inj (Option.some.inj (hm.made.symm.trans hk.made))
        exact hjk (Desc.conn.inj (Option.some.inj (hm.open_.symm.trans hk.open_)))
  · by_cases hw : w' = w
    · subst hw
      rw [hself] at hm
      rcases hnext with ⟨hmade, -⟩ | ⟨hmade, hopen⟩
      · rw [hmade] at hm
        cases hm
      · obtain ⟨rfl, rfl⟩ := Prod.mk.inj (Option.some.inj (hm.symm.trans hmade))
        exact ⟨k, hself ▸ hmade, hacc ▸ hk.accepted, hopen, hcalls⟩
    · rw [hne w' hw] at hm
      obtain ⟨j, hj⟩ := hS.busy w' c' m hm
      exact ⟨j, hframe w' j c' m hw hj⟩
  · rw [hacc] at hj
    have hlt := (List.getElem?_eq_some_iff.mp hk.accepted).1
    rw [hother j (by omega)]
    exact hS.untouched j hj
  · rw [hlog, List.mem_append, List.mem_singleton] at he
    rcases he with he | rfl
    · exact hS.conns e he
    · exact ⟨k, rfl⟩

theorem inv_call {base : ℕ} {s : State W} (hI : Inv base s) {w : W} {cfd : ℤ} {n : ℕ} {h : Hand} {c : Call}
    (bytes : List UInt8) (buf : W → Buf UInt8 bufSize) (hw : (s.hand w).made = some (cfd, n))
    (hh : h.made = some (cfd, n + 1)) (hc : (script w cfd)[n]? = some (w, c, cfd)) :
    Inv base { s.record w c cfd bytes h with buf } := by
  obtain ⟨k, hk⟩ := hI.served.busy w cfd n hw
  refine ⟨hI.served.of_call bytes hk hc (by rw [← hk.open_]; rfl) rfl rfl (fun _ _ _ => id)
    (.inr ⟨hh, hk.open_⟩), fun m hm => ?_⟩
  refine (hI.table m hm).imp_right fun ⟨w', i, hi⟩ => ?_
  by_cases hww : w' = w
  · subst hww
    obtain ⟨rfl, -⟩ := Prod.mk.inj (Option.some.inj (hi.symm.trans hw))
    exact ⟨w', n + 1, (congrArg Hand.made (Function.update_self _ _ _)).trans hh⟩
  · exact ⟨w', i, (congrArg Hand.made (Function.update_of_ne hww _ _)).trans hi⟩

theorem inv_close {base : ℕ} {s : State W} (hI : Inv base s) {w : W} {cfd : ℤ} (hw : s.hand w = .close cfd) :
    Inv base { s.record w .close cfd [] .free with fds := shut s.fds cfd } := by
  obtain ⟨k, hk⟩ := hI.served.busy w cfd 2 (by rw [hw]; rfl)
  refine ⟨hI.served.of_call [] hk rfl (by rw [← hk.open_]; rfl) rfl rfl (fun fd d hne hd => ?_)
    (.inl ⟨rfl, rfl⟩), fun m hm => ?_⟩
  · rw [look_shut, if_neg hne]
    exact hd
  · have hshut := look_shut s.fds cfd m
    rw [look_natCast, look_natCast] at hshut
    have hne : (m : ℤ) ≠ cfd := fun h => hm (hshut.trans (if_pos h))
    rw [if_neg hne] at hshut
    refine (hI.table m (hshut ▸ hm)).imp_right fun ⟨w', i, hi⟩ => ?_
    have hww : w' ≠ w := by
      rintro rfl
      rw [hw, made_close, Option.some.injEq, Prod.mk.injEq] at hi
      exact hne hi.1.symm
    exact ⟨w', i, (congrArg Hand.made (Function.update_of_ne hww _ _)).trans hi⟩

theorem inv_step {base openMax : ℕ} {s t : State W} {a : Action W} (hI : Inv base s)
    (h : step openMax s a = some t) : Inv base t := by
  cases step_moves h with
  | accept w cfd hw hfree => exact inv_accept hI hw hfree
  | recv w data cfd buf hw _ => exact inv_call hI data _ (by rw [hw]; rfl) rfl rfl
  | send w cfd hw => exact inv_call hI _ _ (by rw [hw]; rfl) rfl rfl
  | close w cfd hw => exact inv_close hI hw

theorem reachable_inv {base openMax : ℕ} {buf : W → Buf UInt8 bufSize} {s : State W}
    (h : (service base openMax buf).Reachable s) : Inv base s :=
  h.invariant (fun _ => inv_init) fun _ _ _ hI _ => inv_step hI

/-! ### When a call is possible -/

/-- Where the limit leaves a descriptor for each thread, a free thread's `accept`
finds one. -/
theorem exists_accept [Fintype W] {base openMax : ℕ} {s : State W} (hI : Inv base s) {w : W}
    (hw : s.hand w = .free) (h : base + Fintype.card W ≤ openMax) : ∃ cfd, s.fds.lowestFree openMax = some cfd := by
  let fd (v : W) : ℕ := ((s.hand v).made.elim 0 Prod.fst).toNat
  apply Fds.exists_lowestFree (Finset.range base ∪ (Finset.univ.erase w).image fd)
  · intro m hm
    rw [Finset.mem_union, Finset.mem_range, Finset.mem_image]
    refine (hI.table m hm).imp_right fun ⟨v, n, hv⟩ => ⟨v, ?_, by simp [fd, hv]⟩
    rw [Finset.mem_erase, and_iff_left (Finset.mem_univ v)]
    rintro rfl
    rw [hw] at hv
    cases hv
  · have hpos : 0 < Fintype.card W := Fintype.card_pos_iff.mpr ⟨w⟩
    have hcard : ((Finset.univ.erase w).image fd).card ≤ Fintype.card W - 1 := by
      refine Finset.card_image_le.trans ?_
      rw [Finset.card_erase_of_mem (Finset.mem_univ w), Finset.card_univ]
    calc (Finset.range base ∪ (Finset.univ.erase w).image fd).card
        ≤ (Finset.range base).card + ((Finset.univ.erase w).image fd).card := Finset.card_union_le _ _
      _ ≤ base + (Fintype.card W - 1) := by rw [Finset.card_range]; omega
      _ < openMax := by omega

/-! ### Each thread by itself -/

/-- The calls `c` of thread `w`: on which descriptor, and with what bytes. -/
def exchanged (c : Call) (log : List (Event W)) (w : W) : List (ℤ × List UInt8) :=
  (log.filter fun e => e.worker = w ∧ e.call = c).map fun e => (e.fd, e.bytes)

theorem exchanged_concat (c : Call) (log : List (Event W)) (e : Event W) (w : W) :
    exchanged c (log ++ [e]) w =
      if e.worker = w ∧ e.call = c then exchanged c log w ++ [(e.fd, e.bytes)] else exchanged c log w := by
  unfold exchanged
  by_cases h : e.worker = w ∧ e.call = c
  · simp [List.filter_append, h]
  · rw [if_neg h, List.filter_append]
    simp [h]

/-- What the thread has done is what the loop over `serve` does with the clients
it has received from, one after another, the reply in hand counted as sent. -/
def Replied (buf : W → Buf UInt8 bufSize) (s : State W) (w : W) : Prop :=
  ∃ cs : List Client, cs.map (fun c => (c.cfd, c.data)) = exchanged .recv s.log w ∧
    cs.foldlM serve ⟨buf w, []⟩ = some
      (match s.hand w with
      | .send cfd => ⟨Buf.zeros UInt8 bufSize, exchanged .send s.log w ++ [(cfd, (s.buf w).chars)]⟩
      | _ => ⟨s.buf w, exchanged .send s.log w⟩)

theorem replied_init {base openMax : ℕ} {buf : W → Buf UInt8 bufSize} {s : State W}
    (h : (service base openMax buf).init s) (w : W) : Replied buf s w := by
  obtain ⟨-, hw, hb, -, hl⟩ := h
  refine ⟨[], by rw [hl]; rfl, ?_⟩
  rw [hw w, hl, hb]
  rfl

/-- The other threads' steps are nothing to this one. -/
theorem Replied.frame {buf : W → Buf UInt8 bufSize} {s t : State W} {w : W} (h : Replied buf s w)
    (hw : t.hand w = s.hand w) (hb : t.buf w = s.buf w) (hlog : ∀ c, exchanged c t.log w = exchanged c s.log w) :
    Replied buf t w := by
  obtain ⟨cs, hcs, hl⟩ := h
  exact ⟨cs, hcs.trans (hlog .recv).symm, by rw [hw, hb, hlog]; exact hl⟩

theorem exchanged_of_ne {c c' : Call} {log : List (Event W)} {v w : W} {fd : ℤ} {on : Option Desc}
    {bytes : List UInt8} (h : v ≠ w ∨ c ≠ c') :
    exchanged c' (log ++ [⟨v, c, fd, on, bytes⟩]) w = exchanged c' log w := by
  rw [exchanged_concat, if_neg]
  rintro ⟨hv, hc⟩
  exact h.elim (fun h => h hv) fun h => h hc

theorem exchanged_self (c : Call) (log : List (Event W)) (w : W) (fd : ℤ) (on : Option Desc)
    (bytes : List UInt8) :
    exchanged c (log ++ [⟨w, c, fd, on, bytes⟩]) w = exchanged c log w ++ [(fd, bytes)] := by
  rw [exchanged_concat, if_pos ⟨rfl, rfl⟩]

theorem replied_step {openMax : ℕ} {buf : W → Buf UInt8 bufSize} {s t : State W} {a : Action W}
    (h : step openMax s a = some t) (w : W) (hR : Replied buf s w) : Replied buf t w := by
  cases step_moves h with
  | accept v cfd hv hfree =>
    by_cases hvw : w = v
    · subst hvw
      obtain ⟨cs, hcs, hl⟩ := hR
      rw [hv] at hl
      refine ⟨cs, hcs, ?_⟩
      simp only [Function.update_self]
      exact hl
    · exact hR.frame (Function.update_of_ne hvw _ _) rfl fun _ => rfl
  | recv v data cfd b hv hb =>
    by_cases hvw : w = v
    · subst hvw
      obtain ⟨cs, hcs, hl⟩ := hR
      rw [hv] at hl
      have hle : data.length ≤ bufSize := by
        obtain ⟨b', hb', -⟩ := Option.map_eq_some_iff.mp hb
        have := (Buf.store_spec.mp hb').1
        omega
      refine ⟨cs ++ [⟨cfd, data, hle⟩], ?_, ?_⟩
      · rw [State.record, exchanged_self, List.map_append, hcs]
        rfl
      · have hserve : serve ⟨s.buf w, exchanged .send s.log w⟩ ⟨cfd, data, hle⟩ =
            some ⟨Buf.zeros UInt8 bufSize, exchanged .send s.log w ++ [(cfd, b.chars)]⟩ := by
          rw [serve, hb]
          rfl
        simp only [State.record, Function.update_self, exchanged_of_ne (.inr (by decide : Call.recv ≠ .send))]
        rw [List.foldlM_append, hl, Option.bind_eq_bind, Option.bind_some, List.foldlM_cons, hserve]
        rfl
    · exact hR.frame (Function.update_of_ne hvw _ _) (Function.update_of_ne hvw _ _) fun _ =>
        exchanged_of_ne (.inl (Ne.symm hvw))
  | send v cfd hv =>
    by_cases hvw : w = v
    · subst hvw
      obtain ⟨cs, hcs, hl⟩ := hR
      rw [hv] at hl
      refine ⟨cs, ?_, ?_⟩
      · rw [State.record, exchanged_of_ne (.inr (by decide))]
        exact hcs
      · simp only [State.record, Function.update_self, exchanged_self]
        exact hl
    · exact hR.frame (Function.update_of_ne hvw _ _) (Function.update_of_ne hvw _ _) fun _ =>
        exchanged_of_ne (.inl (Ne.symm hvw))
  | close v cfd hv =>
    by_cases hvw : w = v
    · subst hvw
      obtain ⟨cs, hcs, hl⟩ := hR
      rw [hv] at hl
      refine ⟨cs, ?_, ?_⟩
      · rw [State.record, exchanged_of_ne (.inr (by decide))]
        exact hcs
      · simp only [State.record, Function.update_self, exchanged_of_ne (.inr (by decide : Call.close ≠ .send))]
        exact hl
    · exact hR.frame (Function.update_of_ne hvw _ _) rfl fun _ => exchanged_of_ne (.inl (Ne.symm hvw))

theorem reachable_replied {base openMax : ℕ} {buf : W → Buf UInt8 bufSize} {s : State W}
    (h : (service base openMax buf).Reachable s) (w : W) : Replied buf s w :=
  h.invariant (fun _ hs => replied_init hs w) fun _ _ _ hR _ hst => replied_step hst w hR

/-! ### The programs whose threads they are -/

/-- Where `main` is: before creating thread `i`, in `getchar`, or gone. -/
inductive Main
  | create (i : ℕ)
  | getchar
  | exited
  deriving DecidableEq, Repr

/-- The threads `main` has still to create, of `n`. -/
def Main.left (n : ℕ) : Main → ℕ
  | .create i => n - i
  | _ => 0

/-- The threads that do not exist yet are those that `main` has still to create. -/
def Created {n : ℕ} (m : Main) (absent : Fin n → Prop) : Prop := ∀ w, absent w ↔ ∃ i, m = .create i ∧ i ≤ w.val

section Created

variable {n i : ℕ} {m : Main} {absent absent' : Fin n → Prop}

theorem created_zero (h : ∀ w, absent w) : Created (.create 0) absent := by
  intro w
  simp [h w]

theorem Created.create (h : Created (.create i) absent) (hi : i < n) (hself : ¬ absent' ⟨i, hi⟩)
    (hother : ∀ w, w ≠ ⟨i, hi⟩ → (absent' w ↔ absent w)) : Created (.create (i + 1)) absent' := by
  intro w
  have hw := h w
  simp only [Main.create.injEq, exists_eq_left'] at hw ⊢
  by_cases hwi : w = ⟨i, hi⟩
  · subst hwi
    simp [hself]
  · have hne : w.val ≠ i := fun h => hwi (Fin.ext h)
    rw [hother w hwi, hw]
    omega

theorem Created.getchar (h : Created (.create i) absent) (hi : ¬ i < n) : Created .getchar absent := by
  intro w
  have hw := h w
  have := w.isLt
  simp only [Main.create.injEq, exists_eq_left', reduceCtorEq, false_and, exists_false, iff_false] at hw ⊢
  rw [hw]
  omega

theorem Created.exit (h : Created .getchar absent) : Created .exited absent := by
  intro w
  simpa using h w

theorem Created.keep (h : Created m absent) {w : Fin n} (hw : ¬ absent w) (hw' : ¬ absent' w)
    (hother : ∀ v, v ≠ w → (absent' v ↔ absent v)) : Created m absent' := by
  intro v
  rw [← h v]
  by_cases hv : v = w
  · subst hv
    exact iff_of_false hw' hw
  · exact hother v hv

end Created

/-- A quantity of the threads that this change of one leaves as it is. -/
theorem update_comp_eq {T γ : Type} (f : T → γ) (t : W → T) (w : W) {x : T} (h : f x = f (t w)) :
    Function.update (f ∘ t) w (f x) = f ∘ t := by
  rw [h]
  exact Function.update_eq_self w (f ∘ t)

end Service
end Server
end Autumn
