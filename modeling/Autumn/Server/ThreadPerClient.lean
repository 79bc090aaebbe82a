/-
# A thread per client (`server models/1`)

`main` accepts a connection, increments `client_count`, stores the descriptor
in `cfds[client_count - 1]` and starts a thread with a pointer to that slot;
the thread reads the descriptor through the pointer for each of its calls and
decrements `client_count` at its end. A step is one read or write of
`client_count` or of a slot, or one call.

`client_count` is both the number of clients and the index of the next slot,
and threads end in any order, so a new client can get the slot of a thread
that still reads it. `Safe` says when a step does no harm: `client_count` is
not above ten when tested, a store goes to a slot that no thread will read
again, and a thread starts on a slot that holds its own descriptor and that no
unfinished thread has. Runs of such steps serve every client (`reach_inv`,
`exists_run_closed`); any other step is the first of a run that does not
(`unsafe_breaks`).

The `k`-th thread created is the one for the `k`-th connection accepted.

Key definitions: `server`, `Served`, `Safe`, `Inv`.
Key theorems: `step_moves`, `inv_step`, `exists_run_closed`, `unsafe_breaks`,
`served_while_safe`.
-/
import Mathlib.Logic.Function.Basic
import Autumn.Lib.System
import Autumn.Lib.Update
import Autumn.Server.Common

namespace Autumn
namespace Server
namespace ThreadPerClient

/-- Where a thread is in `customer_service`: before reading `*cfd` for a call,
before the call on the value read, or in `client_count--`. -/
inductive Pc
  | read (c : Call)
  | call (c : Call) (fd : ℤ)
  | decRead
  | decWrite (n : ℤ)
  | done
  deriving DecidableEq, Repr

/-- A thread: the slot of `cfds` its parameter points to, and its locals. -/
structure Thread where
  pc : Pc
  slot : ℤ
  buf : Buf UInt8 bufSize
  deriving DecidableEq

/-- Where `main` is in its loop, with the value of `cfd` from `accept` on;
`args` is the evaluation of the arguments of `pthread_create`, which read
`client_count` once each in either order. After `exit` nothing runs, and after
an access outside an array nothing is known. -/
inductive Main
  | accept
  | incRead (cfd : ℤ)
  | incWrite (cfd : ℤ) (n : ℤ)
  | test (cfd : ℤ)
  | index (cfd : ℤ)
  | store (cfd : ℤ) (i : ℤ)
  | args (cfd : ℤ) (t slot : Option ℤ)
  | exited
  | undefined
  deriving DecidableEq, Repr

/-- `stack k` is what the `k`-th thread finds in its `buf`, and `log` the calls
so far. -/
structure State where
  client_count : ℤ
  cfds : ℤ → ℤ
  fds : Fds Desc
  main : Main
  threads : List Thread
  stack : ℕ → Buf UInt8 bufSize
  accepted : List ℤ
  log : List (Event ℕ)

/-- `main` takes its next step or reads one of the arguments, or the `k`-th
thread takes its next step; `data` is what arrives at its `recv`. -/
inductive Action
  | main
  | readT
  | readSlot
  | thread (k : ℕ) (data : List UInt8)
  deriving DecidableEq, Repr

/-- An index of `cfds[10]` and `t[10]`. -/
def Inside (i : ℤ) : Prop := 0 ≤ i ∧ i < 10

instance (i : ℤ) : Decidable (Inside i) := inferInstanceAs (Decidable (_ ∧ _))

/-- The next step of `main`, with room for `openMax` descriptors. -/
def main (openMax : ℕ) (s : State) : Option State :=
  match s.main with
  | .accept =>
    (s.fds.lowestFree openMax).map fun cfd =>
      { s with
        fds := s.fds.put cfd (.conn s.accepted.length)
        accepted := s.accepted ++ [(cfd : ℤ)]
        main := .incRead cfd }
  | .incRead cfd => some { s with main := .incWrite cfd s.client_count }
  | .incWrite cfd n => some { s with client_count := n + 1, main := .test cfd }
  | .test cfd => some { s with main := if s.client_count > 10 then .exited else .index cfd }
  | .index cfd => some { s with main := .store cfd (s.client_count - 1) }
  | .store cfd i =>
    some (if Inside i then
      { s with cfds := Function.update s.cfds i cfd, main := .args cfd none none }
    else { s with main := .undefined })
  | .args _ (some t) (some slot) =>
    some (if Inside t ∧ Inside slot then
      { s with threads := s.threads ++ [⟨.read .recv, slot, s.stack s.threads.length⟩], main := .accept }
    else { s with main := .undefined })
  | .args .. | .exited | .undefined => none

/-- `&t[client_count - 1]` -/
def readT (s : State) : Option State :=
  match s.main with
  | .args cfd none slot => some { s with main := .args cfd (some (s.client_count - 1)) slot }
  | _ => none

/-- `&cfds[client_count - 1]` -/
def readSlot (s : State) : Option State :=
  match s.main with
  | .args cfd t none => some { s with main := .args cfd t (some (s.client_count - 1)) }
  | _ => none

/-- Thread `k` is now as `x`. -/
def State.setThread (s : State) (k : ℕ) (x : Thread) : State :=
  { s with threads := s.threads.set k x }

/-- Thread `k` makes a call on `fd`. -/
def State.record (s : State) (k : ℕ) (c : Call) (fd : ℤ) (bytes : List UInt8) : State :=
  { s with log := s.log ++ [⟨k, c, fd, look s.fds fd, bytes⟩] }

/-- The next step of thread `k`. -/
def customer_service (s : State) (k : ℕ) (data : List UInt8) : Option State :=
  (s.threads[k]?).bind fun x =>
    match x.pc with
    | .read c => some (s.setThread k { x with pc := .call c (s.cfds x.slot) })
    | .call .recv fd =>
      (receive x.buf data).map fun buf =>
        (s.record k .recv fd data).setThread k { x with buf, pc := .read .send }
    | .call .send fd =>
      -- with the `memset` after it
      some ((s.record k .send fd x.buf.chars).setThread k
        { x with buf := Buf.zeros UInt8 bufSize, pc := .read .close })
    | .call .close fd =>
      some { (s.record k .close fd []).setThread k { x with pc := .decRead } with fds := shut s.fds fd }
    | .decRead => some (s.setThread k { x with pc := .decWrite s.client_count })
    | .decWrite n => some { s.setThread k { x with pc := .done } with client_count := n - 1 }
    | .done => none

def step (openMax : ℕ) (s : State) (a : Action) : Option State :=
  if s.main = .exited ∨ s.main = .undefined then none
  else match a with
    | .main => main openMax s
    | .readT => readT s
    | .readSlot => readSlot s
    | .thread k data => customer_service s k data

/-- The standard descriptors and the listening socket. -/
def initFds : Fds Desc := fun n => if n < 3 then some .std else if n = 3 then some .listener else none

/-- All runs of the server; `cfds` and the threads' buffers are not
initialised. -/
def server (openMax : ℕ) : System State Action where
  init s := s.client_count = 0 ∧ s.fds = initFds ∧ s.main = .accept ∧ s.threads = [] ∧
    s.accepted = [] ∧ s.log = []
  step := step openMax

/-! ### What is claimed -/

/-- The place of a call among the three. -/
def place : Call → ℕ
  | .recv => 0
  | .send => 1
  | .close => 2

/-- How many of its calls a thread has made. -/
def Pc.made : Pc → ℕ
  | .read c | .call c _ => place c
  | .decRead | .decWrite _ | .done => 3

/-- The steps a thread still has to take. -/
def Pc.left : Pc → ℕ
  | .read c => 8 - 2 * place c
  | .call c _ => 7 - 2 * place c
  | .decRead => 2
  | .decWrite _ => 1
  | .done => 0

/-- The thread will read its slot again. -/
def Pc.reads : Pc → Bool
  | .read _ | .call .recv _ | .call .send _ => true
  | .call .close _ | .decRead | .decWrite _ | .done => false

theorem place_lt (c : Call) : place c < 3 := by cases c <;> decide

theorem made_of_reads {p : Pc} (h : p.reads = true) : p.made < 3 := by
  cases p with
  | read c => exact place_lt c
  | call c fd => exact place_lt c
  | decRead => cases h
  | decWrite n => cases h
  | done => cases h

/-- The descriptor `main` has accepted and given to no thread yet. -/
def Main.held : Main → Option ℤ
  | .incRead cfd | .incWrite cfd _ | .test cfd | .index cfd | .store cfd _ | .args cfd _ _ => some cfd
  | .accept | .exited | .undefined => none

/-- Every connection is served by its one thread, through its own descriptor. -/
structure Served (s : State) : Prop where
  /-- The process has not ended and has not left its arrays. -/
  running : s.main ≠ .exited ∧ s.main ≠ .undefined
  /-- Every connection but the one `main` holds has a thread. -/
  threads : s.accepted.length = s.threads.length + if s.main.held.isSome then 1 else 0
  /-- The calls on a connection are the first ones of its script: by its
  thread, through the descriptor accepted. -/
  calls : ∀ k x fd, s.threads[k]? = some x → s.accepted[k]? = some fd →
    calls s.log k = (script k fd).take x.pc.made
  untouched : ∀ k, s.threads.length ≤ k → Server.calls s.log k = []
  /-- No thread calls on anything but a connection. -/
  conns : ∀ e ∈ s.log, ∃ k, e.on = some (.conn k)
  /-- No two unfinished threads have one slot. -/
  slots : ∀ (j k : ℕ) (x y : Thread), s.threads[j]? = some x → s.threads[k]? = some y → j ≠ k →
    x.pc ≠ .done → y.pc ≠ .done → x.slot ≠ y.slot

/-- The clients accepted whose connection is not closed yet. -/
def active (s : State) : ℕ := s.accepted.length - s.threads.countP fun x => x.pc.made == 3

/-- What the step of `main` must not do, on the state before it. -/
def Safe (s : State) : Action → Prop
  | .main =>
    match s.main with
    | .test _ => s.client_count ≤ 10
    | .store _ i => Inside i ∧ ∀ x ∈ s.threads, x.slot = i → x.pc.reads = false
    | .args cfd (some t) (some slot) =>
      Inside t ∧ Inside slot ∧ s.cfds slot = cfd ∧ ∀ x ∈ s.threads, x.slot = slot → x.pc = .done
    | _ => True
  | _ => True

instance (s : State) (a : Action) : Decidable (Safe s a) := by
  unfold Safe
  split
  · split <;> infer_instance
  · infer_instance

/-! ### What a step can do -/

/-- The step, with what it needs: `main` accepts, goes on inside its loop, exits,
leaves an array, stores or creates; a thread reads its slot, makes a call or
decrements. -/
inductive Moves (openMax : ℕ) (s : State) : Action → State → Prop
  | accept (cfd : ℕ) : s.main = .accept → s.fds.lowestFree openMax = some cfd →
      Moves openMax s .main
        { s with
          fds := s.fds.put cfd (.conn s.accepted.length)
          accepted := s.accepted ++ [(cfd : ℤ)]
          main := .incRead cfd }
  | inside (a : Action) (n : ℤ) (m : Main) (cfd : ℤ) : s.main.held = some cfd → m.held = some cfd →
      Moves openMax s a { s with client_count := n, main := m }
  | exit (cfd : ℤ) : s.main = .test cfd → 10 < s.client_count →
      Moves openMax s .main { s with main := .exited }
  | store (cfd i : ℤ) : s.main = .store cfd i → Inside i →
      Moves openMax s .main { s with cfds := Function.update s.cfds i cfd, main := .args cfd none none }
  | storeOut (cfd i : ℤ) : s.main = .store cfd i → ¬ Inside i →
      Moves openMax s .main { s with main := .undefined }
  | create (cfd t slot : ℤ) : s.main = .args cfd (some t) (some slot) → Inside t → Inside slot →
      Moves openMax s .main
        { s with threads := s.threads ++ [⟨.read .recv, slot, s.stack s.threads.length⟩], main := .accept }
  | createOut (cfd t slot : ℤ) : s.main = .args cfd (some t) (some slot) → ¬ (Inside t ∧ Inside slot) →
      Moves openMax s .main { s with main := .undefined }
  | load (k : ℕ) (data : List UInt8) (x : Thread) (c : Call) : s.threads[k]? = some x → x.pc = .read c →
      Moves openMax s (.thread k data) (s.setThread k { x with pc := .call c (s.cfds x.slot) })
  | call (k : ℕ) (data bytes : List UInt8) (x y : Thread) (c : Call) (fd : ℤ) : s.threads[k]? = some x →
      x.pc = .call c fd → y.pc.made = place c + 1 → y.slot = x.slot → y.pc ≠ .done →
      (y.pc.reads = true → x.pc.reads = true) → (∀ c' v, y.pc ≠ .call c' v) →
      y.pc.left < x.pc.left →
      Moves openMax s (.thread k data)
        { (s.record k c fd bytes).setThread k y with fds := if c = .close then shut s.fds fd else s.fds }
  | dec (k : ℕ) (data : List UInt8) (x y : Thread) (n : ℤ) : s.threads[k]? = some x → x.pc.made = 3 →
      y.pc.made = 3 → y.slot = x.slot → x.pc ≠ .done → y.pc.reads = false → y.pc.left < x.pc.left →
      Moves openMax s (.thread k data) { s.setThread k y with client_count := n }

theorem main_moves {openMax : ℕ} {s s' : State} (h : main openMax s = some s') : Moves openMax s .main s' := by
  unfold main at h
  split at h
  · rename_i hm
    obtain ⟨cfd, hcfd, rfl⟩ := Option.map_eq_some_iff.mp h
    exact .accept cfd hm hcfd
  · rename_i cfd hm
    cases h
    exact .inside _ s.client_count _ cfd (by rw [hm]; rfl) rfl
  · rename_i cfd n hm
    cases h
    exact .inside _ (n + 1) _ cfd (by rw [hm]; rfl) rfl
  · rename_i cfd hm
    cases h
    split
    · rename_i hgt
      exact .exit cfd hm hgt
    · exact .inside _ s.client_count _ cfd (by rw [hm]; rfl) rfl
  · rename_i cfd hm
    cases h
    exact .inside _ s.client_count _ cfd (by rw [hm]; rfl) rfl
  · rename_i cfd i hm
    cases h
    split
    · rename_i hi
      exact .store cfd i hm hi
    · rename_i hi
      exact .storeOut cfd i hm hi
  · rename_i cfd t slot hm
    cases h
    split
    · rename_i hi
      exact .create cfd t slot hm hi.1 hi.2
    · rename_i hi
      exact .createOut cfd t slot hm hi
  · cases h
  · cases h
  · cases h

/-- The arguments of `pthread_create` are read inside the loop. -/
theorem readT_moves {openMax : ℕ} {s s' : State} (h : readT s = some s') : Moves openMax s .readT s' := by
  unfold readT at h
  split at h
  · rename_i cfd slot hm
    cases h
    exact .inside _ s.client_count _ cfd (by rw [hm]; rfl) rfl
  · cases h

theorem readSlot_moves {openMax : ℕ} {s s' : State} (h : readSlot s = some s') : Moves openMax s .readSlot s' := by
  unfold readSlot at h
  split at h
  · rename_i cfd t hm
    cases h
    exact .inside _ s.client_count _ cfd (by rw [hm]; rfl) rfl
  · cases h

theorem customer_service_moves {openMax : ℕ} {s s' : State} {k : ℕ} {data : List UInt8}
    (h : customer_service s k data = some s') : Moves openMax s (.thread k data) s' := by
  obtain ⟨x, hx, h⟩ := Option.bind_eq_some_iff.mp h
  split at h
  · rename_i c hp
    cases h
    exact .load k data x c hx hp
  · rename_i fd hp
    obtain ⟨buf, -, rfl⟩ := Option.map_eq_some_iff.mp h
    exact .call k data data x _ .recv fd hx hp rfl rfl (by simp) (fun _ => by rw [hp]; rfl) (by simp)
      (by simp [hp, Pc.left, place])
  · rename_i fd hp
    cases h
    exact .call k data _ x _ .send fd hx hp rfl rfl (by simp) (fun _ => by rw [hp]; rfl) (by simp)
      (by simp [hp, Pc.left, place])
  · rename_i fd hp
    cases h
    exact .call k data [] x { x with pc := .decRead } .close fd hx hp rfl rfl (by simp)
      (by simp [Pc.reads]) (by simp) (by simp [hp, Pc.left, place])
  · rename_i hp
    cases h
    exact .dec k data x _ s.client_count hx (by rw [hp]; rfl) rfl rfl (by simp [hp]) rfl
      (by rw [hp]; exact Nat.lt_succ_self 1)
  · rename_i n hp
    cases h
    exact .dec k data x _ (n - 1) hx (by rw [hp]; rfl) rfl rfl (by simp [hp]) rfl
      (by rw [hp]; exact Nat.lt_succ_self 0)
  · cases h

/-- **A step of a running server** is one of the moves. -/
theorem step_moves {openMax : ℕ} {s s' : State} {a : Action} (h : step openMax s a = some s') :
    (s.main ≠ .exited ∧ s.main ≠ .undefined) ∧ Moves openMax s a s' := by
  unfold step at h
  split at h
  · cases h
  rename_i hrun
  refine ⟨not_or.mp hrun, ?_⟩
  cases a with
  | main => exact main_moves h
  | readT => exact readT_moves h
  | readSlot => exact readSlot_moves h
  | thread k data => exact customer_service_moves h

/-! ### The invariant -/

/-- How thread `k` with connection descriptor `fd` stands: the descriptor is
open for its connection until it closes it, its slot holds `fd` while it reads
it, and what it has read is `fd`. -/
structure Tended (s : State) (k : ℕ) (x : Thread) (fd : ℤ) : Prop where
  open_ : x.pc.made < 3 → look s.fds fd = some (.conn k)
  slot : x.pc.reads = true → s.cfds x.slot = fd
  loaded : ∀ c v, x.pc = .call c v → v = fd

structure Inv (s : State) : Prop where
  served : Served s
  held : ∀ cfd, s.main.held = some cfd →
    s.accepted[s.threads.length]? = some cfd ∧ look s.fds cfd = some (.conn s.threads.length)
  tended : ∀ k x fd, s.threads[k]? = some x → s.accepted[k]? = some fd → Tended s k x fd

theorem inv_init {openMax : ℕ} {s : State} (h : (server openMax).init s) : Inv s := by
  obtain ⟨-, -, hm, ht, ha, hl⟩ := h
  refine ⟨⟨by simp [hm], by simp [ha, ht, hm, Main.held], fun k x fd hk => by simp [ht] at hk,
    fun k _ => by rw [hl]; rfl, fun e he => by simp [hl] at he, fun j k x y hj => by simp [ht] at hj⟩,
    fun cfd hc => by simp [hm, Main.held] at hc, fun k x fd hk => by simp [ht] at hk⟩

theorem Served.exists_accepted {s : State} (h : Served s) {k : ℕ} {x : Thread} (hk : s.threads[k]? = some x) :
    ∃ fd, s.accepted[k]? = some fd := by
  have hlt := (List.getElem?_eq_some_iff.mp hk).1
  have := h.threads
  exact ⟨_, List.getElem?_eq_getElem (by omega)⟩

theorem inv_accept {openMax : ℕ} {s : State} (hI : Inv s) {cfd : ℕ} (hm : s.main = .accept)
    (h : s.fds.lowestFree openMax = some cfd) :
    Inv { s with
      fds := s.fds.put cfd (.conn s.accepted.length)
      accepted := s.accepted ++ [(cfd : ℤ)]
      main := .incRead cfd } := by
  have hfree : s.fds cfd = none := (Fds.lowestFree_spec.mp h).2.1
  have hlen : s.accepted.length = s.threads.length := by simpa [hm, Main.held] using hI.served.threads
  have hback : ∀ {k : ℕ} {x : Thread} {fd : ℤ}, s.threads[k]? = some x →
      (s.accepted ++ [(cfd : ℤ)])[k]? = some fd → s.accepted[k]? = some fd := by
    intro k x fd hk hfd
    have := (List.getElem?_eq_some_iff.mp hk).1
    rwa [List.getElem?_append_left (by omega)] at hfd
  refine ⟨⟨by simp, by simp [hlen, Main.held], fun k x fd hk hfd => hI.served.calls k x fd hk (hback hk hfd),
    hI.served.untouched, hI.served.conns, hI.served.slots⟩, fun c hc => ?_, fun k x fd hk hfd => ?_⟩
  · cases hc
    refine ⟨by rw [← hlen]; exact List.getElem?_concat_length, ?_⟩
    rw [look_put, if_pos rfl, hlen]
  · have ht := hI.tended k x fd hk (hback hk hfd)
    exact ⟨fun h3 => look_put_of_look hfree _ (ht.open_ h3), ht.slot, ht.loaded⟩

theorem inv_inside {s : State} (hI : Inv s) (n : ℤ) {m : Main} {cfd : ℤ} (hs : s.main.held = some cfd)
    (hm : m.held = some cfd) : Inv { s with client_count := n, main := m } := by
  refine ⟨⟨⟨?_, ?_⟩, ?_, hI.served.calls, hI.served.untouched, hI.served.conns, hI.served.slots⟩,
    fun c hc => hI.held c (hs.trans (hm.symm.trans hc)), fun k x fd hk hfd => ?_⟩
  · rintro rfl
    cases hm
  · rintro rfl
    cases hm
  · have := hI.served.threads
    rw [hs] at this
    rw [hm]
    exact this
  · obtain ⟨h1, h2, h3⟩ := hI.tended k x fd hk hfd
    exact ⟨h1, h2, h3⟩

theorem inv_store {s : State} (hI : Inv s) {cfd i : ℤ} (hm : s.main = .store cfd i)
    (hfree : ∀ x ∈ s.threads, x.slot = i → x.pc.reads = false) :
    Inv { s with cfds := Function.update s.cfds i cfd, main := .args cfd none none } := by
  refine ⟨⟨by simp, ?_, hI.served.calls, hI.served.untouched, hI.served.conns, hI.served.slots⟩,
    fun c hc => hI.held c (by rw [hm]; exact hc), fun k x fd hk hfd => ?_⟩
  · simpa [hm, Main.held] using hI.served.threads
  · obtain ⟨h1, h2, h3⟩ := hI.tended k x fd hk hfd
    refine ⟨h1, fun hr => ?_, h3⟩
    have hne : x.slot ≠ i := fun hi => by
      have := hfree x (List.mem_of_getElem? hk) hi
      rw [hr] at this
      cases this
    exact (Function.update_of_ne hne ..).trans (h2 hr)

theorem inv_create {s : State} (hI : Inv s) {cfd t slot : ℤ} (hm : s.main = .args cfd (some t) (some slot))
    (hcfd : s.cfds slot = cfd) (hfree : ∀ x ∈ s.threads, x.slot = slot → x.pc = .done) :
    Inv { s with threads := s.threads ++ [⟨.read .recv, slot, s.stack s.threads.length⟩], main := .accept } := by
  obtain ⟨hacc, hopen⟩ := hI.held cfd (by rw [hm]; rfl)
  set y : Thread := ⟨.read .recv, slot, s.stack s.threads.length⟩ with hy
  have hcases : ∀ {k : ℕ} {x : Thread}, (s.threads ++ [y])[k]? = some x →
      s.threads[k]? = some x ∨ k = s.threads.length ∧ x = y := by
    intro k x hk
    rcases lt_trichotomy k s.threads.length with hlt | rfl | hgt
    · exact .inl (by rwa [List.getElem?_append_left hlt] at hk)
    · rw [List.getElem?_concat_length] at hk
      exact .inr ⟨rfl, (Option.some.inj hk).symm⟩
    · have := (List.getElem?_eq_some_iff.mp hk).1
      simp only [List.length_append, List.length_singleton] at this
      omega
  refine ⟨⟨by simp, ?_, fun k x fd hk hfd => ?_, fun k hk => ?_, hI.served.conns,
      fun j k x z hj hk hne hx hz => ?_⟩,
    fun c hc => (by cases hc), fun k x fd hk hfd => ?_⟩
  · simpa [hm, Main.held] using hI.served.threads
  · rcases hcases hk with hk | ⟨rfl, rfl⟩
    · exact hI.served.calls k x fd hk hfd
    · exact hI.served.untouched _ le_rfl
  · simp only [List.length_append, List.length_singleton] at hk
    exact hI.served.untouched k (by omega)
  · rcases hcases hj with hj | ⟨rfl, rfl⟩ <;> rcases hcases hk with hk | ⟨rfl, rfl⟩
    · exact hI.served.slots j k x z hj hk hne hx hz
    · exact fun he => hx (hfree x (List.mem_of_getElem? hj) he)
    · exact fun he => hz (hfree z (List.mem_of_getElem? hk) he.symm)
    · exact absurd rfl hne
  · rcases hcases hk with hk | ⟨rfl, rfl⟩
    · obtain ⟨h1, h2, h3⟩ := hI.tended k x fd hk hfd
      exact ⟨h1, h2, h3⟩
    · have hfd : cfd = fd := Option.some.inj (hacc.symm.trans hfd)
      subst hfd
      exact ⟨fun _ => hopen, fun _ => hcfd, fun c v hc => by cases hc⟩

theorem inv_thread {s s' : State} (hI : Inv s) {k : ℕ} {x y : Thread} (hx : s.threads[k]? = some x)
    (ht : s'.threads = s.threads.set k y) (hm : s'.main = s.main) (ha : s'.accepted = s.accepted)
    (hc : s'.cfds = s.cfds) (hslot : y.slot = x.slot) (hreads : y.pc.reads = true → x.pc.reads = true)
    (hnd : x.pc ≠ .done) (hconns : ∀ e ∈ s'.log, ∃ k, e.on = some (.conn k))
    (hother : ∀ j, j ≠ k → calls s'.log j = calls s.log j ∧
      ∀ fd, look s.fds fd = some (.conn j) → look s'.fds fd = some (.conn j))
    (hown : ∀ fd, s.accepted[k]? = some fd → Tended s k x fd →
      calls s'.log k = (script k fd).take y.pc.made ∧
      (y.pc.made < 3 → look s'.fds fd = some (.conn k)) ∧ ∀ c v, y.pc = .call c v → v = fd) : Inv s' := by
  have hlt := (List.getElem?_eq_some_iff.mp hx).1
  have hlen : s'.threads.length = s.threads.length := by rw [ht, List.length_set]
  have hcases : ∀ {j : ℕ} {z : Thread}, s'.threads[j]? = some z →
      j ≠ k ∧ s.threads[j]? = some z ∨ j = k ∧ z = y := by
    intro j z hj
    rw [ht, List.getElem?_set] at hj
    split at hj
    · rename_i hkj
      exact .inr ⟨hkj.symm, (Option.some.inj hj).symm⟩
    · rename_i hkj
      exact .inl ⟨fun h => hkj h.symm, hj⟩
  refine ⟨⟨by rw [hm]; exact hI.served.running, by rw [hm, ha, hlen]; exact hI.served.threads,
    fun j z fd hj hfd => ?_, fun j hj => ?_, hconns, fun i j z w hi hj hne hz hw => ?_⟩, fun cfd hcfd => ?_,
    fun j z fd hj hfd => ?_⟩
  · rw [ha] at hfd
    rcases hcases hj with ⟨hjk, hj⟩ | ⟨rfl, rfl⟩
    · rw [(hother j hjk).1]
      exact hI.served.calls j z fd hj hfd
    · exact (hown fd hfd (hI.tended _ x fd hx hfd)).1
  · rw [hlen] at hj
    rw [(hother j (by omega)).1]
    exact hI.served.untouched j hj
  · rcases hcases hi with ⟨hik, hi⟩ | ⟨rfl, rfl⟩ <;> rcases hcases hj with ⟨hjk, hj⟩ | ⟨rfl, rfl⟩
    · exact hI.served.slots i j z w hi hj hne hz hw
    · rw [hslot]
      exact hI.served.slots i _ z x hi hx hne hz hnd
    · rw [hslot]
      exact hI.served.slots _ j x w hx hj hne hnd hw
    · exact absurd rfl hne
  · rw [hm] at hcfd
    obtain ⟨h1, h2⟩ := hI.held cfd hcfd
    rw [ha, hlen]
    exact ⟨h1, (hother _ (by omega)).2 cfd h2⟩
  · rw [ha] at hfd
    rcases hcases hj with ⟨hjk, hj⟩ | ⟨rfl, rfl⟩
    · obtain ⟨h1, h2, h3⟩ := hI.tended j z fd hj hfd
      exact ⟨fun h => (hother j hjk).2 fd (h1 h), by rw [hc]; exact h2, h3⟩
    · have htend := hI.tended _ x fd hx hfd
      obtain ⟨-, h2, h3⟩ := hown fd hfd htend
      exact ⟨h2, fun h => by rw [hc, hslot]; exact htend.slot (hreads h), h3⟩

theorem inv_load {s : State} (hI : Inv s) {k : ℕ} {x : Thread} {c : Call} (hx : s.threads[k]? = some x)
    (hp : x.pc = .read c) : Inv (s.setThread k { x with pc := .call c (s.cfds x.slot) }) := by
  refine inv_thread hI hx rfl rfl rfl rfl rfl (fun _ => by rw [hp]; rfl) (by rw [hp]; simp) hI.served.conns
    (fun j _ => ⟨rfl, fun _ => id⟩) fun fd hfd htend => ?_
  have hmade : x.pc.made = place c := by rw [hp]; rfl
  have hcalls := hI.served.calls k x fd hx hfd
  rw [hmade] at hcalls
  refine ⟨hcalls, fun h3 => htend.open_ (hmade ▸ h3), fun c' v hv => ?_⟩
  cases hv
  exact htend.slot (by rw [hp]; rfl)

theorem inv_call {s : State} (hI : Inv s) {k : ℕ} (bytes : List UInt8) {x y : Thread} {c : Call} {v : ℤ}
    (hx : s.threads[k]? = some x) (hp : x.pc = .call c v) (hmade : y.pc.made = place c + 1)
    (hslot : y.slot = x.slot) (hreads : y.pc.reads = true → x.pc.reads = true)
    (hno : ∀ c' v, y.pc ≠ .call c' v) :
    Inv { (s.record k c v bytes).setThread k y with fds := if c = .close then shut s.fds v else s.fds } := by
  obtain ⟨fd, hfd⟩ := hI.served.exists_accepted hx
  have htend := hI.tended k x fd hx hfd
  obtain rfl : v = fd := htend.loaded c v hp
  have hxmade : x.pc.made = place c := by rw [hp]; rfl
  have hopen := htend.open_ (hxmade ▸ place_lt c)
  have hcalls := hI.served.calls k x v hx hfd
  rw [hxmade] at hcalls
  refine inv_thread hI hx rfl rfl rfl rfl hslot hreads (by rw [hp]; simp) (fun e he => ?_)
    (fun j hj => ⟨calls_concat_of_ne hopen (Ne.symm hj), fun fd hd => ?_⟩)
    fun fd hfd' _ => ?_
  · rcases List.mem_append.mp he with he | he
    · exact hI.served.conns e he
    · rw [List.mem_singleton.mp he]
      exact ⟨k, hopen⟩
  · -- the descriptors of the other connections are other ones
    have hne : fd ≠ v := by
      rintro rfl
      exact hj (by simpa using hd.symm.trans hopen)
    dsimp only
    split
    · rw [look_shut, if_neg hne, hd]
    · exact hd
  · obtain rfl : v = fd := Option.some.inj (hfd.symm.trans hfd')
    refine ⟨?_, fun h3 => ?_, fun c' v' hc' => absurd hc' (hno c' v')⟩
    · rw [hmade]
      have := calls_concat_script bytes hcalls
        (show (script k v)[place c]? = some (k, c, v) by cases c <;> rfl)
      rw [← hopen] at this
      exact this
    · have hcl : c ≠ .close := by
        rintro rfl
        rw [hmade] at h3
        exact absurd h3 (by decide)
      exact (congrArg (look · v) (if_neg hcl)).trans hopen

theorem inv_dec {s : State} (hI : Inv s) {k : ℕ} {x y : Thread} (n : ℤ) (hx : s.threads[k]? = some x)
    (hp : x.pc.made = 3) (hmade : y.pc.made = 3) (hslot : y.slot = x.slot) (hnd : x.pc ≠ .done)
    (hreads : y.pc.reads = false) : Inv { s.setThread k y with client_count := n } := by
  refine inv_thread hI hx rfl rfl rfl rfl hslot (fun h => ?_) hnd hI.served.conns
    (fun j _ => ⟨rfl, fun _ => id⟩) fun fd hfd htend => ⟨?_, fun h3 => ?_, fun c v hc => ?_⟩
  · rw [hreads] at h
    cases h
  · rw [hmade, ← hp]
    exact hI.served.calls k x fd hx hfd
  · omega
  · rw [hc] at hmade
    cases c <;> cases hmade

/-- **The step lemma.** -/
theorem inv_step {openMax : ℕ} {s s' : State} {a : Action} (hI : Inv s) (hsafe : Safe s a)
    (h : (server openMax).step s a = some s') : Inv s' := by
  cases (step_moves h).2 with
  | accept cfd hm hcfd => exact inv_accept hI hm hcfd
  | inside a n m cfd hs hm => exact inv_inside hI n hs hm
  | exit cfd hm hgt =>
    simp only [Safe, hm] at hsafe
    omega
  | store cfd i hm hi =>
    simp only [Safe, hm] at hsafe
    exact inv_store hI hm hsafe.2
  | storeOut cfd i hm hi =>
    simp only [Safe, hm] at hsafe
    exact absurd hsafe.1 hi
  | create cfd t slot hm ht hslot =>
    simp only [Safe, hm] at hsafe
    exact inv_create hI hm hsafe.2.2.1 hsafe.2.2.2
  | createOut cfd t slot hm hout =>
    simp only [Safe, hm] at hsafe
    exact absurd ⟨hsafe.1, hsafe.2.1⟩ hout
  | load k data x c hx hp => exact inv_load hI hx hp
  | call k data bytes x y c v hx hp hmade hslot hnd hreads hno _ =>
    exact inv_call hI bytes hx hp hmade hslot hreads hno
  | dec k data x y n hx hp hmade hslot hnd hreads _ => exact inv_dec hI n hx hp hmade hslot hnd hreads

theorem step_thread {openMax : ℕ} {s : State} (h : s.main ≠ .exited ∧ s.main ≠ .undefined) (k : ℕ)
    (data : List UInt8) : (server openMax).step s (.thread k data) = customer_service s k data :=
  if_neg (not_or.mpr h)

theorem reach_inv {openMax : ℕ} {s : State} (h : (server openMax).Reach Safe s) : Inv s :=
  h.invariant (I := Inv) (fun _ => inv_init) fun _ _ _ hI hok => inv_step hI hok

/-! ### Safe runs finish -/

/-- The steps the threads still have to take. -/
def work (s : State) : ℕ := (s.threads.map (·.pc.left)).sum

theorem Moves.work_lt {openMax : ℕ} {s s' : State} {k : ℕ} {data : List UInt8}
    (h : Moves openMax s (.thread k data) s') (hm : s.main = .accept) :
    s'.main = .accept ∧ s'.accepted = s.accepted ∧ work s' < work s := by
  cases h with
  | inside a n m cfd hs _ => rw [hm] at hs; cases hs
  | load k data x c hx hp =>
    have := sum_map_set (·.pc.left) (y := { x with pc := .call c (s.cfds x.slot) }) hx
    have h1 : x.pc.left = 8 - 2 * place c := by rw [hp]; rfl
    have h2 : (Pc.call c (s.cfds x.slot)).left = 7 - 2 * place c := rfl
    have h3 := place_lt c
    rw [h1, h2] at this
    refine ⟨hm, rfl, ?_⟩
    simp only [work, State.setThread]
    omega
  | call k data bytes x y c fd hx hp hmade hslot hnd hreads hno hlt =>
    have := sum_map_set (·.pc.left) (y := y) hx
    refine ⟨hm, rfl, ?_⟩
    simp only [work, State.setThread, State.record]
    omega
  | dec k data x y n hx hp hmade hslot hnd hreads hlt =>
    have := sum_map_set (·.pc.left) (y := y) hx
    refine ⟨hm, rfl, ?_⟩
    simp only [work, State.setThread]
    omega

theorem exists_thread_step {s : State} {k : ℕ} {x : Thread} (hx : s.threads[k]? = some x)
    (h : x.pc ≠ .done) : ∃ t, customer_service s k [] = some t := by
  rw [customer_service, hx, Option.bind_some]
  cases hp : x.pc with
  | read c => exact ⟨_, rfl⟩
  | call c fd =>
    cases c with
    | recv => exact ⟨_, by rw [receive_nil]; rfl⟩
    | send => exact ⟨_, rfl⟩
    | close => exact ⟨_, rfl⟩
  | decRead => exact ⟨_, rfl⟩
  | decWrite n => exact ⟨_, rfl⟩
  | done => exact absurd hp h

/-- With `main` back at `accept`, the threads alone get every connection closed. -/
theorem exists_run_closed {openMax : ℕ} {s : State} (hI : Inv s) (hm : s.main = .accept) :
    ∃ as t, (server openMax).run s as = some t ∧ t.accepted = s.accepted ∧
      ∀ k fd, t.accepted[k]? = some fd → calls t.log k = script k fd := by
  obtain ⟨as, t, hr, ⟨hIt, ha, hmt⟩, hdone⟩ := System.exists_run_done (M := server openMax)
    (I := fun t => Inv t ∧ t.accepted = s.accepted ∧ t.main = .accept)
    (D := fun t => ∀ x ∈ t.threads, x.pc = .done) work
    (fun u ⟨hIu, hau, hmu⟩ hnd => by
      obtain ⟨x, hx⟩ := not_forall.mp hnd
      obtain ⟨hx, hxd⟩ := Classical.not_imp.mp hx
      obtain ⟨k, hk⟩ := List.mem_iff_getElem?.mp hx
      obtain ⟨v, hv⟩ := exists_thread_step hk hxd
      have hstep : (server openMax).step u (.thread k []) = some v :=
        (step_thread (by rw [hmu]; simp) k []).trans hv
      have hsafe : Safe u (.thread k []) := trivial
      obtain ⟨h1, h2, h3⟩ := (step_moves (show step openMax u (.thread k []) = some v from hstep)).2.work_lt hmu
      exact ⟨_, v, hstep, ⟨inv_step hIu hsafe hstep, h2.trans hau, h1⟩, h3⟩) s ⟨hI, rfl, hm⟩
  refine ⟨as, t, hr, ha, fun k fd hfd => ?_⟩
  have hlen := hIt.served.threads
  rw [hmt] at hlen
  have hlt : k < t.threads.length := by
    have := (List.getElem?_eq_some_iff.mp hfd).1
    simp only [Main.held, Option.isSome_none, Bool.false_eq_true, if_false] at hlen
    omega
  have := hIt.served.calls k _ fd (List.getElem?_eq_getElem hlt) hfd
  rw [hdone _ (List.getElem_mem hlt)] at this
  exact this

/-! ### Other steps do harm -/

theorem mem_calls {log : List (Event ℕ)} {e : Event ℕ} (he : e ∈ log) {k : ℕ} (hk : e.on = some (.conn k)) :
    (e.worker, e.call, e.fd) ∈ calls log k :=
  List.mem_map.mpr ⟨e, List.mem_filter.mpr ⟨he, by simpa using hk⟩, rfl⟩

/-- A call in a served state is a thread's own, on its own descriptor. -/
theorem Served.event {s : State} (h : Served s) {e : Event ℕ} (he : e ∈ s.log) :
    e.worker < s.threads.length ∧ s.accepted[e.worker]? = some e.fd ∧ e.on = some (.conn e.worker) := by
  obtain ⟨k, hk⟩ := h.conns e he
  have hmem := mem_calls he hk
  rcases lt_or_ge k s.threads.length with hlt | hge
  · obtain ⟨fd, hfd⟩ := h.exists_accepted (List.getElem?_eq_getElem hlt)
    rw [h.calls k _ fd (List.getElem?_eq_getElem hlt) hfd] at hmem
    have hscript := List.mem_of_mem_take hmem
    have hwk : e.worker = k ∧ e.fd = fd := by
      simp only [script, List.mem_cons, Prod.mk.injEq, List.not_mem_nil, or_false] at hscript
      tauto
    rw [hwk.1, hwk.2]
    exact ⟨hlt, hfd, hk⟩
  · rw [h.untouched k hge] at hmem
    cases hmem

theorem exists_call_step {s : State} {k : ℕ} {x : Thread} {c : Call} {fd : ℤ} (hx : s.threads[k]? = some x)
    (hp : x.pc = .call c fd) : ∃ t y bytes, customer_service s k [] = some t ∧
      t.log = s.log ++ [⟨k, c, fd, look s.fds fd, bytes⟩] ∧ t.accepted = s.accepted ∧ t.main = s.main ∧
      t.cfds = s.cfds ∧ t.threads = s.threads.set k y ∧ y.slot = x.slot ∧
      (c ≠ .close → t.fds = s.fds ∧ ∃ c', y.pc = .read c') := by
  unfold customer_service
  simp only [hx, Option.bind_some, hp]
  cases c with
  | recv =>
    exact ⟨(s.record k .recv fd []).setThread k { x with pc := .read .send }, { x with pc := .read .send }, [],
      by simp [receive_nil], rfl, rfl, rfl, rfl, rfl, rfl, fun _ => ⟨rfl, _, rfl⟩⟩
  | send =>
    exact ⟨_, { x with buf := Buf.zeros UInt8 bufSize, pc := .read .close }, _, rfl, rfl, rfl, rfl, rfl, rfl, rfl,
      fun _ => ⟨rfl, _, rfl⟩⟩
  | close => exact ⟨_, { x with pc := .decRead }, _, rfl, rfl, rfl, rfl, rfl, rfl, rfl, fun h => absurd rfl h⟩

/-- A thread that finds another value than its descriptor in its slot calls on
that. -/
theorem read_breaks (openMax : ℕ) {s : State} (hrun : s.main ≠ .exited ∧ s.main ≠ .undefined) {k : ℕ}
    {x : Thread} {c : Call} (hx : s.threads[k]? = some x) (hp : x.pc = .read c)
    (hbad : s.accepted[k]? ≠ some (s.cfds x.slot)) :
    ∃ as t, (server openMax).run s as = some t ∧ ¬ Served t := by
  set y : Thread := { x with pc := .call c (s.cfds x.slot) } with hy
  have h1 : customer_service s k [] = some (s.setThread k y) := by
    unfold customer_service
    simp only [hx, Option.bind_some, hp]
    rfl
  have hky : (s.setThread k y).threads[k]? = some y :=
    List.getElem?_set_self (List.getElem?_eq_some_iff.mp hx).1
  obtain ⟨t, -, bytes, h2, hl, ha, -⟩ := exists_call_step hky rfl
  refine ⟨[.thread k [], .thread k []], t, ?_, fun hS => hbad ?_⟩
  · rw [System.run_cons, step_thread hrun, h1, Option.bind_some, System.run_single]
    exact (step_thread (s := s.setThread k y) hrun k []).trans h2
  · have := (hS.event (e := ⟨k, c, s.cfds x.slot, _, bytes⟩) (by rw [hl]; exact List.mem_concat_self)).2.1
    rwa [ha] at this

/-- A store to a slot that a thread will read again. -/
theorem store_breaks {openMax : ℕ} {s : State} (hI : Inv s) {cfd i : ℤ} (hm : s.main = .store cfd i)
    {k : ℕ} {x : Thread} (hx : s.threads[k]? = some x) (hslot : x.slot = i) (hr : x.pc.reads = true) :
    ∃ as t, (server openMax).run { s with cfds := Function.update s.cfds i cfd, main := .args cfd none none } as =
      some t ∧ ¬ Served t := by
  set u : State := { s with cfds := Function.update s.cfds i cfd, main := .args cfd none none } with hu
  have hrun : u.main ≠ .exited ∧ u.main ≠ .undefined := by simp [hu]
  obtain ⟨fd, hfd⟩ := hI.served.exists_accepted hx
  -- the connection `main` holds is open, so its descriptor is not the thread's
  have hne : fd ≠ cfd := by
    rintro rfl
    obtain ⟨-, hopen⟩ := hI.held fd (by rw [hm]; rfl)
    have := (hI.tended k x fd hx hfd).open_ (made_of_reads hr)
    rw [hopen] at this
    have hlt := (List.getElem?_eq_some_iff.mp hx).1
    simp only [Option.some.injEq, Desc.conn.injEq] at this
    omega
  have hcfds : u.cfds x.slot = cfd := by rw [hslot]; exact Function.update_self ..
  cases hp : x.pc with
  | read c =>
    refine read_breaks openMax hrun (show u.threads[k]? = some x from hx) hp ?_
    rw [hcfds]
    exact fun h => hne (Option.some.inj (hfd.symm.trans h))
  | call c v =>
    have hc : c ≠ .close := by
      rintro rfl
      rw [hp] at hr
      cases hr
    obtain ⟨t, y, bytes, h1, -, ha, hmt, hct, htt, hys, hread⟩ :=
      exists_call_step (show u.threads[k]? = some x from hx) hp
    obtain ⟨-, c', hc'⟩ := hread hc
    have hky : t.threads[k]? = some y := by
      rw [htt]
      exact List.getElem?_set_self (List.getElem?_eq_some_iff.mp hx).1
    obtain ⟨as, t', hr', hS⟩ := read_breaks openMax (by rw [hmt]; exact hrun) hky hc' (by
      rw [ha, hct, hys, hcfds]
      exact fun h => hne (Option.some.inj (hfd.symm.trans h)))
    refine ⟨.thread k [] :: as, t', ?_, hS⟩
    rw [System.run_cons, step_thread hrun, h1]
    exact hr'
  | decRead => rw [hp] at hr; cases hr
  | decWrite n => rw [hp] at hr; cases hr
  | done => rw [hp] at hr; cases hr

/-- A thread created over a wrong slot: it reads another client's descriptor,
or shares the slot of an unfinished thread. -/
theorem create_breaks (openMax : ℕ) {s : State} (hI : Inv s) {cfd t slot : ℤ}
    (hm : s.main = .args cfd (some t) (some slot))
    (hbad : ¬ (s.cfds slot = cfd ∧ ∀ x ∈ s.threads, x.slot = slot → x.pc = .done)) :
    ∃ as t, (server openMax).run
      { s with threads := s.threads ++ [⟨.read .recv, slot, s.stack s.threads.length⟩], main := .accept } as =
        some t ∧ ¬ Served t := by
  set s' : State :=
    { s with threads := s.threads ++ [⟨.read .recv, slot, s.stack s.threads.length⟩], main := .accept } with hs'
  have hnew : s'.threads[s.threads.length]? = some ⟨.read .recv, slot, s.stack s.threads.length⟩ :=
    List.getElem?_concat_length
  by_cases hcfd : s.cfds slot = cfd
  · -- an unfinished thread has the slot
    obtain ⟨x, hx⟩ := not_forall.mp fun hall => hbad ⟨hcfd, hall⟩
    obtain ⟨hx, hxs⟩ := Classical.not_imp.mp hx
    obtain ⟨hslot, hnd⟩ := Classical.not_imp.mp hxs
    obtain ⟨k, hk⟩ := List.mem_iff_getElem?.mp hx
    have hlt := (List.getElem?_eq_some_iff.mp hk).1
    have hk' : s'.threads[k]? = some x := (List.getElem?_append_left hlt).trans hk
    exact ⟨[], s', rfl, fun hS => hS.slots k _ x _ hk' hnew (by omega) hnd (by simp) hslot⟩
  · -- the new thread's slot holds another value
    obtain ⟨hacc, -⟩ := hI.held cfd (by rw [hm]; rfl)
    exact read_breaks openMax (by simp [hs']) hnew rfl
      fun h => hcfd (Option.some.inj (h.symm.trans hacc))

/-- **Any step that is not safe** leads to a state in which a client is not
served as it should be. -/
theorem unsafe_breaks {openMax : ℕ} {s s' : State} {a : Action} (hI : Inv s) (hsafe : ¬ Safe s a)
    (h : (server openMax).step s a = some s') :
    ∃ as t, (server openMax).run s' as = some t ∧ ¬ Served t := by
  cases a with
  | readT => exact absurd trivial hsafe
  | readSlot => exact absurd trivial hsafe
  | thread k data => exact absurd trivial hsafe
  | main =>
    cases hm : s.main with
    | test cfd =>
      simp only [Safe, hm, not_le] at hsafe
      simp only [server, step, main, hm, reduceCtorEq, or_self, if_false, Option.some.injEq] at h
      exact ⟨[], s', rfl, fun hS => hS.running.1 (by rw [← h]; exact if_pos hsafe)⟩
    | store cfd i =>
      simp only [Safe, hm] at hsafe
      simp only [server, step, main, hm, reduceCtorEq, or_self, if_false, Option.some.injEq] at h
      by_cases hi : Inside i
      · rw [if_pos hi] at h
        obtain ⟨x, hx⟩ := not_forall.mp fun hall => hsafe ⟨hi, hall⟩
        obtain ⟨hx, hxs⟩ := Classical.not_imp.mp hx
        obtain ⟨hslot, hr⟩ := Classical.not_imp.mp hxs
        obtain ⟨k, hk⟩ := List.mem_iff_getElem?.mp hx
        rw [← h]
        exact store_breaks hI hm hk hslot (by simpa using hr)
      · rw [if_neg hi] at h
        exact ⟨[], s', rfl, fun hS => hS.running.2 (by rw [← h])⟩
    | args cfd t slot =>
      rcases t with _ | t
      · exact absurd (by simp [Safe, hm]) hsafe
      rcases slot with _ | slot
      · exact absurd (by simp [Safe, hm]) hsafe
      simp only [Safe, hm] at hsafe
      simp only [server, step, main, hm, reduceCtorEq, or_self, if_false, Option.some.injEq] at h
      by_cases hi : Inside t ∧ Inside slot
      · rw [if_pos hi] at h
        rw [← h]
        exact create_breaks openMax hI hm fun hall => hsafe ⟨hi.1, hi.2, hall⟩
      · rw [if_neg hi] at h
        exact ⟨[], s', rfl, fun hS => hS.running.2 (by rw [← h])⟩
    | accept => exact absurd (by simp [Safe, hm]) hsafe
    | incRead cfd => exact absurd (by simp [Safe, hm]) hsafe
    | incWrite cfd n => exact absurd (by simp [Safe, hm]) hsafe
    | index cfd => exact absurd (by simp [Safe, hm]) hsafe
    | exited => exact absurd (by simp [Safe, hm]) hsafe
    | undefined => exact absurd (by simp [Safe, hm]) hsafe

/-- **Every client is served while the steps are safe.** In the states reached
by safe steps every connection has had the first of its calls, from its own
thread through its own descriptor; the threads can always finish; and a step
that is not safe is the first of a run in which all that fails. -/
theorem served_while_safe (openMax : ℕ) :
    (∀ s, (server openMax).Reach Safe s → Served s) ∧
    (∀ s, (server openMax).Reach Safe s → s.main = .accept → ∃ as t, (server openMax).run s as = some t ∧
      t.accepted = s.accepted ∧ ∀ k fd, t.accepted[k]? = some fd → calls t.log k = script k fd) ∧
    ∀ s a s', (server openMax).Reach Safe s → ¬ Safe s a → (server openMax).step s a = some s' →
      ∃ as t, (server openMax).run s' as = some t ∧ ¬ Served t :=
  ⟨fun _ h => (reach_inv h).served, fun _ h => exists_run_closed (reach_inv h),
    fun _ _ _ h => unsafe_breaks (reach_inv h)⟩

/-! ### A client on another one's slot -/

/-- The server as it starts, with zeros for what is not initialised. -/
def start : State := ⟨0, fun _ => 0, initFds, .accept, [], fun _ => Buf.zeros UInt8 bufSize, [], []⟩

theorem init_start (openMax : ℕ) : (server openMax).init start := ⟨rfl, rfl, rfl, rfl, rfl, rfl⟩

/-- `main` accepts one client and creates its thread. -/
def client : List Action := List.replicate 6 .main ++ [.readT, .readSlot, .main]

/-- The first of two clients is served whole, and a third one is accepted, up
to the store of its descriptor. -/
def thirdAccepted : List Action :=
  client ++ client ++ List.replicate 8 (.thread 0 []) ++ List.replicate 5 .main

/-- The second client's thread then receives. -/
def thirdStored : List Action :=
  thirdAccepted ++ [.main, .readT, .readSlot, .main, .thread 1 [], .thread 1 []]

/-- At most three clients are active, and the second one's thread receives from
the third. -/
theorem receives_from_another : ¬ ∀ (openMax : ℕ) (s : State),
    (server openMax).Reach (fun s _ => active s ≤ 10) s → Served s := by
  intro h
  have hm : (server 64).Meets (fun s _ => active s ≤ 10) start thirdStored := by decide +kernel
  have hr : ∃ s, (server 64).run start thirdStored = some s ∧ s.accepted = [4, 5, 4] ∧
      s.log.getLast? = some ⟨1, .recv, 4, some (.conn 2), []⟩ := ⟨_, rfl, rfl, rfl⟩
  obtain ⟨s, hs, ha, hl⟩ := hr
  have := ((h 64 s (.of_run (init_start 64) hm hs)).event (List.mem_of_getLast? hl)).2.1
  rw [ha] at this
  exact absurd this (by decide)

theorem thirdAccepted_meets : (server 64).Meets Safe start thirdAccepted := by decide +kernel

/-- After two clients all goes well, up to the store of a third client's
descriptor where the second one's is. -/
theorem served_while_safe_thirdAccepted :
    (∃ s, (server 64).run start (client ++ client) = some s ∧ Served s ∧
      ∃ as t, (server 64).run s as = some t ∧ t.accepted = [4, 5] ∧
        ∀ k fd, t.accepted[k]? = some fd → calls t.log k = script k fd) ∧
    ∃ s s', (server 64).run start thirdAccepted = some s ∧ (server 64).step s .main = some s' ∧
      ∃ as t, (server 64).run s' as = some t ∧ ¬ Served t := by
  obtain ⟨h1, h2, h3⟩ := served_while_safe 64
  have hm : (server 64).Meets Safe start (client ++ client) := by decide +kernel
  have hr : ∃ s, (server 64).run start (client ++ client) = some s ∧ s.main = .accept ∧ s.accepted = [4, 5] :=
    ⟨_, rfl, rfl, rfl⟩
  have hr' : ∃ s s', (server 64).run start thirdAccepted = some s ∧ (server 64).step s .main = some s' ∧
      ¬ Safe s .main := ⟨_, _, rfl, rfl, by decide⟩
  obtain ⟨s, hs, hmain, ha⟩ := hr
  obtain ⟨u, u', hu, hu', hnot⟩ := hr'
  have hreach := System.Reach.of_run (init_start 64) hm hs
  obtain ⟨as, t, ht, hta, hc⟩ := h2 s hreach hmain
  exact ⟨⟨s, hs, h1 s hreach, as, t, ht, hta.trans ha, hc⟩, u, u', hu, hu',
    h3 u _ u' (.of_run (init_start 64) thirdAccepted_meets hu) hnot hu'⟩

end ThreadPerClient
end Server
end Autumn
