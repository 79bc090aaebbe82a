/-
# The clients of the shared-memory chat together (`chat 2/client.c`)

Any number of clients run at once. Each types a name, appends it to the list in
the shared segment and, when its user leaves, takes it out again; it does both
with the semaphore `sem1` held. A step is one statement on the segment, so a
thread that prints the list (`get_name_list`, which takes no semaphore) can see
what stands there between any two of them.

The clients are a system of `Critical` calls (`simulates`). So in every state in
which the semaphore is free the segment is what the calls of `send_name` and
`delete_name` make of it one after another (`calls_in_order`). While every name
is a new word of one line with room for it, and the local array of
`delete_name` happens to be clear, that is the names of those who are there,
and all that is ever printed is this list, without or with the name that is
being appended, or nothing at all while one is being taken out
(`members_listed`).

Messages are in the other segment (`SharedChat/Log`), which no semaphore guards.

Key definitions: `chat`, `State.view`, `calls`, `members`, `Orderly`.
Key theorems: `step_view`, `simulates`, `calls_in_order`, `orderly_lists`,
`members_listed`.
-/
import Autumn.Lib.Critical
import Autumn.SharedChat.Names

namespace Autumn
namespace SharedChat

/-! ### The statements on the segment -/

/-- `strcat(addr, name);` after the `mmap` of `strlen(name)` bytes, which fails
for none. -/
def cat_name (name : List UInt8) (addr : Buf UInt8 size) : Option (Buf UInt8 size) :=
  if name = [] then none else addr.strcat (name ++ [0])

/-- `strcat(addr, "\n");` -/
def cat_newline (addr : Buf UInt8 size) : Option (Buf UInt8 size) := addr.strcat [newline, 0]

/-- From `strncat(buf, addr, strlen(addr));` to the end of the loop: what is in
`name_list` then. -/
def copy (buf : Buf UInt8 4096) (name : List UInt8) (addr : Buf UInt8 size) : Option (Buf UInt8 4096) := do
  guard addr.Term
  let buf ← buf.strncat addr.chars addr.str.length
  (tokens (· == newline) (4096 + 1) (Strtok.start buf.chars)).1.foldlM (keep_name name) (Buf.zeros UInt8 4096)

/-- `strncat(addr, name_list, strlen(name_list));` -/
def write_back (name_list : Buf UInt8 4096) (addr : Buf UInt8 size) : Option (Buf UInt8 size) :=
  addr.strncat name_list.chars name_list.str.length

/-! ### The clients -/

/-- Where a client is: in `wgetstr`, before the named statement of `send_name`,
in the loop over the keys, or before the named statement of `delete_name`. -/
inductive Pc
  | typing
  | send_wait
  | cat_name
  | cat_newline
  | send_post
  | keys
  | delete_wait
  | copy
  | clear
  | write_back
  | delete_post
  | gone
  deriving DecidableEq, Repr

/-- What a user types at `wgetstr` for `char name[25]`. -/
structure Typed where
  chars : List UInt8
  length_lt : chars.length < 25
  nz : (0 : UInt8) ∉ chars

/-- A client; `buf` is what the array of `delete_name` holds when it is called. -/
structure Client where
  pc : Pc
  name : Typed
  buf : Buf UInt8 4096
  name_list : Buf UInt8 4096

/-- A call that holds the semaphore. -/
inductive Call
  | join (name : Typed)
  | leave (buf : Buf UInt8 4096) (name : Typed)

/-- `entered` are the calls that got the semaphore, in order. -/
structure State (ι : Type) where
  addr : Buf UInt8 size
  sem : ℕ
  client : ι → Client
  entered : List (ι × Call)

/-- The user of a client types a name, or presses F2, or the client takes its next
step. -/
inductive Action (ι : Type)
  | type (i : ι) (typed : Typed)
  | leave (i : ι) (buf : Buf UInt8 4096)
  | next (i : ι)

section Machine

variable {ι : Type} [DecidableEq ι]

/-- Client `i` is now as `c`. -/
def State.setClient (s : State ι) (i : ι) (c : Client) : State ι := { s with client := Function.update s.client i c }

/-- The next step of client `i`. -/
def next (s : State ι) (i : ι) : Option (State ι) :=
  let c := s.client i
  match c.pc with
  | .typing | .keys | .gone => none
  | .send_wait =>
    if 0 < s.sem then
      some { s.setClient i { c with pc := .cat_name } with
        sem := s.sem - 1, entered := s.entered ++ [(i, .join c.name)] }
    else none
  | .cat_name => (cat_name c.name.chars s.addr).map fun addr => { s.setClient i { c with pc := .cat_newline } with addr }
  | .cat_newline => (cat_newline s.addr).map fun addr => { s.setClient i { c with pc := .send_post } with addr }
  | .send_post => some { s.setClient i { c with pc := .keys } with sem := s.sem + 1 }
  | .delete_wait =>
    if 0 < s.sem then
      some { s.setClient i { c with name_list := Buf.zeros UInt8 4096, pc := .copy } with
        sem := s.sem - 1, entered := s.entered ++ [(i, .leave c.buf c.name)] }
    else none
  | .copy => (copy c.buf c.name.chars s.addr).map fun name_list => s.setClient i { c with name_list, pc := .clear }
  | .clear => some { s.setClient i { c with pc := .write_back } with addr := Buf.zeros UInt8 size }
  | .write_back =>
    (write_back c.name_list s.addr).map fun addr => { s.setClient i { c with pc := .delete_post } with addr }
  | .delete_post => some { s.setClient i { c with pc := .gone } with sem := s.sem + 1 }

def step (s : State ι) : Action ι → Option (State ι)
  | .type i typed =>
    match (s.client i).pc with
    | .typing => some (s.setClient i { s.client i with name := typed, pc := .send_wait })
    | _ => none
  | .leave i buf =>
    match (s.client i).pc with
    | .keys => some (s.setClient i { s.client i with buf, pc := .delete_wait })
    | _ => none
  | .next i => next s i

/-- All runs of the clients, from the segment and the semaphore that the server
has made. -/
def chat (ι : Type) [DecidableEq ι] : System (State ι) (Action ι) where
  init s := s.addr = Buf.zeros UInt8 size ∧ s.sem = 1 ∧ (∀ i, (s.client i).pc = .typing) ∧ s.entered = []
  step := step

end Machine

variable {ι : Type}

/-! ### The clients as calls that hold the semaphore -/

/-- What the calls do to the segment, with `name_list` as what they have of their
own. -/
def calls : Calls (Buf UInt8 size) (Buf UInt8 4096) Call where
  init _ := Buf.zeros UInt8 4096
  body
    | .join name => [fun x => (cat_name name.chars x.1).map (·, x.2), fun x => (cat_newline x.1).map (·, x.2)]
    | .leave buf name =>
      [fun x => (copy buf name.chars x.1).map (x.1, ·), fun x => some (Buf.zeros UInt8 size, x.2),
        fun x => (write_back x.2 x.1).map (·, x.2)]

/-- Where a client is with its calls. -/
def Client.place (c : Client) : Critical.Place (Buf UInt8 size) (Buf UInt8 4096) Call :=
  let joining (k : ℕ) := .inside (.join c.name) (Buf.zeros UInt8 4096) ((calls.body (.join c.name)).drop k)
  let leaving (k : ℕ) := .inside (.leave c.buf c.name) c.name_list ((calls.body (.leave c.buf c.name)).drop k)
  match c.pc with
  | .typing | .keys | .gone => .out
  | .send_wait => .wait (.join c.name)
  | .cat_name => joining 0
  | .cat_newline => joining 1
  | .send_post => joining 2
  | .delete_wait => .wait (.leave c.buf c.name)
  | .copy => .inside (.leave c.buf c.name) (Buf.zeros UInt8 4096) (calls.body (.leave c.buf c.name))
  | .clear => leaving 1
  | .write_back => leaving 2
  | .delete_post => leaving 3

def State.view (s : State ι) : Critical.State ι (Buf UInt8 size) (Buf UInt8 4096) Call where
  shared := s.addr
  sem := s.sem
  place := Client.place ∘ s.client
  entered := s.entered

section Simulation

variable [DecidableEq ι]

/-- **A step of a client** is one of its calls'. -/
theorem step_view {s t : State ι} {a : Action ι} (h : step s a = some t) :
    ∃ b, Critical.step calls s.view b = some t.view := by
  cases a with
  | type i typed =>
    simp only [step] at h
    split at h
    · rename_i hp
      have hout : s.view.place i = .out := by simp only [State.view, Function.comp_apply, Client.place, hp]
      cases h
      refine ⟨.call i (.join typed), ?_⟩
      simp only [Critical.step, hout]
      simp only [State.view, State.setClient, Function.comp_update]
      rfl
    · cases h
  | leave i buf =>
    simp only [step] at h
    split at h
    · rename_i hp
      have hout : s.view.place i = .out := by simp only [State.view, Function.comp_apply, Client.place, hp]
      cases h
      refine ⟨.call i (.leave buf (s.client i).name), ?_⟩
      simp only [Critical.step, hout]
      simp only [State.view, State.setClient, Function.comp_update]
      rfl
    · cases h
  | next i =>
    simp only [step, next] at h
    have hplace : s.view.place i = (s.client i).place := rfl
    split at h
    · cases h
    · cases h
    · cases h
    · rename_i hp
      split at h
      · rename_i hsem
        cases h
        have hsem' : 0 < s.view.sem := hsem
        refine ⟨.wait i, ?_⟩
        simp only [Critical.step, hplace, Client.place, hp, if_pos hsem']
        simp only [State.view, State.setClient, Function.comp_update]
        rfl
      · cases h
    · rename_i hp
      obtain ⟨addr, haddr, rfl⟩ := Option.map_eq_some_iff.mp h
      have haddr' : cat_name (s.client i).name.chars s.view.shared = some addr := haddr
      refine ⟨.step i, ?_⟩
      simp only [Critical.step, hplace, Client.place, hp, calls, List.drop_zero, haddr', Option.map_some]
      simp only [State.view, State.setClient, Function.comp_update]
      rfl
    · rename_i hp
      obtain ⟨addr, haddr, rfl⟩ := Option.map_eq_some_iff.mp h
      have haddr' : cat_newline s.view.shared = some addr := haddr
      refine ⟨.step i, ?_⟩
      simp only [Critical.step, hplace, Client.place, hp, calls, List.drop_succ_cons, List.drop_zero, haddr',
        Option.map_some]
      simp only [State.view, State.setClient, Function.comp_update]
      rfl
    · rename_i hp
      cases h
      refine ⟨.post i, ?_⟩
      simp only [Critical.step, hplace, Client.place, hp, calls, List.drop_succ_cons, List.drop_zero]
      simp only [State.view, State.setClient, Function.comp_update]
      rfl
    · rename_i hp
      split at h
      · rename_i hsem
        cases h
        have hsem' : 0 < s.view.sem := hsem
        refine ⟨.wait i, ?_⟩
        simp only [Critical.step, hplace, Client.place, hp, if_pos hsem']
        simp only [State.view, State.setClient, Function.comp_update]
        rfl
      · cases h
    · rename_i hp
      obtain ⟨name_list, hlist, rfl⟩ := Option.map_eq_some_iff.mp h
      have hlist' : copy (s.client i).buf (s.client i).name.chars s.view.shared = some name_list := hlist
      refine ⟨.step i, ?_⟩
      simp only [Critical.step, hplace, Client.place, hp, calls, hlist', Option.map_some]
      simp only [State.view, State.setClient, Function.comp_update]
      rfl
    · rename_i hp
      cases h
      refine ⟨.step i, ?_⟩
      simp only [Critical.step, hplace, Client.place, hp, calls, List.drop_succ_cons, List.drop_zero, Option.map_some]
      simp only [State.view, State.setClient, Function.comp_update]
      rfl
    · rename_i hp
      obtain ⟨addr, haddr, rfl⟩ := Option.map_eq_some_iff.mp h
      have haddr' : write_back (s.client i).name_list s.view.shared = some addr := haddr
      refine ⟨.step i, ?_⟩
      simp only [Critical.step, hplace, Client.place, hp, calls, List.drop_succ_cons, List.drop_zero, haddr',
        Option.map_some]
      simp only [State.view, State.setClient, Function.comp_update]
      rfl
    · rename_i hp
      cases h
      refine ⟨.post i, ?_⟩
      simp only [Critical.step, hplace, Client.place, hp, calls, List.drop_succ_cons, List.drop_zero]
      simp only [State.view, State.setClient, Function.comp_update]
      rfl

/-- **The clients are calls that hold the semaphore.** -/
theorem simulates (ι : Type) [DecidableEq ι] : System.Sim (chat ι) (fun _ _ => True)
    (Critical.critical calls (Buf.zeros UInt8 size)) (fun s u => u = s.view) where
  init s h := by
    obtain ⟨ha, hsem, hp, he⟩ := h
    refine ⟨s.view, ⟨ha, hsem, fun i => ?_, he⟩, rfl⟩
    show (s.client i).place = .out
    rw [Client.place, hp i]
  step s u a t _ hR _ h := by
    obtain rfl := hR
    obtain ⟨b, hb⟩ := step_view h
    exact ⟨[b], t.view, by rw [System.run_single]; exact hb, rfl⟩

theorem reachable_linear {s : State ι} (h : (chat ι).Reachable s) :
    Critical.Linear calls (Buf.zeros UInt8 size) s.view := by
  obtain ⟨u, hu, rfl⟩ := (simulates ι).reach h
  exact Critical.reachable_linear hu

end Simulation

/-! ### One after another -/

/-- The whole call. -/
def Call.run : Call → Buf UInt8 size → Option (Buf UInt8 size)
  | .join name, addr => if name.chars = [] then none else send_name addr name.chars
  | .leave buf name, addr => delete_name buf addr name.chars

theorem delete_name_eq (buf : Buf UInt8 4096) (addr : Buf UInt8 size) (name : List UInt8) :
    delete_name buf addr name = (copy buf name addr).bind fun m => write_back m (Buf.zeros UInt8 size) := by
  simp only [delete_name, copy, Option.bind_eq_bind, Option.bind_assoc]
  rfl

theorem atomic_eq (c : Call) (addr : Buf UInt8 size) : calls.atomic c addr = c.run addr := by
  cases c with
  | join name =>
    by_cases hn : name.chars = []
    · simp [Calls.atomic, calls, Calls.runSteps, cat_name, Call.run, hn]
    · simp only [Calls.atomic, calls, Calls.runSteps, cat_name, cat_newline, Call.run, send_name, if_neg hn,
        List.foldlM_cons, List.foldlM_nil]
      cases addr.strcat (name.chars ++ [0]) with
      | none => rfl
      | some b => cases h : b.strcat [newline, 0] <;> simp [h]
  | leave buf name =>
    rw [Call.run, delete_name_eq]
    simp only [Calls.atomic, calls, Calls.runSteps, List.foldlM_cons, List.foldlM_nil]
    cases copy buf name.chars addr with
    | none => rfl
    | some m => cases h : write_back m (Buf.zeros UInt8 size) <;> simp [h]

theorem atomics_eq (cs : List (ι × Call)) (addr : Buf UInt8 size) :
    calls.atomics cs addr = cs.foldlM (fun addr e => e.2.run addr) addr := by
  simp only [Calls.atomics, atomic_eq]

/-- What can stand in the segment while a call is in course, from `base` on. -/
def Call.Partway (base now : Buf UInt8 size) : Call → Prop
  | .join name => now = base ∨ cat_name name.chars base = some now ∨ send_name base name.chars = some now
  | .leave buf name => now = base ∨ now = Buf.zeros UInt8 size ∨ delete_name buf base name.chars = some now

theorem partway_of_take {c : Call} {k : ℕ} {base now : Buf UInt8 size} {l : Buf UInt8 4096}
    (h : Calls.runSteps ((calls.body c).take k) (base, calls.init c) = some (now, l)) : c.Partway base now := by
  have hall : ((calls.body c).length ≤ k) → c.run base = some now := by
    intro hk
    rw [List.take_of_length_le hk] at h
    rw [← atomic_eq, Calls.atomic, h]
    rfl
  cases c with
  | join name =>
    obtain rfl | rfl | hk : k = 0 ∨ k = 1 ∨ 2 ≤ k := by omega
    · obtain ⟨rfl, -⟩ := Prod.mk.inj (Option.some.inj h)
      exact .inl rfl
    · simp only [calls, List.take_succ_cons, List.take_zero, Calls.runSteps, List.foldlM_cons, List.foldlM_nil,
        Option.bind_eq_bind, Option.bind_eq_some_iff, Option.map_eq_some_iff] at h
      obtain ⟨x, ⟨now', hcat, rfl⟩, hx⟩ := h
      obtain ⟨rfl, -⟩ := Prod.mk.inj (Option.some.inj hx)
      exact .inr (.inl hcat)
    · have hrun := hall hk
      rw [Call.run] at hrun
      split at hrun
      · cases hrun
      · exact .inr (.inr hrun)
  | leave buf name =>
    obtain rfl | rfl | rfl | hk : k = 0 ∨ k = 1 ∨ k = 2 ∨ 3 ≤ k := by omega
    · obtain ⟨rfl, -⟩ := Prod.mk.inj (Option.some.inj h)
      exact .inl rfl
    · simp only [calls, List.take_succ_cons, List.take_zero, Calls.runSteps, List.foldlM_cons, List.foldlM_nil,
        Option.bind_eq_bind, Option.bind_eq_some_iff, Option.map_eq_some_iff] at h
      obtain ⟨x, ⟨m, -, rfl⟩, hx⟩ := h
      obtain ⟨rfl, -⟩ := Prod.mk.inj (Option.some.inj hx)
      exact .inl rfl
    · simp only [calls, List.take_succ_cons, List.take_zero, Calls.runSteps, List.foldlM_cons, List.foldlM_nil,
        Option.bind_eq_bind, Option.bind_eq_some_iff, Option.map_eq_some_iff] at h
      obtain ⟨x, -, y, hy, hx⟩ := h
      obtain rfl := Option.some.inj hy
      obtain ⟨rfl, -⟩ := Prod.mk.inj (Option.some.inj hx)
      exact .inr (.inl rfl)
    · exact .inr (.inr (hall hk))

/-- Between `sem_wait` and `sem_post`. -/
def Client.Holds (c : Client) : Prop := c.place.Inside

/-- What stands in the segment: what the calls so far make of it, or those before
the last one, which is in course. -/
def InOrder (s : State ι) : Prop :=
  s.sem = 1 ∧ s.entered.foldlM (fun addr e => e.2.run addr) (Buf.zeros UInt8 size) = some s.addr ∨
  s.sem = 0 ∧ ∃ before i c base, s.entered = before ++ [(i, c)] ∧ (s.client i).Holds ∧
    before.foldlM (fun addr e => e.2.run addr) (Buf.zeros UInt8 size) = some base ∧ c.Partway base s.addr

/-- **The calls take effect one after another**, however the clients' steps
interleave: no two hold the semaphore, and what stands in the segment is what
whole calls have made of it, but for the one in course. -/
theorem calls_in_order (ι : Type) [DecidableEq ι] (s : State ι) (h : (chat ι).Reachable s) :
    (∀ i j, (s.client i).Holds → (s.client j).Holds → i = j) ∧ InOrder s := by
  cases reachable_linear h with
  | free hsem hout hrun =>
    rw [atomics_eq] at hrun
    exact ⟨fun i _ hi => absurd hi (hout i), .inl ⟨hsem, hrun⟩⟩
  | held k c l done rest before base hsem hk hout hbody hdone hent hbase =>
    refine ⟨fun i j hi hj => ?_, .inr ⟨hsem, before, k, c, base, hent, ?_, atomics_eq before _ ▸ hbase, ?_⟩⟩
    · have honly : ∀ v, (s.client v).Holds → v = k := fun v hv => by
        by_contra hne
        exact hout v hne hv
      rw [honly i hi, honly j hj]
    · show (s.view.place k).Inside
      rw [hk]
      trivial
    · have htake : done = (calls.body c).take done.length := by rw [hbody, List.take_left]
      rw [htake] at hdone
      exact partway_of_take hdone

/-- Nobody has typed a name, and `name` is what the arrays hold. -/
def start (ι : Type) (name : Typed) : State ι :=
  ⟨Buf.zeros UInt8 size, 1, fun _ => ⟨.typing, name, Buf.zeros UInt8 4096, Buf.zeros UInt8 4096⟩, []⟩

/-- `i` types its name and joins, and `j` is in the middle of it. -/
def twoJoin (i j : ι) (name name' : Typed) : List (Action ι) :=
  [.type j name', .type i name, .next i, .next i, .next i, .next i, .next j, .next j]

/-- `k` and `l` -/
def nameA : Typed := ⟨[107], by decide, by decide⟩

def nameB : Typed := ⟨[108], by decide, by decide⟩

theorem calls_in_order_twoJoin : ∃ s, (chat Bool).run (start Bool nameA) (twoJoin false true nameA nameB) = some s ∧
    s.sem = 0 ∧ InOrder s := by
  have hrun : ∃ s, (chat Bool).run (start Bool nameA) (twoJoin false true nameA nameB) = some s ∧ s.sem = 0 :=
    ⟨_, rfl, rfl⟩
  obtain ⟨s, hs, hsem⟩ := hrun
  exact ⟨s, hs, hsem, (calls_in_order Bool s (.of_run ⟨rfl, rfl, fun _ => rfl, rfl⟩ hs)).2⟩

/-! ### Who is in the list -/

/-- The names of those who have joined and not left, in order. -/
def members (cs : List (ι × Call)) : List (List UInt8) :=
  cs.foldl (fun L e => match e.2 with
    | .join name => L ++ [name.chars]
    | .leave _ name => L.filter fun w => w ≠ name.chars) []

/-- The name is a new word of one line with room for it; the array of
`delete_name` is clear. -/
def Call.Fits (L : List (List UInt8)) : Call → Prop
  | .join name => Name name.chars ∧ name.chars ∉ L ∧ (lines newline (L ++ [name.chars])).length < size
  | .leave buf _ => buf.Term ∧ buf.str = []

/-- Each call fits those before it. -/
def Orderly (cs : List (ι × Call)) : Prop := ∀ p e, p ++ [e] <+: cs → e.2.Fits (members p)

/-- The segment holds the list. -/
structure Lists (addr : Buf UInt8 size) (L : List (List UInt8)) : Prop where
  term : addr.Term
  str : addr.str = lines newline L
  names : ∀ w ∈ L, Name w

theorem members_join (cs : List (ι × Call)) (i : ι) (name : Typed) :
    members (cs ++ [(i, .join name)]) = members cs ++ [name.chars] := by
  simp [members]

theorem members_leave (cs : List (ι × Call)) (i : ι) (buf : Buf UInt8 4096) (name : Typed) :
    members (cs ++ [(i, .leave buf name)]) = (members cs).filter fun w => w ≠ name.chars := by
  simp [members]

theorem lists_zeros : Lists (Buf.zeros UInt8 size) [] := ⟨Buf.term_zeros (by decide), Buf.str_zeros, by simp⟩

theorem Lists.kept_eq {addr : Buf UInt8 size} {L : List (List UInt8)} (h : Lists addr L) {buf : Buf UInt8 4096}
    (hb : buf.str = []) (n : List UInt8) : kept buf addr n = L.filter fun w => w ≠ n := by
  rw [kept, hb, List.nil_append, h.str, pieces_lines fun w hw => ⟨(h.names w hw).1, (h.names w hw).2.1⟩]

/-- **A call that fits** does to the list what it is for. -/
theorem Lists.run {addr : Buf UInt8 size} {cs : List (ι × Call)} (h : Lists addr (members cs)) (i : ι) {c : Call}
    (hc : c.Fits (members cs)) : ∃ addr', c.run addr = some addr' ∧ Lists addr' (members (cs ++ [(i, c)])) := by
  cases c with
  | join name =>
    obtain ⟨hname, -, hroom⟩ := hc
    have hlen : addr.str.length + name.chars.length + 1 < size := by
      rw [lines_concat] at hroom
      rw [h.str]
      simpa [Nat.add_assoc] using hroom
    obtain ⟨addr', hrun, hs, ht⟩ := send_name_spec h.term name.nz hlen
    rw [members_join]
    refine ⟨addr', by rw [Call.run, if_neg hname.1]; exact hrun, ht, by rw [hs, h.str, lines_concat], fun w hw => ?_⟩
    rcases List.mem_append.mp hw with hw | hw
    · exact h.names w hw
    · exact List.mem_singleton.mp hw ▸ hname
  | leave buf name =>
    obtain ⟨hb, hbs⟩ := hc
    have hkept := h.kept_eq hbs name.chars
    have hlt := h.term.length_lt
    have hlen : buf.str.length + addr.str.length < 4096 := by
      rw [hbs, List.length_nil, Nat.zero_add]
      exact hlt.trans (by decide)
    have hroom : (lines newline (kept buf addr name.chars)).length < size := by
      rw [hkept]
      rw [h.str] at hlt
      exact (length_lines_filter_le _ _ _).trans_lt hlt
    obtain ⟨addr', hrun, ht⟩ := exists_delete_name name.nz hb h.term hlen hroom
    rw [members_leave]
    refine ⟨addr', hrun, ht, ?_, fun w hw => h.names w (List.mem_filter.mp hw).1⟩
    rw [(delete_name_eq_some name.nz hrun).2.2, hkept]

theorem Orderly.of_concat {cs : List (ι × Call)} {e : ι × Call} (h : Orderly (cs ++ [e])) :
    Orderly cs ∧ e.2.Fits (members cs) :=
  ⟨fun p e' hp => h p e' (hp.trans (List.prefix_append _ _)), h cs e (List.prefix_refl _)⟩

theorem orderly_nil : Orderly ([] : List (ι × Call)) := fun p e h => by simp at h

theorem Orderly.concat {cs : List (ι × Call)} {e : ι × Call} (h : Orderly cs) (he : e.2.Fits (members cs)) :
    Orderly (cs ++ [e]) := by
  intro p e' hp
  rcases List.prefix_concat_iff.mp hp with heq | hpre
  · obtain ⟨rfl, hee⟩ := List.append_inj' heq rfl
    obtain rfl := List.singleton_inj.mp hee
    exact he
  · exact h p e' hpre

/-- **Orderly calls** keep the list. -/
theorem orderly_lists (cs : List (ι × Call)) (h : Orderly cs) :
    ∃ addr, cs.foldlM (fun addr e => e.2.run addr) (Buf.zeros UInt8 size) = some addr ∧ Lists addr (members cs) := by
  induction cs using List.reverseRecOn with
  | nil => exact ⟨_, rfl, lists_zeros⟩
  | append_singleton cs e ih =>
    obtain ⟨hcs, hfits⟩ := h.of_concat
    obtain ⟨base, hbase, hlists⟩ := ih hcs
    obtain ⟨addr, haddr, hlists'⟩ := hlists.run e.1 hfits
    refine ⟨addr, ?_, hlists'⟩
    rw [Calls.foldlM_concat, hbase]
    exact haddr

/-- What stands in the segment in the middle of a call, when the list was `L`. -/
def Call.Unfinished (L : List (List UInt8)) (text : List UInt8) : Call → Prop
  | .join name => text = lines newline L ++ name.chars
  | .leave _ _ => text = []

theorem Lists.partway {base now : Buf UInt8 size} {cs : List (ι × Call)} (h : Lists base (members cs)) (i : ι)
    {c : Call} (hc : c.Fits (members cs)) (hp : c.Partway base now) : now.Term ∧
      (now.str = lines newline (members cs) ∨ now.str = lines newline (members (cs ++ [(i, c)])) ∨
        c.Unfinished (members cs) now.str) := by
  obtain ⟨addr, hrun, hlists⟩ := h.run i hc
  cases c with
  | join name =>
    rcases hp with rfl | hcat | hsend
    · exact ⟨h.term, .inl h.str⟩
    · rw [cat_name, if_neg hc.1.1] at hcat
      obtain ⟨-, hs, ht⟩ := Buf.strcat_eq_some hcat
      rw [cstr_append_zero name.nz, h.str] at hs
      exact ⟨ht, .inr (.inr hs)⟩
    · rw [Call.run, if_neg hc.1.1, hsend] at hrun
      obtain rfl := Option.some.inj hrun
      exact ⟨hlists.term, .inr (.inl hlists.str)⟩
  | leave buf name =>
    rcases hp with rfl | rfl | hdel
    · exact ⟨h.term, .inl h.str⟩
    · exact ⟨Buf.term_zeros (by decide), .inr (.inr Buf.str_zeros)⟩
    · rw [Call.run, hdel] at hrun
      obtain rfl := Option.some.inj hrun
      exact ⟨hlists.term, .inr (.inl hlists.str)⟩

/-- What a thread that prints the list can see. -/
def Shows (s : State ι) : Prop :=
  s.addr.str = lines newline (members s.entered) ∨
  ∃ before i c, s.entered = before ++ [(i, c)] ∧ (s.client i).Holds ∧
    (s.addr.str = lines newline (members before) ∨ c.Unfinished (members before) s.addr.str)

section Runs

variable [DecidableEq ι]

/-- In a call that fits, no step of the client leaves its arrays. -/
theorem exists_step {s : State ι} (hL : Critical.Linear calls (Buf.zeros UInt8 size) s.view) (h : Orderly s.entered)
    {i : ι} (hi : (s.client i).Holds) : ∃ t, step s (.next i) = some t := by
  have hplace : s.view.place i = (s.client i).place := rfl
  have hok : ∀ {c l f rest}, (s.client i).place = .inside c l (f :: rest) → ∃ x, f (s.addr, l) = some x := by
    intro c l f rest hp
    refine hL.exists_next (hplace.trans hp) fun before base hent hbase => ?_
    have hent' : s.entered = before ++ [(i, c)] := hent
    rw [hent'] at h
    obtain ⟨hbefore, hfits⟩ := h.of_concat
    obtain ⟨addr, haddr, hlists⟩ := orderly_lists before hbefore
    rw [atomics_eq, haddr] at hbase
    obtain rfl := Option.some.inj hbase
    obtain ⟨addr', hrun, -⟩ := hlists.run i hfits
    exact ⟨addr', by rw [atomic_eq]; exact hrun⟩
  simp only [step, next]
  split
  · rename_i hp
    simp [Client.Holds, Client.place, hp, Critical.Place.Inside] at hi
  · rename_i hp
    simp [Client.Holds, Client.place, hp, Critical.Place.Inside] at hi
  · rename_i hp
    simp [Client.Holds, Client.place, hp, Critical.Place.Inside] at hi
  · rename_i hp
    simp [Client.Holds, Client.place, hp, Critical.Place.Inside] at hi
  · rename_i hp
    obtain ⟨x, hx⟩ := hok (by simp only [Client.place, hp]; rfl)
    obtain ⟨addr, haddr, -⟩ := Option.map_eq_some_iff.mp hx
    exact ⟨_, by rw [haddr]; rfl⟩
  · rename_i hp
    obtain ⟨x, hx⟩ := hok (by simp only [Client.place, hp]; rfl)
    obtain ⟨addr, haddr, -⟩ := Option.map_eq_some_iff.mp hx
    exact ⟨_, by rw [haddr]; rfl⟩
  · exact ⟨_, rfl⟩
  · rename_i hp
    simp [Client.Holds, Client.place, hp, Critical.Place.Inside] at hi
  · rename_i hp
    obtain ⟨x, hx⟩ := hok (by simp only [Client.place, hp]; rfl)
    obtain ⟨m, hm, -⟩ := Option.map_eq_some_iff.mp hx
    exact ⟨_, by rw [hm]; rfl⟩
  · exact ⟨_, rfl⟩
  · rename_i hp
    obtain ⟨x, hx⟩ := hok (by simp only [Client.place, hp]; rfl)
    obtain ⟨addr, haddr, -⟩ := Option.map_eq_some_iff.mp hx
    exact ⟨_, by rw [haddr]; rfl⟩
  · exact ⟨_, rfl⟩

/-- **The list is that of the members** whenever the semaphore is free, and what is
printed at any time is this list, without or with the name being appended, or
nothing while one is taken out; and no client that holds the semaphore gets
stuck in it. This is so while every call fits those before it. -/
theorem members_listed (ι : Type) [DecidableEq ι] (s : State ι) (hs : (chat ι).Reachable s) (h : Orderly s.entered) :
    (s.sem ≠ 0 → s.addr.str = lines newline (members s.entered)) ∧ s.addr.Term ∧ Shows s ∧
      ∀ i, (s.client i).Holds → ∃ t, step s (.next i) = some t := by
  have hL := reachable_linear hs
  refine and_assoc.mp (and_assoc.mp ⟨?_, fun i hi => exists_step hL h hi⟩)
  cases hL with
  | free hsem hout hrun =>
    obtain ⟨addr, haddr, hlists⟩ := orderly_lists s.entered h
    have hrun' : s.entered.foldlM (fun addr e => e.2.run addr) (Buf.zeros UInt8 size) = some s.addr := by
      rw [← atomics_eq]
      exact hrun
    obtain rfl := Option.some.inj (haddr.symm.trans hrun')
    exact ⟨⟨fun _ => hlists.str, hlists.term⟩, .inl hlists.str⟩
  | held i c l done rest before base hsem hi hout hbody hdone hent hbase =>
    have hent' : s.entered = before ++ [(i, c)] := hent
    have horderly : Orderly (before ++ [(i, c)]) := hent' ▸ h
    obtain ⟨hbefore, hfits⟩ := horderly.of_concat
    obtain ⟨addr, haddr, hlists⟩ := orderly_lists before hbefore
    rw [atomics_eq, haddr] at hbase
    obtain rfl := Option.some.inj hbase
    have htake : done = (calls.body c).take done.length := by rw [hbody, List.take_left]
    rw [htake] at hdone
    have hin : (s.client i).Holds := by
      show (s.view.place i).Inside
      rw [hi]
      trivial
    obtain ⟨ht, hold | hnew | hpart⟩ := hlists.partway i hfits (partway_of_take hdone)
    · exact ⟨⟨fun h0 => absurd hsem h0, ht⟩, .inr ⟨before, i, c, hent', hin, .inl hold⟩⟩
    · exact ⟨⟨fun h0 => absurd hsem h0, ht⟩, .inl (hent' ▸ hnew)⟩
    · exact ⟨⟨fun h0 => absurd hsem h0, ht⟩, .inr ⟨before, i, c, hent', hin, .inr hpart⟩⟩

/-- `l` is being appended to `k`. -/
theorem members_listed_twoJoin : ∃ s, (chat Bool).run (start Bool nameA) (twoJoin false true nameA nameB) = some s ∧
    s.entered = [(false, .join nameA), (true, .join nameB)] ∧ Shows s := by
  have hrun : ∃ s, (chat Bool).run (start Bool nameA) (twoJoin false true nameA nameB) = some s ∧
      s.entered = [(false, .join nameA), (true, .join nameB)] := ⟨_, rfl, rfl⟩
  obtain ⟨s, hs, hent⟩ := hrun
  have hA : Call.Fits [] (.join nameA) := ⟨by decide, by decide, by decide⟩
  have hB : Call.Fits [nameA.chars] (.join nameB) := ⟨by decide, by decide, by decide⟩
  have hone : Orderly [(false, Call.join nameA)] := orderly_nil.concat hA
  have h : Orderly s.entered := by
    rw [hent]
    exact hone.concat hB
  exact ⟨s, hs, hent, (members_listed Bool s (.of_run ⟨rfl, rfl, fun _ => rfl, rfl⟩ hs) h).2.2.1⟩

end Runs

end SharedChat
end Autumn
