/-
# The character device's message pointer (`ioctl/RW_module.c`)

`msg_ptr` is one pointer for the whole module. An open aims it at `msg_buff`,
an ioctl SET of a greeting at `answer`, and an ioctl GET that reads something
leaves it null; the next GET dereferences it all the same. So no dereference
goes wrong exactly if an open or a greeting comes between any GET that has
something to read and the next GET (`defined_iff_rearmed`).

What a GET has to read is said of the calls before it alone: what the last open
or greeting aimed at (`aim`) and what the writes left in the buffer
(`written`).

Key definitions: `Ptr`, `device_read`, `my_ioctl`, `device`, `Readable`,
`Rearmed`.
Key theorems: `device_read_aimed`, `runs_of_rearmed`, `defined_iff_rearmed`.
-/
import Mathlib.Data.List.Induction
import Autumn.Kernel.RWModule

namespace Autumn
namespace RWModule

/-! ### The program -/

/-- `msg_ptr`: null, or into one of the two arrays. -/
inductive Ptr
  | null
  | msg_buff (i : ℕ)
  | answer (i : ℕ)
  deriving DecidableEq, Repr

/-- `p + 1` -/
def Ptr.next : Ptr → Ptr
  | .null => .null
  | .msg_buff i => .msg_buff (i + 1)
  | .answer i => .answer (i + 1)

/-- `"hello"` -/
def hello : List UInt8 := [104, 101, 108, 108, 111]

/-- `char answer[] = "Hi!"`, with its NUL. -/
def answer : List UInt8 := [72, 105, 33, 0]

/-- `*p`, where `p` points into `msg_buff` or into `answer`. -/
def deref (msg : Msg) : Ptr → Option UInt8
  | .null => none
  | .msg_buff i => if h : i < 80 then some (msg ⟨i, h⟩) else none
  | .answer i => answer[i]?

/-- `while (length && *msg_ptr)`, with what it puts to the user. -/
def read_loop (msg : Msg) : ℕ → Ptr → Option (List UInt8)
  | 0, _ => some []
  | length + 1, msg_ptr => do
    let c ← deref msg msg_ptr
    if c = 0 then some []
    else
      let rest ← read_loop msg length msg_ptr.next
      some (c :: rest)

/-- `device_read`: what it puts to the user, and `msg_ptr` afterwards. -/
def device_read (msg : Msg) (msg_ptr : Ptr) (length : ℕ) : Option (List UInt8 × Ptr) := do
  let c ← deref msg msg_ptr
  if c = 0 then some ([], msg_ptr)
  else
    let bytes ← read_loop msg length msg_ptr
    some (bytes, .null)

/-- The globals. -/
structure Device where
  msg : Msg
  msg_ptr : Ptr

/-- The requests of `my_ioctl`; `temp` is the memory at its argument. -/
inductive Request
  | set_msg (temp : List UInt8)
  | get_msg
  deriving DecidableEq, Repr

/-- `memcmp(temp, "hello", 5) == 0` -/
def greets (temp : List UInt8) : Bool := temp.take 5 = hello

def my_open (d : Device) : Device := { d with msg_ptr := .msg_buff 0 }

def my_ioctl (d : Device) : Request → Option Device
  | .set_msg temp => some (if greets temp then { d with msg_ptr := .answer 0 } else d)
  | .get_msg => (device_read d.msg d.msg_ptr 4).map fun r => { d with msg_ptr := r.2 }

/-- A call through any descriptor; a write is made at the descriptor's offset,
or at the one that `pwrite` is given. -/
inductive Op
  | my_open
  | my_write (off : ℕ) (user : List UInt8) (len : ℕ)
  | my_ioctl (request : Request)
  deriving DecidableEq, Repr

/-- `none` where `msg_ptr` is dereferenced and does not point into an array. -/
def deviceStep (d : Device) : Op → Option Device
  | .my_open => some (my_open d)
  | .my_write off user len => some { d with msg := (my_write d.msg off user len).msg }
  | .my_ioctl request => my_ioctl d request

/-- The module after `init_module`. -/
def loaded : Device := ⟨fun _ => 0, .null⟩

/-- All sequences of calls. -/
def device : System Device Op where
  init d := d = loaded
  step := deviceStep

/-! ### What a GET has to read -/

/-- ioctl GET -/
abbrev get : Op := .my_ioctl .get_msg

/-- The call aims `msg_ptr` at an array. -/
def Aims : Op → Prop
  | .my_open => True
  | .my_ioctl (.set_msg temp) => greets temp
  | _ => False

instance : DecidablePred Aims := fun op => by
  unfold Aims
  split <;> infer_instance

/-- What the last open or greeting of the calls aims at. -/
def aim (ops : List Op) : Ptr :=
  ops.foldl (fun p op => match op with
    | .my_open => .msg_buff 0
    | .my_ioctl (.set_msg temp) => if greets temp then .answer 0 else p
    | _ => p) .null

/-- What the writes among the calls leave in `msg_buff`. -/
def written (ops : List Op) : Msg :=
  ops.foldl (fun msg op => match op with
    | .my_write off user len => (my_write msg off user len).msg
    | _ => msg) fun _ => 0

/-- After the calls, the first character aimed at is not a NUL. -/
def Readable (ops : List Op) : Prop := ∃ c, deref (written ops) (aim ops) = some c ∧ c ≠ 0

/-- Between a GET that has something to read and the next one there is an open
or a greeting. -/
def Rearmed (ops : List Op) : Prop :=
  ∀ p q r, ops = p ++ get :: (q ++ get :: r) → Readable p → ∃ op ∈ q, Aims op

/-- A GET has had something to read, and nothing aims `msg_ptr` again. -/
def Spent (ops : List Op) : Prop :=
  ∃ p q, ops = p ++ get :: q ∧ Readable p ∧ ∀ op ∈ q, ¬ Aims op

theorem aim_concat (ops : List Op) (op : Op) : aim (ops ++ [op]) = match op with
    | .my_open => .msg_buff 0
    | .my_ioctl (.set_msg temp) => if greets temp then .answer 0 else aim ops
    | _ => aim ops := by
  rw [aim, List.foldl_concat]
  rfl

theorem written_concat (ops : List Op) (op : Op) : written (ops ++ [op]) = match op with
    | .my_write off user len => (my_write (written ops) off user len).msg
    | _ => written ops := by
  rw [written, List.foldl_concat]
  rfl

theorem spent_concat {ops : List Op} {op : Op} :
    Spent (ops ++ [op]) ↔ ¬ Aims op ∧ (Spent ops ∨ op = get ∧ Readable ops) := by
  constructor
  · rintro ⟨p, q, heq, hp, hq⟩
    rcases concat_eq_append_cons heq with ⟨rfl, rfl, rfl⟩ | ⟨q, rfl, rfl⟩
    · exact ⟨fun h => h, .inr ⟨rfl, hp⟩⟩
    · exact ⟨hq op (by simp), .inl ⟨p, q, rfl, hp, fun x hx => hq x (by simp [hx])⟩⟩
  · rintro ⟨hop, ⟨p, q, rfl, hp, hq⟩ | ⟨rfl, hr⟩⟩
    · refine ⟨p, q ++ [op], by simp, hp, fun x hx => ?_⟩
      rcases List.mem_append.mp hx with hx | hx
      · exact hq x hx
      · rw [List.mem_singleton.mp hx]
        exact hop
    · exact ⟨ops, [], rfl, hr, by simp⟩

theorem rearmed_concat {ops : List Op} {op : Op} :
    Rearmed (ops ++ [op]) ↔ Rearmed ops ∧ ¬ (op = get ∧ Spent ops) := by
  constructor
  · intro h
    refine ⟨fun p q r heq => h p q (r ++ [op]) (by simp [heq]), ?_⟩
    rintro ⟨rfl, p, q, rfl, hp, hq⟩
    obtain ⟨x, hx, hax⟩ := h p q [] (by simp) hp
    exact hq x hx hax
  · rintro ⟨h, hlast⟩ p q r heq hp
    rw [← List.cons_append, ← List.append_assoc] at heq
    -- the second GET is the last call, or one before it
    rcases concat_eq_append_cons heq with ⟨-, rfl, hop⟩ | ⟨r, -, hops⟩
    · by_contra hno
      exact hlast ⟨hop, p, q, rfl, hp, fun x hx ha => hno ⟨x, hx, ha⟩⟩
    · exact h p q r (by rw [hops, List.append_assoc, List.cons_append]) hp

/-! ### One GET -/

theorem read_loop_buff (msg : Msg) : ∀ {length i : ℕ}, i + length ≤ 80 →
    ∃ bytes, read_loop msg length (.msg_buff i) = some bytes
  | 0, _, _ => ⟨[], rfl⟩
  | length + 1, i, h => by
    have hi : i < 80 := by omega
    obtain ⟨rest, hrest⟩ := read_loop_buff msg (show i + 1 + length ≤ 80 by omega)
    have hd : deref msg (.msg_buff i) = some (msg ⟨i, hi⟩) := dif_pos hi
    rw [read_loop, hd, Option.bind_eq_bind, Option.bind_some]
    split
    · exact ⟨[], rfl⟩
    · exact ⟨_, by rw [Ptr.next, hrest]; rfl⟩

/-- A GET at the start of `msg_buff` or of `answer` is defined; it leaves the
pointer null if there is something to read, and as it was otherwise. -/
theorem device_read_aimed (msg : Msg) {p : Ptr} (hp : p = .msg_buff 0 ∨ p = .answer 0) :
    ∃ bytes, device_read msg p 4 =
      some (bytes, if ∃ c, deref msg p = some c ∧ c ≠ 0 then Ptr.null else p) := by
  rcases hp with rfl | rfl
  · have hd : deref msg (.msg_buff 0) = some (msg 0) := rfl
    rw [device_read, hd, Option.bind_eq_bind, Option.bind_some]
    by_cases h0 : msg 0 = 0
    · rw [if_pos h0, if_neg (by simp [h0])]
      exact ⟨[], rfl⟩
    · obtain ⟨bytes, hb⟩ := read_loop_buff msg (show 0 + 4 ≤ 80 by decide)
      rw [if_neg h0, if_pos ⟨msg 0, rfl, h0⟩, hb]
      exact ⟨bytes, rfl⟩
  · rw [if_pos ⟨72, rfl, by decide⟩]
    exact ⟨[72, 105, 33], rfl⟩

/-! ### All sequences of calls -/

/-- The module after calls that begin with an open. -/
structure After (ops : List Op) (d : Device) : Prop where
  msg : d.msg = written ops
  aimed : aim ops = .msg_buff 0 ∨ aim ops = .answer 0
  spent : Spent ops → d.msg_ptr = .null
  fresh : ¬ Spent ops → d.msg_ptr = aim ops

theorem after_open : After [.my_open] (my_open loaded) := by
  have hno : ¬ Spent [.my_open] := by
    rw [← List.nil_append [Op.my_open], spent_concat]
    exact fun h => h.1 trivial
  exact ⟨rfl, .inl rfl, fun h => absurd h hno, fun _ => rfl⟩

theorem after_aims {ops : List Op} {d : Device} {op : Op} (hop : Aims op)
    (hmsg : d.msg = written (ops ++ [op])) (hptr : d.msg_ptr = aim (ops ++ [op]))
    (haim : aim (ops ++ [op]) = .msg_buff 0 ∨ aim (ops ++ [op]) = .answer 0) : After (ops ++ [op]) d :=
  ⟨hmsg, haim, fun hs => absurd hop (spent_concat.mp hs).1, fun _ => hptr⟩

theorem After.keeps {ops : List Op} {d d' : Device} {op : Op} (h : After ops d) (hop : ¬ Aims op)
    (hget : op ≠ get) (hmsg : d'.msg = written (ops ++ [op])) (hptr : d'.msg_ptr = d.msg_ptr)
    (haim : aim (ops ++ [op]) = aim ops) : After (ops ++ [op]) d' := by
  have hspent : Spent (ops ++ [op]) ↔ Spent ops := by simp [spent_concat, hop, hget]
  refine ⟨hmsg, haim ▸ h.aimed, fun hs => ?_, fun hs => ?_⟩
  · rw [hptr, h.spent (hspent.mp hs)]
  · rw [hptr, haim, h.fresh (mt hspent.mpr hs)]

/-- **A GET** after calls that have not spent the pointer. -/
theorem After.reads {ops : List Op} {d : Device} (h : After ops d) (hs : ¬ Spent ops) :
    ∃ d', deviceStep d get = some d' ∧ After (ops ++ [get]) d' := by
  have hptr := h.fresh hs
  have hread : Spent (ops ++ [get]) ↔ Readable ops := by
    rw [spent_concat]
    exact ⟨fun hx => (hx.2.resolve_left hs).2, fun hx => ⟨fun ha => ha, .inr ⟨rfl, hx⟩⟩⟩
  obtain ⟨bytes, hb⟩ := device_read_aimed d.msg h.aimed
  refine ⟨{ d with msg_ptr := _ }, by rw [deviceStep, my_ioctl, hptr, hb]; rfl, ?_⟩
  refine ⟨by rw [written_concat, h.msg], by rw [aim_concat]; exact h.aimed, fun hsp => ?_, fun hsp => ?_⟩
  · have : ∃ c, deref d.msg (aim ops) = some c ∧ c ≠ 0 := by
      rw [h.msg]
      exact hread.mp hsp
    exact if_pos this
  · have : ¬ ∃ c, deref d.msg (aim ops) = some c ∧ c ≠ 0 := by
      rw [h.msg]
      exact fun hr => hsp (hread.mpr hr)
    rw [aim_concat]
    exact if_neg this

theorem After.reads_spent {ops : List Op} {d : Device} (h : After ops d) (hs : Spent ops) :
    deviceStep d get = none := by
  rw [deviceStep, my_ioctl, h.spent hs]
  rfl

/-- **One call**: it is undefined exactly if it is a GET and the pointer is
spent. -/
theorem After.step {ops : List Op} {d : Device} (h : After ops d) (op : Op)
    (hop : ¬ (op = get ∧ Spent ops)) :
    ∃ d', deviceStep d op = some d' ∧ After (ops ++ [op]) d' := by
  rcases op with _ | ⟨off, user, len⟩ | ⟨temp⟩ | _
  · exact ⟨_, rfl, after_aims trivial (by rw [written_concat]; exact h.msg) (by rw [aim_concat]; rfl)
      (by rw [aim_concat]; exact .inl rfl)⟩
  · exact ⟨_, rfl, h.keeps (fun ha => ha) (by simp) (by rw [written_concat, ← h.msg]) rfl (by rw [aim_concat])⟩
  · by_cases hg : greets temp = true
    · have haim : aim (ops ++ [.my_ioctl (.set_msg temp)]) = .answer 0 := by
        rw [aim_concat]
        exact if_pos hg
      exact ⟨_, by rw [deviceStep, my_ioctl, if_pos hg],
        after_aims hg (by rw [written_concat]; exact h.msg) haim.symm (.inr haim)⟩
    · have haim : aim (ops ++ [.my_ioctl (.set_msg temp)]) = aim ops := by
        rw [aim_concat]
        exact if_neg hg
      exact ⟨d, by rw [deviceStep, my_ioctl, if_neg hg],
        h.keeps hg (by simp) (by rw [written_concat]; exact h.msg) rfl haim⟩
  · exact h.reads fun hs => hop ⟨rfl, hs⟩

/-- **Calls that begin with an open** run as their history says, and stop at
the first GET that is not rearmed. -/
theorem runs_of_rearmed (ops : List Op) :
    (Rearmed (.my_open :: ops) → ∃ d, device.run loaded (.my_open :: ops) = some d ∧ After (.my_open :: ops) d) ∧
    (¬ Rearmed (.my_open :: ops) → device.run loaded (.my_open :: ops) = none) := by
  induction ops using List.reverseRecOn with
  | nil =>
    refine ⟨fun _ => ⟨_, rfl, after_open⟩, fun h => absurd (fun p q r heq => ?_) h⟩
    have := congrArg List.length heq
    simp at this
    omega
  | append_singleton ops op ih =>
    rw [← List.cons_append, rearmed_concat, System.run_concat]
    by_cases hr : Rearmed (.my_open :: ops)
    · obtain ⟨d, hd, hafter⟩ := ih.1 hr
      rw [hd]
      constructor
      · intro h
        exact hafter.step op h.2
      · intro h
        obtain ⟨rfl, hs⟩ := not_not.mp fun hn => h ⟨hr, hn⟩
        exact hafter.reads_spent hs
    · rw [ih.2 hr]
      exact ⟨fun h => absurd h.1 hr, fun _ => rfl⟩

/-- **No dereference goes wrong exactly if an open or a greeting comes between a
GET that has something to read and the next GET.** -/
theorem defined_iff_rearmed (ops : List Op) :
    (device.run loaded (.my_open :: ops)).isSome ↔ Rearmed (.my_open :: ops) := by
  obtain ⟨hyes, hno⟩ := runs_of_rearmed ops
  constructor
  · intro h
    by_contra hr
    rw [hno hr] at h
    exact absurd h (by decide)
  · intro h
    obtain ⟨d, hd, -⟩ := hyes h
    rw [hd]
    rfl

/-- The answer is read twice. -/
theorem answer_read_twice :
    ¬ ∀ ops : List Op, (device.run loaded (.my_open :: ops)).isSome := by
  intro h
  exact absurd (h [.my_ioctl (.set_msg hello), get, get]) (by decide)

end RWModule
end Autumn
