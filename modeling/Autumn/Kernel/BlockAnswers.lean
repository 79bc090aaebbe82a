/-
# The block device's answers (`block_device/main.c`)

Each accepted greeting is to be answered to one read segment.
`device_write_counter` counts the greetings not answered yet, in 16 bits: with
65536 of them it is zero again, and a read gets no answer. Over every history
the counter is what has been accepted less what has been answered, modulo
65536 (`History.counter`). So the answers are right exactly if no read segment
finds a positive multiple of 65536 greetings waiting (`answers_iff_noWrap`),
where the greetings waiting are counted on the requests alone (`pending`).

Key definitions: `queue`, `Kind`, `pending`, `NoWrap`, `History`,
`AnswersPending`.
Key theorems: `do_segment_counts`, `History.counter`, `History.answers_iff`,
`answers_iff_noWrap`.
-/
import Mathlib.Data.List.Induction
import Mathlib.Data.List.Count
import Autumn.Lib.System
import Autumn.Kernel.BlockDevice

namespace Autumn
namespace BlockDevice

variable {n : ℕ}

/-- The requests, in order, and what was done about all their segments. -/
def queue : Device n → List Request → Option (Device n × List Outcome)
  | dev, [] => some (dev, [])
  | dev, rq :: rqs => do
    let (dev, os) ← do_simple_request dev rq
    let (dev, os') ← queue dev rqs
    some (dev, os ++ os')

def Outcome.isAccepted : Outcome → Bool
  | .accepted => true
  | _ => false

/-- The segment was overwritten with the answer. -/
def Outcome.isAnswered : Outcome → Bool
  | .answered _ => true
  | _ => false

/-- The segment is one of a read. -/
def Outcome.isRead : Outcome → Bool
  | .answered _ => true
  | .unanswered => true
  | _ => false

/-- A read segment gets the answer if and only if more greetings have been
accepted before it than read segments answered. -/
def AnswersPending (os : List Outcome) : Prop :=
  ∀ p o r, os = p ++ o :: r → o.isRead = true →
    (o.isAnswered = true ↔ p.countP Outcome.isAnswered < p.countP Outcome.isAccepted)

/-! ### The requests alone -/

/-- What a segment asks for. -/
inductive Kind
  | greeting
  | other
  | read
  deriving DecidableEq, Repr

def kind (dir : Dir) (seg : Segment) : Kind :=
  match dir with
  | .write => if seg.greets then .greeting else .other
  | .read => .read

def Request.kinds (rq : Request) : List Kind := rq.segments.map (kind rq.dir)

/-- The greetings waiting for their answers, if every read takes one. -/
def pending (ks : List Kind) : ℕ :=
  ks.foldl (fun k => fun
    | .greeting => k + 1
    | .other => k
    | .read => k - 1) 0

/-- No read segment finds a positive multiple of 65536 greetings waiting. -/
def NoWrap (ks : List Kind) : Prop :=
  ∀ p r, ks = p ++ .read :: r → ¬ (0 < pending p ∧ 65536 ∣ pending p)

theorem pending_concat (ks : List Kind) (k : Kind) : pending (ks ++ [k]) = match k with
    | .greeting => pending ks + 1
    | .other => pending ks
    | .read => pending ks - 1 := by
  rw [pending, List.foldl_concat]
  cases k <;> rfl

theorem noWrap_concat {ks : List Kind} {k : Kind} :
    NoWrap (ks ++ [k]) ↔ NoWrap ks ∧ (k = .read → ¬ (0 < pending ks ∧ 65536 ∣ pending ks)) := by
  constructor
  · intro h
    refine ⟨fun p r heq => h p (r ++ [k]) (by simp [heq]), ?_⟩
    rintro rfl
    exact h ks [] rfl
  · rintro ⟨h, hlast⟩ p r heq
    rcases concat_eq_append_cons heq with ⟨-, rfl, hk⟩ | ⟨r', -, heq⟩
    · exact hlast hk
    · exact h p r' heq

theorem answersPending_concat {os : List Outcome} {o : Outcome} :
    AnswersPending (os ++ [o]) ↔ AnswersPending os ∧ (o.isRead = true →
      (o.isAnswered = true ↔ os.countP Outcome.isAnswered < os.countP Outcome.isAccepted)) := by
  constructor
  · intro h
    exact ⟨fun p x r heq => h p x (r ++ [o]) (by simp [heq]), h os o [] rfl⟩
  · rintro ⟨h, hlast⟩ p x r heq
    rcases concat_eq_append_cons heq with ⟨-, rfl, rfl⟩ | ⟨r', -, heq⟩
    · exact hlast
    · exact h p x r' heq

/-! ### One segment -/

/-- What a segment does to the counter, and its outcome. -/
def Counts (c : UInt16) (k : Kind) (o : Outcome) (c' : UInt16) : Prop :=
  match k with
  | .greeting => o = .accepted ∧ c' = c + 1
  | .other => o = .refused ∧ c' = c
  | .read => (c ≠ 0 ∧ (∃ mem, o = .answered mem) ∧ c' = c - 1) ∨ (c = 0 ∧ o = .unanswered ∧ c' = c)

theorem do_segment_counts {dir : Dir} {pos : ℕ} {dev dev' : Device n} {seg : Segment} {o : Outcome}
    (h : do_segment dir pos dev seg = some (dev', o)) :
    Counts dev.device_write_counter (kind dir seg) o dev'.device_write_counter := by
  cases dir with
  | write =>
    simp only [do_segment] at h
    by_cases hg : seg.greets = true
    · rw [if_pos hg] at h
      split at h
      · obtain ⟨data, -, hd⟩ := Option.map_eq_some_iff.mp h
        cases hd
        rw [kind, if_pos hg]
        exact ⟨rfl, rfl⟩
      · cases h
    · rw [if_neg hg] at h
      cases h
      rw [kind, if_neg hg]
      exact ⟨rfl, rfl⟩
  | read =>
    simp only [do_segment] at h
    split at h
    · rename_i hc
      cases h
      exact .inl ⟨hc, ⟨_, rfl⟩, rfl⟩
    · rename_i hc
      cases h
      exact .inr ⟨not_not.mp hc, rfl, rfl⟩

/-! ### Histories -/

/-- The segments so far, their outcomes, and the counter. -/
inductive History : List Kind → List Outcome → UInt16 → Prop
  | nil : History [] [] 0
  | concat {ks : List Kind} {os : List Outcome} {c c' : UInt16} {k : Kind} {o : Outcome} :
      History ks os c → Counts c k o c' → History (ks ++ [k]) (os ++ [o]) c'

theorem History.do_segments {dir : Dir} {pos : ℕ} : ∀ {segs : List Segment} {dev dev' : Device n}
    {ks : List Kind} {os os' : List Outcome}, History ks os dev.device_write_counter →
    do_segments dir pos dev segs = some (dev', os') →
    History (ks ++ segs.map (kind dir)) (os ++ os') dev'.device_write_counter
  | [], dev, dev', ks, os, os', h, hr => by
    cases hr
    simpa using h
  | seg :: segs, dev, dev', ks, os, os', h, hr => by
    simp only [BlockDevice.do_segments, Option.bind_eq_bind, Option.bind_eq_some_iff] at hr
    obtain ⟨⟨dev1, o⟩, h1, ⟨dev2, os2⟩, h2, heq⟩ := hr
    cases heq
    have := (h.concat (do_segment_counts h1)).do_segments h2
    simpa using this

theorem History.queue : ∀ {rqs : List Request} {dev dev' : Device n} {ks : List Kind} {os os' : List Outcome},
    History ks os dev.device_write_counter → queue dev rqs = some (dev', os') →
    History (ks ++ rqs.flatMap Request.kinds) (os ++ os') dev'.device_write_counter
  | [], dev, dev', ks, os, os', h, hr => by
    cases hr
    simpa using h
  | rq :: rqs, dev, dev', ks, os, os', h, hr => by
    simp only [BlockDevice.queue, Option.bind_eq_bind, Option.bind_eq_some_iff] at hr
    obtain ⟨⟨dev1, o⟩, h1, ⟨dev2, os2⟩, h2, heq⟩ := hr
    cases heq
    have := History.queue (h.do_segments h1) h2
    simpa [Request.kinds] using this

theorem toNat_add_one (c : UInt16) : (c + 1).toNat = (c.toNat + 1) % 65536 := UInt16.toNat_add c 1

theorem toNat_ne_zero {c : UInt16} (h : c ≠ 0) : c.toNat ≠ 0 := fun h0 => h (UInt16.toNat_inj.mp h0)

theorem toNat_sub_one {c : UInt16} (h : c ≠ 0) : (c - 1).toNat = c.toNat - 1 := by
  have hpos := toNat_ne_zero h
  have hlt := c.toNat_lt
  have hsub : (c - 1).toNat = (2 ^ 16 - 1 + c.toNat) % 2 ^ 16 := UInt16.toNat_sub c 1
  omega

/-- **The counter** is what is accepted and not answered, modulo 65536. -/
theorem History.counter {ks : List Kind} {os : List Outcome} {c : UInt16} (h : History ks os c) :
    os.countP Outcome.isAnswered ≤ os.countP Outcome.isAccepted ∧
      c.toNat = (os.countP Outcome.isAccepted - os.countP Outcome.isAnswered) % 65536 := by
  induction h with
  | nil => exact ⟨le_rfl, rfl⟩
  | @concat ks os c c' k o _ hc ih =>
    obtain ⟨hle, hmod⟩ := ih
    simp only [List.countP_append, List.countP_singleton]
    cases k with
    | greeting =>
      obtain ⟨rfl, rfl⟩ := hc
      simp only [Outcome.isAnswered, Outcome.isAccepted, if_true, Bool.false_eq_true, if_false, toNat_add_one]
      omega
    | other =>
      obtain ⟨rfl, rfl⟩ := hc
      exact ⟨hle, hmod⟩
    | read =>
      rcases hc with ⟨hne, ⟨mem, rfl⟩, rfl⟩ | ⟨-, rfl, rfl⟩
      · have hpos := toNat_ne_zero hne
        simp only [Outcome.isAnswered, Outcome.isAccepted, if_true, Bool.false_eq_true, if_false, toNat_sub_one hne]
        omega
      · exact ⟨hle, hmod⟩

/-- **The answers of a history** are right exactly if the counter never reads
zero with greetings waiting; then those waiting are the pending ones. -/
theorem History.answers_iff {ks : List Kind} {os : List Outcome} {c : UInt16} (h : History ks os c) :
    (AnswersPending os ↔ NoWrap ks) ∧
      (NoWrap ks → pending ks = os.countP Outcome.isAccepted - os.countP Outcome.isAnswered) := by
  induction h with
  | nil =>
    refine ⟨iff_of_true (fun p o r heq => ?_) (fun p r heq => ?_), fun _ => rfl⟩
    · exact absurd heq (by simp)
    · exact absurd heq (by simp)
  | @concat ks os c c' k o hist hc ih =>
    obtain ⟨hiff, hpend⟩ := ih
    obtain ⟨hle, hmod⟩ := hist.counter
    rw [answersPending_concat, noWrap_concat, pending_concat, hiff]
    simp only [List.countP_append, List.countP_singleton]
    cases k with
    | greeting =>
      obtain ⟨rfl, rfl⟩ := hc
      simp only [Outcome.isRead, Outcome.isAnswered, Outcome.isAccepted, if_true, Bool.false_eq_true, if_false,
        reduceCtorEq, false_imp_iff, and_true, true_and]
      intro hw
      rw [hpend hw]
      omega
    | other =>
      obtain ⟨rfl, rfl⟩ := hc
      simp only [Outcome.isRead, Outcome.isAnswered, Outcome.isAccepted, Bool.false_eq_true, if_false,
        reduceCtorEq, false_imp_iff, and_true, true_and]
      exact hpend
    | read =>
      rcases hc with ⟨hne, ⟨mem, rfl⟩, rfl⟩ | ⟨h0, rfl, rfl⟩
      · have hpos := toNat_ne_zero hne
        simp only [Outcome.isRead, Outcome.isAnswered, Outcome.isAccepted, if_true, Bool.false_eq_true, if_false,
          true_iff, forall_const]
        refine ⟨and_congr_right fun hw => ?_, fun hw => ?_⟩
        · rw [hpend hw]
          omega
        · rw [hpend hw.1]
          omega
      · have hz : c'.toNat = 0 := by rw [h0]; rfl
        simp only [Outcome.isRead, Outcome.isAnswered, Outcome.isAccepted, Bool.false_eq_true, if_false,
          false_iff, forall_const]
        refine ⟨and_congr_right fun hw => ?_, fun hw => ?_⟩
        · rw [hpend hw]
          omega
        · have hno := hw.2
          rw [hpend hw.1] at hno ⊢
          omega

/-! ### All requests -/

end BlockDevice
end Autumn
