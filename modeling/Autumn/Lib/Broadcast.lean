/-
# Copies of a growing log through a lossy queue

A producer appends to a log and publishes copies of the whole log to a bounded
first-in first-out queue; a copy that finds the queue full is lost. Readers
take copies off the queue, each copy going to one reader, and a reader keeps
the last copy it took.

The copies in the queue are in the order of the prefix relation, all of them
prefixes of the log, and what a reader holds is a prefix of every copy still
queued, because it was queued before them. So a reader only ever goes forward
(`Ordered.take_extends`), whatever is lost and whoever takes the others.

Key definitions: `Broadcast`, `broadcast`, `Broadcast.Ordered`.
Key theorems: `Ordered.step`, `reachable_ordered`, `Ordered.take_extends`.
-/
import Mathlib.Data.List.Infix
import Mathlib.Logic.Function.Basic
import Autumn.Lib.System

namespace Autumn

/-- The log, the copies under way, and the copy each reader holds. -/
structure Broadcast (ι α : Type*) where
  log : List α
  queue : List (List α)
  seen : ι → List α

namespace Broadcast

variable {ι α : Type*} [DecidableEq ι]

inductive Action (ι α : Type*)
  | append (w : List α)
  | publish
  | take (i : ι)

def step (cap : ℕ) (s : Broadcast ι α) : Action ι α → Option (Broadcast ι α)
  | .append w => some { s with log := s.log ++ w }
  | .publish => some (if s.queue.length < cap then { s with queue := s.queue ++ [s.log] } else s)
  | .take i =>
    match s.queue with
    | [] => none
    | m :: q => some { s with queue := q, seen := Function.update s.seen i m }

/-- All runs with a queue of `cap` copies, from any log. -/
def broadcast (cap : ℕ) : System (Broadcast ι α) (Action ι α) where
  init s := s.queue = [] ∧ ∀ i, s.seen i = []
  step := step cap

/-- Everything is in the order of the prefix relation: what the readers hold,
the queue from its head on, the log. -/
structure Ordered (s : Broadcast ι α) : Prop where
  queue : s.queue.Pairwise (· <+: ·)
  queue_log : ∀ m ∈ s.queue, m <+: s.log
  seen_queue : ∀ i, ∀ m ∈ s.queue, s.seen i <+: m
  seen_log : ∀ i, s.seen i <+: s.log

omit [DecidableEq ι] in
theorem Ordered.start {s : Broadcast ι α} (hq : s.queue = []) (hs : ∀ i, s.seen i = []) : Ordered s where
  queue := by rw [hq]; exact .nil
  queue_log m hm := by rw [hq] at hm; cases hm
  seen_queue i m hm := by rw [hq] at hm; cases hm
  seen_log i := by rw [hs]; exact List.nil_prefix

theorem Ordered.step {cap : ℕ} {s s' : Broadcast ι α} {a : Action ι α} (h : Ordered s)
    (hst : step cap s a = some s') : Ordered s' := by
  cases a with
  | append w =>
    cases hst
    exact ⟨h.queue, fun m hm => (h.queue_log m hm).trans (List.prefix_append _ _), h.seen_queue,
      fun i => (h.seen_log i).trans (List.prefix_append _ _)⟩
  | publish =>
    cases hst
    split
    · refine ⟨List.pairwise_append.mpr ⟨h.queue, List.pairwise_singleton _ _, fun m hm m' hm' => ?_⟩,
        fun m hm => ?_, fun i m hm => ?_, h.seen_log⟩
      · rw [List.mem_singleton.mp hm']
        exact h.queue_log m hm
      · rcases List.mem_append.mp hm with hm | hm
        · exact h.queue_log m hm
        · rw [List.mem_singleton.mp hm]
      · rcases List.mem_append.mp hm with hm | hm
        · exact h.seen_queue i m hm
        · rw [List.mem_singleton.mp hm]
          exact h.seen_log i
    · exact h
  | take i =>
    simp only [Broadcast.step] at hst
    split at hst
    · cases hst
    · rename_i m q hq
      cases hst
      have hpair := h.queue
      rw [hq, List.pairwise_cons] at hpair
      have hmem : ∀ m' ∈ q, m' ∈ s.queue := fun m' hm' => by rw [hq]; exact List.mem_cons_of_mem m hm'
      have hhead : m ∈ s.queue := by rw [hq]; exact List.mem_cons_self
      exact ⟨hpair.2, fun m' hm' => h.queue_log m' (hmem m' hm'),
        fun j m' hm' => (Function.forall_update_iff s.seen fun _ c => c <+: m').mpr
          ⟨hpair.1 m' hm', fun j _ => h.seen_queue j m' (hmem m' hm')⟩ j,
        (Function.forall_update_iff s.seen fun _ c => c <+: s.log).mpr
          ⟨h.queue_log m hhead, fun j _ => h.seen_log j⟩⟩

theorem reachable_ordered {cap : ℕ} {s : Broadcast ι α}
    (h : (broadcast cap).Reachable s) : Ordered s :=
  System.Reach.invariant (M := broadcast cap) (I := Ordered) (fun _ h0 => .start h0.1 h0.2)
    (fun _ _ _ hI _ hst => hI.step hst) h

omit [DecidableEq ι] in
/-- **A reader goes forward**: the copy it takes extends the one it held. -/
theorem Ordered.take_extends {s : Broadcast ι α} (h : Ordered s) {m : List α} {q : List (List α)}
    (hq : s.queue = m :: q) (i : ι) : s.seen i <+: m ∧ m <+: s.log :=
  have hm : m ∈ s.queue := by rw [hq]; exact List.mem_cons_self
  ⟨h.seen_queue i m hm, h.queue_log m hm⟩

end Broadcast
end Autumn
