/-
# What a client sees of the chat

A client receives the chat into one array, which it never clears, and the
messages come without a NUL. The chat is a broadcast of a growing log: `view`
is the abstract state, and every step of the chat is a run of the broadcast
(`simulates`). There a reader only goes forward, so a message is at least as
long as what the client held; the array had only zeros behind its string, and
what it holds then is the message and nothing else.

Key definitions: `view`, `Turn`, `Shown`.
Key theorems: `step_turn`, `simulates`, `get_chat_exact`.
-/
import Autumn.Lib.Broadcast
import Autumn.Chat.System

namespace Autumn
namespace Chat

open Broadcast (broadcast reachable_ordered)

/-- The chat as a broadcast: the text, the copies in the queue, and what each
client shows. -/
def view (s : State) : Broadcast ℕ UInt8 := ⟨s.chat.str, s.chat_queue, fun k => (s.clients k).chat.str⟩

/-- What a step does to the chat. -/
inductive Turn (s s' : State) : Prop
  | quiet : s'.chat = s.chat → s'.chat_queue = s.chat_queue →
      (∀ k, (s'.clients k).chat = (s.clients k).chat) → Turn s s'
  | append (w : List UInt8) : s'.chat.str = s.chat.str ++ w → s'.chat.Term →
      s'.chat_queue = s.chat_queue → s'.clients = s.clients → Turn s s'
  | publish : s'.chat = s.chat → s'.chat_queue = mq_send 8192 s.chat_queue s.chat.str →
      s'.clients = s.clients → Turn s s'
  | take (k : ℕ) (m : List UInt8) (c : Buf UInt8 8192) : s.chat_queue = m :: s'.chat_queue →
      (s.clients k).chat.store 0 m = some c → s'.chat = s.chat →
      s'.clients = Function.update s.clients k { s.clients k with chat := c } → Turn s s'

theorem server_turn (s : State) : Turn s (server s) := by
  unfold server
  split
  · exact .quiet rfl rfl fun _ => rfl
  · unfold get_name
    split
    · exact .quiet rfl rfl fun _ => rfl
    · split
      · exact .quiet rfl rfl fun _ => rfl
      · exact .quiet rfl rfl fun _ => rfl
  · unfold send_name_list
    split
    · exact .quiet rfl rfl fun _ => rfl
    · exact .quiet rfl rfl fun _ => rfl
  · unfold get_message
    split
    · exact .quiet rfl rfl fun _ => rfl
    · split
      · rename_i m q hq b l t heq
        obtain ⟨-, -, hs, ht⟩ := append_line_eq_some heq
        exact .append _ (by rw [hs, List.append_assoc]) ht rfl rfl
      · exact .quiet rfl rfl fun _ => rfl
  · unfold send_chat
    split
    · exact .publish rfl rfl rfl
    · exact .quiet rfl rfl fun _ => rfl
  · unfold take_departure
    split
    · exact .quiet rfl rfl fun _ => rfl
    · exact .quiet rfl rfl fun _ => rfl
  · exact .quiet rfl rfl fun _ => rfl

theorem setClient_chat {s : State} {k : ℕ} {c : Client} (h : c.chat = (s.clients k).chat) (j : ℕ) :
    ((s.setClient k c).clients j).chat = (s.clients j).chat := by
  by_cases hj : j = k
  · rw [hj, setClient_self, h]
  · rw [setClient_ne s c hj]

theorem client_turn {names : ℕ → List UInt8} {s s' : State} {a : Action} (h : client names s a = some s') :
    Turn s s' := by
  cases a with
  | server => cases h
  | send_name k =>
    simp only [client, Option.ite_none_right_eq_some] at h
    obtain ⟨-, h⟩ := h
    cases h
    exact .quiet rfl rfl (setClient_chat rfl)
  | send_message k text =>
    simp only [client, Option.ite_none_right_eq_some] at h
    obtain ⟨-, h⟩ := h
    obtain ⟨m, -, rfl⟩ := Option.map_eq_some_iff.mp h
    exact .quiet rfl rfl fun _ => rfl
  | send_departure k =>
    simp only [client, Option.ite_none_right_eq_some] at h
    obtain ⟨-, h⟩ := h
    cases h
    exact .quiet rfl rfl (setClient_chat rfl)
  | get_name_list k =>
    simp only [client, Option.ite_none_right_eq_some] at h
    obtain ⟨-, h⟩ := h
    split at h
    · cases h
      exact .quiet rfl rfl (setClient_chat rfl)
    · obtain ⟨list, -, rfl⟩ := Option.map_eq_some_iff.mp h
      exact .quiet rfl rfl (setClient_chat rfl)
  | get_chat k =>
    simp only [client, Option.ite_none_right_eq_some] at h
    obtain ⟨-, h⟩ := h
    split at h
    · cases h
    · rename_i m q hq
      obtain ⟨c, hc, rfl⟩ := Option.map_eq_some_iff.mp h
      exact .take k m c hq hc rfl rfl

theorem step_turn {names : ℕ → List UInt8} {s s' : State} {a : Action} (h : step names s a = some s') :
    Turn s s' := by
  unfold step at h
  split at h
  · cases h
  · split at h
    · cases h
      exact server_turn s
    · exact client_turn h

/-- The chat is a string, and behind what a client shows there are only
zeros. -/
structure Shown (s : State) : Prop where
  term : s.chat.Term
  clean : ∀ k, (s.clients k).chat.Clean

/-- A message that extends what a client shows is shown exactly. -/
theorem take_exact {s : State} (hS : Shown s) (hO : (view s).Ordered) {k : ℕ} {m : List UInt8} {q : Queue}
    {c : Buf UInt8 8192} (hq : s.chat_queue = m :: q) (hc : (s.clients k).chat.store 0 m = some c) :
    c.str = m ∧ c.Clean ∧ c.Term ∧ (s.clients k).chat.str <+: m ∧ m <+: s.chat.str := by
  obtain ⟨hseen, hlog⟩ := hO.take_extends hq k
  have h0 : (0 : UInt8) ∉ m := fun h => s.chat.str_nz (hlog.subset h)
  obtain ⟨hs, hclean⟩ := (hS.clean k).store h0 hseen.length_le hc
  refine ⟨hs, hclean, zero_mem_of_length_lt ?_, hseen, hlog⟩
  rw [show cstr c.chars = m from hs, c.size]
  exact hlog.length_le.trans_lt hS.term.length_lt

/-- **Every step of the chat is a run of the broadcast.** -/
theorem simulates (names : ℕ → List UInt8) (first : List UInt8) :
    System.Sim (chat names first) (fun _ _ => True) (broadcast maxmsg) fun s u => u = view s ∧ Shown s where
  init s h := by
    obtain ⟨-, -, -, hchat, -, -, -, hq, -, -, hk⟩ := h
    refine ⟨view s, ⟨hq, fun k => ?_⟩, rfl, hchat, fun k => ?_⟩
    · show (s.clients k).chat.str = []
      rw [hk]
      exact Buf.str_zeros
    · rw [hk]
      exact Buf.clean_zeros
  step s u a s' hu hR _ hst := by
    obtain ⟨rfl, hS⟩ := hR
    have hO := reachable_ordered hu
    cases step_turn hst with
    | quiet hc hq hk =>
      refine ⟨[], view s, rfl, ?_, by rw [hc]; exact hS.term, fun k => by rw [hk]; exact hS.clean k⟩
      simp only [view, hc, hq, hk]
    | append w hc ht hq hk =>
      refine ⟨[.append w], view s', ?_, rfl, ht, fun k => by rw [hk]; exact hS.clean k⟩
      rw [System.run_single]
      simp only [broadcast, Broadcast.step, view, hc, hq, hk]
    | publish hc hq hk =>
      refine ⟨[.publish], view s', ?_, rfl, by rw [hc]; exact hS.term, fun k => by rw [hk]; exact hS.clean k⟩
      have hlen : s.chat.str.length ≤ 8192 := hS.term.length_lt.le
      rw [System.run_single]
      simp only [broadcast, Broadcast.step, view, hc, hq, hk, mq_send, hlen, and_true]
      split <;> rfl
    | take k m c hq hc hchat hk =>
      obtain ⟨hs, hclean, -⟩ := take_exact hS hO hq hc
      refine ⟨[.take k], view s', ?_, rfl, by rw [hchat]; exact hS.term, fun j => ?_⟩
      · rw [System.run_single]
        have hseen : (fun j => (s'.clients j).chat.str) =
            Function.update (fun j => (s.clients j).chat.str) k m := by
          funext j
          rw [hk]
          by_cases hj : j = k
          · rw [hj, Function.update_self, Function.update_self, hs]
          · rw [Function.update_of_ne hj, Function.update_of_ne hj]
        simp only [broadcast, Broadcast.step, view, hq, hchat, hseen]
      · rw [hk]
        by_cases hj : j = k
        · rw [hj, Function.update_self]
          exact hclean
        · rw [Function.update_of_ne hj]
          exact hS.clean j

/-- **A client shows exactly the message it took**, and what it showed before
is a prefix of it; and the message is a prefix of the chat. -/
theorem get_chat_exact (names : ℕ → List UInt8) (first : List UInt8) (s s' : State) (k : ℕ)
    (h : (chat names first).Reachable s) (hst : (chat names first).step s (.get_chat k) = some s') :
    ∃ m q, s.chat_queue = m :: q ∧ s'.chat_queue = q ∧ (s'.clients k).chat.Term ∧
      (s'.clients k).chat.str = m ∧ (s.clients k).chat.str <+: m ∧ m <+: s.chat.str := by
  obtain ⟨u, hu, rfl, hS⟩ := (simulates names first).reach h
  have hst : step names s (.get_chat k) = some s' := hst
  unfold step at hst
  split at hst
  · cases hst
  simp only [client, Option.ite_none_right_eq_some] at hst
  obtain ⟨-, hst⟩ := hst
  split at hst
  · cases hst
  rename_i m q hq
  obtain ⟨c, hc, rfl⟩ := Option.map_eq_some_iff.mp hst
  obtain ⟨hs, -, hterm, hseen, hlog⟩ := take_exact hS (reachable_ordered hu) hq hc
  have hnew : ((s.setClient k { s.clients k with chat := c }).clients k).chat = c := by rw [setClient_self]
  refine ⟨m, q, hq, rfl, ?_, ?_, hseen, hlog⟩
  · show ((s.setClient k { s.clients k with chat := c }).clients k).chat.Term
    rw [hnew]
    exact hterm
  · show ((s.setClient k { s.clients k with chat := c }).clients k).chat.str = m
    rw [hnew]
    exact hs

/-- Client 0, of name `a`, joins and says `b`; the server goes round to its
first `mq_send` of the chat, and the client takes it and says `c`; then the
server goes round to its next `mq_send`. -/
def twoMessages : List Action :=
  [.send_name 0, .send_message 0 [98]] ++ List.replicate 8 .server ++ [.get_chat 0, .send_message 0 [99]] ++
    List.replicate 9 .server

theorem get_chat_exact_twoMessages : ∃ s s', (chat (fun _ => [97]) []).run start twoMessages = some s ∧
    (chat (fun _ => [97]) []).step s (.get_chat 0) = some s' ∧ (s.clients 0).chat.str ≠ [] ∧
    ∃ m q, s.chat_queue = m :: q ∧ s'.chat_queue = q ∧ (s'.clients 0).chat.Term ∧
      (s'.clients 0).chat.str = m ∧ (s.clients 0).chat.str <+: m ∧ m <+: s.chat.str := by
  have hr : ∃ s s', (chat (fun _ => [97]) []).run start twoMessages = some s ∧
      (chat (fun _ => [97]) []).step s (.get_chat 0) = some s' ∧
      (s.clients 0).chat.str = [91, 97, 93, 58, 32, 98, 10] := ⟨_, _, rfl, rfl, rfl⟩
  obtain ⟨s, s', hs, hs', hheld⟩ := hr
  exact ⟨s, s', hs, hs', by rw [hheld]; decide, get_chat_exact _ [] s s' 0 (.of_run (init_start _) hs) hs'⟩

end Chat
end Autumn
