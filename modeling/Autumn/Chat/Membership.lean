/-
# Who is in the chat

`name_list` should hold the names of the clients that have joined and not
left, each with a newline, whenever the server is at the top of its loop and
no name and no departure is under way. Names and departures travel through two
queues, and a departure is matched by its name against the whole list.

`Safe` says when the server's step does no harm: a name is received over one
that is not longer, a departure finds its name in the list exactly once, and
what is built fits its array. On runs of such steps the names in the list and
those still to be received are, with multiplicity, those of the clients
present and of the departures still to be taken (`Inv`).

Key definitions: `present`, `Listed`, `Safe`, `Inv`.
Key theorems: `inv_get_name`, `inv_take_departure`, `inv_step`,
`listed_while_safe`.
-/
import Mathlib.Data.List.Perm.Basic
import Mathlib.Data.List.Perm.Lattice
import Autumn.Chat.System

namespace Autumn
namespace Chat

/-- A non-empty name without newline, of at most 18 bytes. -/
structure ValidName (w : List UInt8) : Prop where
  ne_nil : w ≠ []
  length_le : w.length ≤ 18
  no_newline : newline ∉ w
  no_nul : (0 : UInt8) ∉ w

/-- The clients that have joined and not left. -/
def present (s : State) : List ℕ := s.joins.filter fun k => (s.clients k).phase = .joined

/-- The server runs on, and when nothing is under way at the top of its loop,
`name_list` is the lines of the names of those present. -/
structure Listed (names : ℕ → List UInt8) (s : State) : Prop where
  running : s.pc ≠ .undefined
  listed : s.pc = .top → s.name_queue = [] → s.delete_queue = [] →
    s.name_list.Term ∧ ∃ L, L.Perm ((present s).map names) ∧ s.name_list.str = lines newline L

/-- The queues of names and of departures have room for what is sent. -/
def Room (s : State) : Action → Prop
  | .send_name _ => s.name_queue.length < maxmsg
  | .send_departure _ => s.delete_queue.length < maxmsg
  | _ => True

instance (s : State) (a : Action) : Decidable (Room s a) := by
  cases a <;> unfold Room <;> infer_instance

/-- What must hold of the queues and arrays before the server's step. -/
def ServerSafe (s : State) : Prop :=
  match s.pc with
  | .get_name buf =>
    match s.name_queue with
    | [] => True
    | m :: _ => buf.str.length ≤ m.length ∧ s.name_list.str.length + m.length + 1 < 4096
  | .get_message buf =>
    match s.message_queue with
    | [] => True
    | m :: _ => Fits buf 350 s.chat m
  | .delete_name =>
    match s.delete_queue with
    | [] => True
    | m :: _ => (pieces (· == newline) s.name_list.str).count m = 1
  | _ => True

instance (s : State) : Decidable (ServerSafe s) := by
  unfold ServerSafe
  split
  · split <;> infer_instance
  · split <;> infer_instance
  · split <;> infer_instance
  · infer_instance

/-- The step sends to a queue with room, or the server's step is safe. -/
def Safe (s : State) (a : Action) : Prop := Room s a ∧ (a = .server → ServerSafe s)

instance (s : State) (a : Action) : Decidable (Safe s a) := inferInstanceAs (Decidable (_ ∧ _))

theorem mq_send_of_room {msgsize : ℕ} {q : Queue} {m : List UInt8} (hq : q.length < maxmsg)
    (hm : m.length ≤ msgsize) : mq_send msgsize q m = q ++ [m] :=
  if_pos ⟨hq, hm⟩

/-! ### The invariant -/

structure Inv (names : ℕ → List UInt8) (s : State) : Prop where
  running : s.pc ≠ .undefined
  term : s.name_list.Term
  chat : s.chat.Term
  /-- In the list or to be received are those present and those whose departure
  is to be taken. -/
  list : ∃ L, s.name_list.str = lines newline L ∧ (∀ w ∈ L, ValidName w) ∧
    (L ++ s.name_queue).Perm ((present s).map names ++ s.delete_queue)
  name_queue : ∀ w ∈ s.name_queue, ValidName w
  delete_queue : ∀ w ∈ s.delete_queue, ValidName w
  buf : ∀ buf, s.pc = .get_name buf → buf.Clean
  joins : ∀ k, k ∈ s.joins ↔ (s.clients k).phase ≠ .out
  nodup : s.joins.Nodup

variable {names : ℕ → List UInt8}

theorem Inv.listed {s : State} (hI : Inv names s) : Listed names s := by
  refine ⟨hI.running, fun _ hn hd => ⟨hI.term, ?_⟩⟩
  obtain ⟨L, hs, -, hp⟩ := hI.list
  rw [hn, hd, List.append_nil, List.append_nil] at hp
  exact ⟨L, hp, hs⟩

theorem inv_init {s : State} (h : (chat names []).init s) : Inv names s := by
  obtain ⟨hpc, ht, hs, hc, hn, -, -, -, hd, hj, hk⟩ := h
  refine ⟨by simp [hpc], ht, hc, ⟨[], hs, by simp, by simp [present, hj, hn, hd]⟩, by simp [hn], by simp [hd],
    fun buf hb => by simp [hpc] at hb, fun k => by simp [hj, hk], by simp [hj]⟩

theorem Inv.quiet {s s' : State} (hI : Inv names s) (hl : s'.name_list = s.name_list)
    (hn : s'.name_queue = s.name_queue) (hd : s'.delete_queue = s.delete_queue) (hj : s'.joins = s.joins)
    (hk : ∀ k, (s'.clients k).phase = (s.clients k).phase) (hc : s'.chat.Term) (hpc : s'.pc ≠ .undefined)
    (hb : ∀ buf, s'.pc = .get_name buf → buf.Clean) : Inv names s' := by
  have hp : present s' = present s := by simp only [present, hj, hk]
  refine ⟨hpc, hl ▸ hI.term, hc, ?_, hn ▸ hI.name_queue, hd ▸ hI.delete_queue, hb, fun k => ?_, hj ▸ hI.nodup⟩
  · rw [hl, hn, hd, hp]
    exact hI.list
  · rw [hj, hk]
    exact hI.joins k

/-- **A name received** over one that is not longer becomes a line. -/
theorem inv_get_name {s : State} (hI : Inv names s) {buf : Buf UInt8 20} (hpc : s.pc = .get_name buf)
    (hsafe : ServerSafe s) : Inv names (get_name s buf) := by
  have hclean := hI.buf buf hpc
  unfold get_name
  rcases hq : s.name_queue with _ | ⟨m, q⟩
  · exact hI.quiet rfl hq.symm rfl rfl (fun _ => rfl) hI.chat (by simp) (by simp)
  · simp only [ServerSafe, hpc, hq] at hsafe
    have hm := hI.name_queue m (by rw [hq]; exact List.mem_cons_self)
    have hlen := hm.length_le
    have hrec := received_eq hclean hm.no_nul hsafe.1
    have hfits : Fits buf 20 s.name_list m := by
      refine ⟨by omega, ?_, ?_, ?_⟩
      · rw [hrec]; omega
      · rw [hrec]; omega
      · rw [hrec]; exact hsafe.2
    obtain ⟨b, l, t, heq⟩ := append_line_spec s.name hI.term hfits
    obtain ⟨-, hb, hts, htt⟩ := append_line_eq_some heq
    simp only [heq]
    obtain ⟨L, hs, hL, hp⟩ := hI.list
    refine ⟨by simp, htt, hI.chat, ⟨L ++ [m], ?_, fun w hw => ?_, ?_⟩, fun w hw => ?_, hI.delete_queue,
      fun c hc => ?_, hI.joins, hI.nodup⟩
    · rw [hts, hrec, hs, lines_concat]
    · rcases List.mem_append.mp hw with hw | hw
      · exact hL w hw
      · rw [List.mem_singleton.mp hw]
        exact hm
    · rw [hq] at hp
      rw [List.append_assoc]
      exact hp
    · exact hI.name_queue w (by rw [hq]; exact List.mem_cons_of_mem m hw)
    · cases hc
      exact (hclean.store hm.no_nul hsafe.1 hb).2

theorem inv_get_message {s : State} (hI : Inv names s) {buf : Buf UInt8 350} (hpc : s.pc = .get_message buf)
    (hsafe : ServerSafe s) : Inv names (get_message s buf) := by
  unfold get_message
  rcases hq : s.message_queue with _ | ⟨m, q⟩
  · exact hI.quiet rfl rfl rfl rfl (fun _ => rfl) hI.chat (by simp) (by simp)
  · simp only [ServerSafe, hpc, hq] at hsafe
    obtain ⟨b, l, t, heq⟩ := append_line_spec s.message hI.chat hsafe
    obtain ⟨-, -, -, htt⟩ := append_line_eq_some heq
    simp only [heq]
    exact hI.quiet rfl rfl rfl rfl (fun _ => rfl) htt (by simp) (by simp)

/-- One occurrence is what the filter removes. -/
theorem perm_cons_filter {L : List (List UInt8)} {m : List UInt8} (h : L.count m = 1) :
    L.Perm (m :: L.filter fun w => w ≠ m) := by
  have hone : L.filter (fun w => w = m) = [m] := by rw [List.filter_eq, h, List.replicate_one]
  have hp := List.filter_append_perm (fun w => decide (w = m)) L
  rw [hone] at hp
  simpa using hp.symm

/-- **A departure** that finds its name once takes that line away. -/
theorem inv_take_departure {s : State} (hI : Inv names s) (hpc : s.pc = .delete_name) (hsafe : ServerSafe s) :
    Inv names (take_departure s) := by
  obtain ⟨L, hs, hL, hp⟩ := hI.list
  have hL' : ∀ w ∈ L, w ≠ [] ∧ newline ∉ w ∧ (0 : UInt8) ∉ w := fun w hw =>
    ⟨(hL w hw).ne_nil, (hL w hw).no_newline, (hL w hw).no_nul⟩
  have hd : (0 : UInt8) ∉ s.delete_queue.head?.getD [] ∧ (s.delete_queue.head?.getD []).length < 20 := by
    rcases hq : s.delete_queue with _ | ⟨m, q⟩
    · simp
    · have hm := hI.delete_queue m (by rw [hq]; exact List.mem_cons_self)
      have := hm.length_le
      exact ⟨hm.no_nul, show m.length < 20 by omega⟩
  obtain ⟨b, hb, hbs, hbt⟩ := delete_name_spec hI.term hs hL' hd.1 hd.2
  rw [take_departure, hb]
  refine ⟨by simp, hbt, hI.chat, ⟨_, hbs, fun w hw => hL w (List.mem_filter.mp hw).1, ?_⟩, hI.name_queue,
    fun w hw => hI.delete_queue w (List.mem_of_mem_tail hw), by simp, hI.joins, hI.nodup⟩
  rcases hq : s.delete_queue with _ | ⟨m, q⟩
  · rw [hq] at hp
    have hall : L.filter (fun w => w ≠ []) = L :=
      List.filter_eq_self.mpr fun w hw => by simpa using (hL w hw).ne_nil
    show (L.filter (fun w => w ≠ []) ++ s.name_queue).Perm ((present s).map names ++ [])
    rw [hall]
    exact hp
  · simp only [ServerSafe, hpc, hq, hs, pieces_lines fun w hw => ⟨(hL' w hw).1, (hL' w hw).2.1⟩] at hsafe
    rw [hq] at hp
    have h1 : (m :: (L.filter (fun w => w ≠ m) ++ s.name_queue)).Perm (L ++ s.name_queue) :=
      (perm_cons_filter hsafe).symm.append_right s.name_queue
    exact (h1.trans (hp.trans List.perm_middle)).cons_inv

theorem inv_server {s : State} (hI : Inv names s) (hsafe : ServerSafe s) : Inv names (server s) := by
  unfold server
  split
  · refine hI.quiet rfl rfl rfl rfl (fun _ => rfl) hI.chat (by simp) fun buf hb => ?_
    cases hb
    exact Buf.clean_zeros
  · rename_i buf hpc
    exact inv_get_name hI hpc hsafe
  · unfold send_name_list
    split
    · exact hI.quiet rfl rfl rfl rfl (fun _ => rfl) hI.chat (by simp) (by simp)
    · exact hI.quiet rfl rfl rfl rfl (fun _ => rfl) hI.chat (by simp) (by simp)
  · rename_i buf hpc
    exact inv_get_message hI hpc hsafe
  · unfold send_chat
    split
    · exact hI.quiet rfl rfl rfl rfl (fun _ => rfl) hI.chat (by simp) (by simp)
    · exact hI.quiet rfl rfl rfl rfl (fun _ => rfl) hI.chat (by simp) (by simp)
  · rename_i hpc
    exact inv_take_departure hI hpc hsafe
  · exact hI

theorem setClient_phase {s : State} {k : ℕ} {c : Client} (h : c.phase = (s.clients k).phase) (j : ℕ) :
    ((s.setClient k c).clients j).phase = (s.clients j).phase := by
  by_cases hj : j = k
  · rw [hj, setClient_self, h]
  · rw [setClient_ne s c hj]

theorem inv_send_name (hn : ∀ k, ValidName (names k)) {s : State} (hI : Inv names s) {k : ℕ}
    (hk : (s.clients k).phase = .out) (hroom : s.name_queue.length < maxmsg) :
    Inv names { s.setClient k { s.clients k with phase := .joined } with
      name_queue := mq_send 20 s.name_queue (names k), joins := s.joins ++ [k] } := by
  have hq : mq_send 20 s.name_queue (names k) = s.name_queue ++ [names k] :=
    mq_send_of_room hroom (by have := (hn k).length_le; omega)
  have hnew : k ∉ s.joins := fun h => (hI.joins k).mp h hk
  have hne : ∀ j, j ≠ k → (s.setClient k { s.clients k with phase := .joined }).clients j = s.clients j :=
    fun j hj => setClient_ne s _ hj
  have hself : ((s.setClient k { s.clients k with phase := .joined }).clients k).phase = .joined := by
    rw [setClient_self]
  rw [hq]
  obtain ⟨L, hs, hL, hp⟩ := hI.list
  refine ⟨hI.running, hI.term, hI.chat, ⟨L, hs, hL, ?_⟩, fun w hw => ?_, hI.delete_queue, hI.buf, fun j => ?_, ?_⟩
  · have hpres : present { s.setClient k { s.clients k with phase := .joined } with
        name_queue := s.name_queue ++ [names k], joins := s.joins ++ [k] } = present s ++ [k] := by
      have hold : s.joins.filter (fun j =>
          ((s.setClient k { s.clients k with phase := .joined }).clients j).phase = .joined) = present s :=
        List.filter_congr fun j hj => by rw [hne j fun h => hnew (h ▸ hj)]
      simp only [present, List.filter_append, hold]
      simp
    rw [hpres, ← List.append_assoc, List.map_append, List.map_singleton, List.append_assoc (List.map _ _)]
    refine (hp.append_right [names k]).trans ?_
    rw [List.append_assoc]
    exact List.perm_append_comm.append_left _
  · rcases List.mem_append.mp hw with hw | hw
    · exact hI.name_queue w hw
    · rw [List.mem_singleton.mp hw]
      exact hn k
  · by_cases hj : j = k
    · subst hj
      exact iff_of_true (List.mem_append_right _ List.mem_cons_self) (by rw [hself]; simp)
    · show j ∈ s.joins ++ [k] ↔ ((s.setClient k { s.clients k with phase := .joined }).clients j).phase ≠ .out
      rw [hne j hj, ← hI.joins j, List.mem_append, List.mem_singleton]
      tauto
  · exact List.nodup_append.mpr ⟨hI.nodup, List.nodup_singleton k, fun a ha b hb => by
      rw [List.mem_singleton.mp hb]
      rintro rfl
      exact hnew ha⟩

theorem inv_send_departure (hn : ∀ k, ValidName (names k)) {s : State} (hI : Inv names s) {k : ℕ}
    (hk : (s.clients k).phase = .joined) (hroom : s.delete_queue.length < maxmsg) :
    Inv names { s.setClient k { s.clients k with phase := .left } with
      delete_queue := mq_send 20 s.delete_queue (names k) } := by
  have hq : mq_send 20 s.delete_queue (names k) = s.delete_queue ++ [names k] :=
    mq_send_of_room hroom (by have := (hn k).length_le; omega)
  have hne : ∀ j, j ≠ k → (s.setClient k { s.clients k with phase := .left }).clients j = s.clients j :=
    fun j hj => setClient_ne s _ hj
  have hself : ((s.setClient k { s.clients k with phase := .left }).clients k).phase = .left := by
    rw [setClient_self]
  have hmem : k ∈ present s :=
    List.mem_filter.mpr ⟨(hI.joins k).mpr (by rw [hk]; simp), by simpa using hk⟩
  rw [hq]
  obtain ⟨L, hs, hL, hp⟩ := hI.list
  refine ⟨hI.running, hI.term, hI.chat, ⟨L, hs, hL, ?_⟩, hI.name_queue, fun w hw => ?_, hI.buf, fun j => ?_,
    hI.nodup⟩
  · have hpres : present { s.setClient k { s.clients k with phase := .left } with
        delete_queue := s.delete_queue ++ [names k] } = (present s).erase k := by
      have hnd : (present s).Nodup := hI.nodup.filter _
      rw [hnd.erase_eq_filter, present, present, List.filter_filter]
      refine List.filter_congr fun j _ => ?_
      by_cases hj : j = k
      · subst hj
        simp
      · simp [hne j hj, hj]
    rw [hpres]
    have hcons : ((present s).map names).Perm (names k :: ((present s).erase k).map names) :=
      (List.perm_cons_erase hmem).map names
    refine hp.trans ((hcons.append_right _).trans ?_)
    rw [← List.append_assoc]
    exact (List.perm_append_singleton _ _).symm
  · rcases List.mem_append.mp hw with hw | hw
    · exact hI.delete_queue w hw
    · rw [List.mem_singleton.mp hw]
      exact hn k
  · by_cases hj : j = k
    · subst hj
      exact iff_of_true ((hI.joins j).mpr (by rw [hk]; simp)) (by rw [hself]; simp)
    · show j ∈ s.joins ↔ ((s.setClient k { s.clients k with phase := .left }).clients j).phase ≠ .out
      rw [hne j hj]
      exact hI.joins j

theorem inv_client (hn : ∀ k, ValidName (names k)) {s s' : State} {a : Action} (hI : Inv names s)
    (hroom : Room s a) (h : client names s a = some s') : Inv names s' := by
  cases a with
  | server => cases h
  | send_name k =>
    simp only [client, Option.ite_none_right_eq_some] at h
    obtain ⟨hk, h⟩ := h
    cases h
    exact inv_send_name hn hI hk hroom
  | send_message k text =>
    simp only [client, Option.ite_none_right_eq_some] at h
    obtain ⟨-, h⟩ := h
    obtain ⟨m, -, rfl⟩ := Option.map_eq_some_iff.mp h
    exact hI.quiet rfl rfl rfl rfl (fun _ => rfl) hI.chat hI.running hI.buf
  | send_departure k =>
    simp only [client, Option.ite_none_right_eq_some] at h
    obtain ⟨hk, h⟩ := h
    cases h
    exact inv_send_departure hn hI hk hroom
  | get_name_list k =>
    simp only [client, Option.ite_none_right_eq_some] at h
    obtain ⟨-, h⟩ := h
    split at h
    · cases h
      exact hI.quiet rfl rfl rfl rfl (setClient_phase rfl) hI.chat hI.running hI.buf
    · obtain ⟨list, -, rfl⟩ := Option.map_eq_some_iff.mp h
      exact hI.quiet rfl rfl rfl rfl (setClient_phase rfl) hI.chat hI.running hI.buf
  | get_chat k =>
    simp only [client, Option.ite_none_right_eq_some] at h
    obtain ⟨-, h⟩ := h
    split at h
    · cases h
    · obtain ⟨c, -, rfl⟩ := Option.map_eq_some_iff.mp h
      exact hI.quiet rfl rfl rfl rfl (setClient_phase rfl) hI.chat hI.running hI.buf

/-- **The step lemma.** -/
theorem inv_step (hn : ∀ k, ValidName (names k)) {s s' : State} {a : Action} (hI : Inv names s)
    (hsafe : Safe s a) (h : (chat names []).step s a = some s') : Inv names s' := by
  have h : step names s a = some s' := h
  unfold step at h
  split at h
  · cases h
  · split at h
    · cases h
      exact inv_server hI (hsafe.2 rfl)
    · exact inv_client hn hI hsafe.1 h

/-- **The list is right while the steps are safe**: in every state reached,
whenever nothing is under way at the top of the server's loop, `name_list` is
the lines of the names of those present. -/
theorem listed_while_safe (names : ℕ → List UInt8) (hn : ∀ k, ValidName (names k)) (s : State)
    (h : (chat names []).Reach Safe s) : Listed names s :=
  (h.invariant (I := Inv names) (fun _ => inv_init) fun _ _ _ hI hok => inv_step hn hI hok).listed

/-! ### A name that stays -/

/-- Everybody's name is `a`. -/
def allA : ℕ → List UInt8 := fun _ => [97]

theorem allA_valid (k : ℕ) : ValidName (allA k) := by
  show ValidName [97]
  constructor <;> decide

/-- A client joins and leaves after the server has drained the names and before
it takes a departure; then the server goes round. -/
def betweenPolls : List Action :=
  List.replicate 5 .server ++ [.send_name 0, .send_departure 0] ++ List.replicate 9 .server

/-- The name of a client that has left stays in the list. -/
theorem departed_stays : ¬ ∀ (names : ℕ → List UInt8) (s : State), (∀ k, ValidName (names k)) →
    (chat names []).Reach Room s → Listed names s := by
  intro h
  have hm : (chat allA []).Meets Room start betweenPolls := by decide +kernel
  have hr : ∃ s, (chat allA []).run start betweenPolls = some s ∧ s.pc = .top ∧ s.name_queue = [] ∧
      s.delete_queue = [] ∧ present s = [] ∧ s.name_list.str = [97, newline] := ⟨_, rfl, rfl, rfl, rfl, rfl, rfl⟩
  obtain ⟨s, hs, hpc, hq, hd, hp, hl⟩ := hr
  obtain ⟨-, L, hL, hstr⟩ := (h allA s allA_valid (.of_run (init_start _) hm hs)).listed hpc hq hd
  rw [hp, List.map_nil] at hL
  rw [hL.eq_nil, hl] at hstr
  cases hstr

/-- A client joins, the server goes round, the client leaves and the server goes
round again. -/
def joinAndLeave : List Action :=
  [.send_name 0] ++ List.replicate 8 .server ++ [.send_departure 0] ++ List.replicate 7 .server

theorem joinAndLeave_meets : (chat allA []).Meets Safe start joinAndLeave := by decide +kernel

theorem listed_while_safe_joinAndLeave : ∃ s, (chat allA []).run start joinAndLeave = some s ∧ s.pc = .top ∧
    s.joins = [0] ∧ Listed allA s := by
  have hr : ∃ s, (chat allA []).run start joinAndLeave = some s ∧ s.pc = .top ∧ s.joins = [0] :=
    ⟨_, rfl, rfl, rfl⟩
  obtain ⟨s, hs, hpc, hj⟩ := hr
  exact ⟨s, hs, hpc, hj, listed_while_safe allA allA_valid s (.of_run (init_start _) joinAndLeave_meets hs)⟩

end Chat
end Autumn
