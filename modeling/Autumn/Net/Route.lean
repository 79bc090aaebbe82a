/-
# A whole trace (`traceroute/traceroute.c`)

On the way to the target there are routers. The one at which a probe's TTL runs out
answers Time Exceeded; a probe that gets past all of them is answered by the target,
whose port is closed. Nothing else comes to the sockets, and an answer comes once,
any time after its probe, or never.

Then the lines are, in order, those of the routers and of the target, and after the
target's the program exits (`trace_complete`). It always can come to that, unless
there are 255 routers or more: the TTL has 8 bits, and behind 255 comes 0, with which
no probe gets past the first router. Such a trace never ends.

Key definitions: `Route`, `Route.answer`, `Route.network`, `Route.line`, `Route.trace`.
Key theorems: `receive_reply`, `Along.step`, `trace_complete`.
-/
import Autumn.Net.Arrival

namespace Autumn
namespace Traceroute

/-- The routers on the way, and the machine at its end. -/
structure Route where
  routers : List Addr
  target : Addr
  deriving DecidableEq, Repr

namespace Route

variable (r : Route)

/-- The ICMP type of the answer to a probe with this TTL, and whose it is. A router
does not pass on what has the TTL 1, or 0. -/
def answer (ttl : ℕ) : UInt8 × Addr :=
  match r.routers[ttl - 1]? with
  | some a => (11, a)
  | none => (3, r.target)

/-- The packet is this answer. -/
def Reply (ttl : ℕ) (p : Packet) : Prop :=
  p.bytes.getD 9 0 = 1 ∧ p.bytes.getD 20 0 = (r.answer ttl).1 ∧ p.sender = (r.answer ttl).2

instance (ttl : ℕ) (p : Packet) : Decidable (r.Reply ttl p) := inferInstanceAs (Decidable (_ ∧ _))

/-- What arrives is the answer to a probe that has been sent, and has not arrived
before. -/
def Ok (s : State) : Action → Prop
  | .arrive p => (∀ q ∈ s.delivered, q.quotes ≠ p.quotes) ∧
      ∃ k ∈ p.quotes, ∃ d ∈ s.probe k, r.Reply (d.getD 8 0).toNat p
  | _ => True

instance (s : State) : (a : Action) → Decidable (r.Ok s a)
  | .arrive _ => inferInstanceAs (Decidable (_ ∧ _))
  | .probe | .recv => inferInstanceAs (Decidable True)

/-- The program, called with the target, on its network. -/
def network : System State Action where
  init s := s = start
  step s a := if r.Ok s a then Traceroute.step (inet_ntop r.target) r.target s a else none

/-- The line for probe `k`. -/
def line (k : ℕ) : Line :=
  match r.routers[k % 256 - 1]? with
  | some a => .hop (k % 0x10000) (inet_ntop a)
  | none => .unreachable (k % 0x10000) (inet_ntop r.target)

/-- All lines: the routers, and the target. -/
def trace : List Line :=
  r.routers.mapIdx (fun i a => .hop (i + 1) (inet_ntop a)) ++ [.unreachable (r.routers.length + 1) (inet_ntop r.target)]

/-- Probe `k` gets to the target. -/
def Arrives (k : ℕ) : Prop := r.routers.length ≤ k % 256 - 1

instance (k : ℕ) : Decidable (r.Arrives k) := inferInstanceAs (Decidable (_ ≤ _))

/-- An answer to probe `k`. -/
def reply (k : ℕ) : Packet where
  bytes := [0x45, 0, 0, 56, 0, 0, 0, 0, 64, 1, 0, 0] ++ (r.answer (k % 256)).2.toList ++ [192, 168, 1, 7] ++
    [(r.answer (k % 256)).1, 0, 0, 0, 0, 0, 0, 0]
  quotes := some k

variable {r}

/-! ### One answer -/

theorem reply_spec (k : ℕ) : r.Reply (k % 256) (r.reply k) := by
  generalize ha : r.answer (k % 256) = a
  rw [Reply, Packet.sender, reply, ha, toList_addr]
  refine ⟨rfl, rfl, ?_⟩
  rw [← Vector.toList_inj, toList_addr, toList_addr]
  rfl

/-- **With the answer to probe `k`** the program prints the line of `k`, and exits if
the probe got to the target. -/
theorem receive_reply {k : ℕ} {ttl : UInt16} {p : Packet} (hk : ttl.toNat = k % 0x10000) (h : r.Reply (k % 256) p) :
    receive (inet_ntop r.target) ttl p.bytes = (r.line k, if r.Arrives k then .exited else .probe) := by
  obtain ⟨h9, h20, hsender⟩ := h
  have hsaddr : saddr p.bytes = (r.answer (k % 256)).2 := hsender
  simp only [receive, getD_buf p.bytes (show 9 < 50 by decide), getD_buf p.bytes (show 20 < 50 by decide), saddr_buf,
    h9, h20, hsaddr, hk, if_true]
  unfold answer line Arrives
  cases hr : r.routers[k % 256 - 1]? with
  | none =>
    have hlen : r.routers.length ≤ k % 256 - 1 := List.getElem?_eq_none_iff.mp hr
    simp [hlen]
  | some a =>
    have hlen : k % 256 - 1 < r.routers.length := (List.getElem?_eq_some_iff.mp hr).1
    simp [Nat.not_le.mpr hlen]

/-! ### Where the program is -/

theorem probe_le {s : State} {k : ℕ} {d : List UInt8} (h : s.probe k = some d) : 1 ≤ k ∧ k ≤ s.sent.length := by
  cases k with
  | zero => cases h
  | succ k => exact ⟨Nat.succ_pos k, (List.getElem?_eq_some_iff.mp h).1⟩

/-- The probes are counted in 16 bits, their TTLs in 8. -/
structure Counted (s : State) : Prop where
  count : s.time_to_live.toNat = s.sent.length % 0x10000
  ttl : ∀ k d, s.probe k = some d → (d.getD 8 0).toNat = k % 256

/-- The answers to the first `n` probes have arrived. -/
def Heard (s : State) (n : ℕ) : Prop := ∀ k, (∃ p ∈ s.delivered, p.quotes = some k) ↔ 1 ≤ k ∧ k ≤ n

variable (r) in
/-- The first `n` probes do not get to the target. -/
def Passed (n : ℕ) : Prop := ∀ k, 1 ≤ k → k ≤ n → ¬ r.Arrives k

variable (r) in
/-- The program has printed `n` lines. -/
inductive Place (s : State) (n : ℕ) : Prop
  | next : s.pc = .probe → s.sent.length = n → s.queue = [] → Heard s n → r.Passed n → Place s n
  | waits : s.pc = .recv → s.sent.length = n + 1 → s.queue = [] → Heard s n → r.Passed n → Place s n
  | has (p : Packet) : s.pc = .recv → s.sent.length = n + 1 → s.queue = [p] → r.Reply ((n + 1) % 256) p →
      Heard s (n + 1) → r.Passed n → Place s n
  | done (m : ℕ) : n = m + 1 → s.pc = .exited → s.sent.length = n → Heard s n → r.Passed m → r.Arrives n → Place s n

variable (r) in
/-- The trace so far. -/
structure Along (s : State) (n : ℕ) : Prop where
  counted : Counted s
  out : s.out = (List.range n).map fun i => r.line (i + 1)
  place : Place r s n

/-! ### A step -/

theorem Counted.probe {s : State} (h : Counted s) (d_addr : Addr) :
    Counted { s with
      pc := .recv
      time_to_live := s.time_to_live + 1
      queue := []
      sent := s.sent ++ [datagram (s.time_to_live + 1) d_addr] } where
  count := by
    rw [List.length_append, List.length_singleton]
    exact toNat_succ h.count
  ttl k d hd := by
    cases k with
    | zero => cases hd
    | succ k =>
      change (s.sent ++ [datagram (s.time_to_live + 1) d_addr])[k]? = some d at hd
      by_cases hk : k < s.sent.length
      · rw [List.getElem?_append_left hk] at hd
        exact h.ttl (k + 1) d hd
      · obtain rfl : k = s.sent.length := by
          have := (List.getElem?_eq_some_iff.mp hd).1
          rw [List.length_append, List.length_singleton] at this
          omega
        rw [List.getElem?_concat_length] at hd
        rw [← Option.some.inj hd]
        exact ttl_datagram d_addr (toNat_succ h.count)

theorem Heard.arrive {s : State} {n : ℕ} (h : Heard s n) {p : Packet} (hp : p.quotes = some (n + 1)) :
    Heard { s with queue := s.queue ++ [p], delivered := s.delivered ++ [p] } (n + 1) := by
  intro k
  have hk : (∃ q ∈ s.delivered ++ [p], q.quotes = some k) ↔ (∃ q ∈ s.delivered, q.quotes = some k) ∨ n + 1 = k := by
    simp [or_and_right, exists_or, hp]
  rw [hk, h k]
  omega

/-- What arrives answers the one probe that has no answer yet. -/
theorem Place.arrives {s : State} {n : ℕ} (h : Place r s n) (hc : Counted s) {p : Packet} (hok : r.Ok s (.arrive p)) :
    s.pc = .recv ∧ s.sent.length = n + 1 ∧ s.queue = [] ∧ Heard s n ∧ r.Passed n ∧ p.quotes = some (n + 1) ∧
      r.Reply ((n + 1) % 256) p := by
  obtain ⟨hnew, k, hk, d, hd, hreply⟩ := hok
  obtain ⟨hk1, hkn⟩ := probe_le hd
  have hnone : ∀ {m}, Heard s m → ¬ (1 ≤ k ∧ k ≤ m) := fun hh hle => by
    obtain ⟨q, hq, hqk⟩ := (hh k).mpr hle
    exact hnew q hq (hqk.trans hk.symm)
  cases h with
  | next _ hn _ hh _ => exact absurd ⟨hk1, hn ▸ hkn⟩ (hnone hh)
  | has _ _ hn _ _ hh _ => exact absurd ⟨hk1, hn ▸ hkn⟩ (hnone hh)
  | done m _ _ hn hh _ _ => exact absurd ⟨hk1, hn ▸ hkn⟩ (hnone hh)
  | waits hpc hn hq hh hpass =>
    obtain rfl : k = n + 1 := by
      have := hnone hh
      omega
    rw [hc.ttl _ d hd] at hreply
    exact ⟨hpc, hn, hq, hh, hpass, hk, hreply⟩

theorem Passed.succ {n : ℕ} (h : r.Passed n) (hn : ¬ r.Arrives (n + 1)) : r.Passed (n + 1) := by
  intro k h1 hk
  rcases Nat.le_succ_iff.mp hk with hk | rfl
  · exact h k h1 hk
  · exact hn

/-- **The step lemma**: a line more, or none. -/
theorem Along.step {s t : State} {n : ℕ} {a : Action} (h : r.Along s n) (hst : r.network.step s a = some t) :
    r.Along t n ∨ r.Along t (n + 1) := by
  obtain ⟨hok, hst⟩ : r.Ok s a ∧ Traceroute.step (inet_ntop r.target) r.target s a = some t := by
    change (if r.Ok s a then _ else none) = some t at hst
    split at hst
    · exact ⟨‹_›, hst⟩
    · cases hst
  cases a with
  | probe =>
    simp only [Traceroute.step] at hst
    split at hst
    · rename_i hpc
      cases hst
      cases h.place with
      | next _ hn hq hh hpass =>
        refine .inl ⟨h.counted.probe r.target, h.out, .waits rfl ?_ rfl hh hpass⟩
        rw [List.length_append, List.length_singleton, hn]
      | waits hp => cases hpc.symm.trans hp
      | has _ hp => cases hpc.symm.trans hp
      | done _ _ hp => cases hpc.symm.trans hp
    · cases hst
  | recv =>
    simp only [Traceroute.step] at hst
    split at hst
    · rename_i hpc
      cases h.place with
      | next hp => cases hpc.symm.trans hp
      | done _ _ hp => cases hpc.symm.trans hp
      | waits _ _ hq => rw [hq] at hst; cases hst
      | has p _ hn hq hreply hh hpass =>
        have hrecv := receive_reply (hn ▸ h.counted.count) hreply
        rw [hq] at hst
        simp only [hrecv] at hst
        cases hst
        refine .inr ⟨⟨h.counted.count, h.counted.ttl⟩, ?_, ?_⟩
        · rw [List.range_succ, List.map_append, ← h.out]
          rfl
        · by_cases harr : r.Arrives (n + 1)
          · exact .done n rfl (if_pos harr) hn hh hpass harr
          · exact .next (if_neg harr) hn rfl hh (hpass.succ harr)
    · cases hst
  | arrive p =>
    obtain ⟨hpc, hn, hq, hh, hpass, hk, hreply⟩ := h.place.arrives h.counted hok
    simp only [Traceroute.step] at hst
    split at hst
    · cases hst
      refine .inl ⟨⟨h.counted.count, h.counted.ttl⟩, h.out, .has p hpc hn ?_ hreply (hh.arrive hk) hpass⟩
      rw [hq, List.nil_append]
    · cases hst

theorem reachable_along {s : State} (h : r.network.Reachable s) : ∃ n, r.Along s n := by
  refine h.invariant (I := fun s => ∃ n, r.Along s n) ?_ ?_
  · rintro _ rfl
    refine ⟨0, ⟨rfl, fun k d hd => ?_⟩, rfl, .next rfl rfl rfl (fun k => ?_) fun k h1 h0 => ?_⟩
    · cases k with
      | zero => cases hd
      | succ k => cases hd
    · simp [start]
      omega
    · omega
  · rintro s a t ⟨n, hn⟩ - hst
    rcases hn.step hst with h | h
    · exact ⟨n, h⟩
    · exact ⟨n + 1, h⟩

/-! ### The end of the trace -/

theorem Arrives.lt {n : ℕ} (h : r.Arrives n) : r.routers.length < 255 := by
  unfold Arrives at h
  omega

theorem Passed.le {n : ℕ} (h : r.Passed n) (hlt : r.routers.length < 255) : n ≤ r.routers.length := by
  by_contra hn
  apply h (r.routers.length + 1) (Nat.succ_pos _) (by omega)
  unfold Arrives
  omega

theorem Along.exited {s : State} {n : ℕ} (h : r.Along s n) (hpc : s.pc = .exited) :
    n = r.routers.length + 1 ∧ r.routers.length < 255 := by
  cases h.place with
  | next hp => cases hpc.symm.trans hp
  | waits hp => cases hpc.symm.trans hp
  | has _ hp => cases hpc.symm.trans hp
  | done m hm _ _ _ hpass harr =>
    have hlt := harr.lt
    have hle := hpass.le hlt
    refine ⟨?_, hlt⟩
    unfold Arrives at harr
    omega

theorem lines_eq_trace (h : r.routers.length < 255) :
    ((List.range (r.routers.length + 1)).map fun i => r.line (i + 1)) = r.trace := by
  have hlast : r.line (r.routers.length + 1) = .unreachable (r.routers.length + 1) (inet_ntop r.target) := by
    rw [line, Nat.mod_eq_of_lt (by omega), Nat.mod_eq_of_lt (by omega), Nat.add_sub_cancel, List.getElem?_eq_none le_rfl]
  rw [List.range_succ, List.map_append, List.map_singleton, hlast, trace]
  congr 1
  apply List.ext_getElem
  · rw [List.length_map, List.length_range, List.length_mapIdx]
  · intro i h1 h2
    rw [List.length_mapIdx] at h2
    rw [List.getElem_map, List.getElem_range, List.getElem_mapIdx, line, Nat.mod_eq_of_lt (by omega),
      Nat.mod_eq_of_lt (by omega), Nat.add_sub_cancel, List.getElem?_eq_getElem h2]

/-- How far it is to the end. -/
def togo (r : Route) (s : State) : ℕ :=
  3 * (r.routers.length + 1 - s.sent.length) + if s.pc = .recv then 2 - s.queue.length else 0

/-- On a route that ends, the next thing can happen, and the end is nearer. -/
theorem Along.exists_next {s : State} {n : ℕ} (h : r.Along s n) (hlt : r.routers.length < 255) (hpc : s.pc ≠ .exited) :
    ∃ a t, r.network.step s a = some t ∧ r.togo t < r.togo s := by
  cases h.place with
  | done _ _ hp => exact absurd hp hpc
  | next hp hn hq hh hpass =>
    have hstep : r.network.step s .probe = some { s with
        pc := .recv
        time_to_live := s.time_to_live + 1
        queue := []
        sent := s.sent ++ [datagram (s.time_to_live + 1) r.target] } := if_pos hp
    refine ⟨.probe, _, hstep, ?_⟩
    have hle := hpass.le hlt
    simp only [togo, hp, hn, List.length_append, List.length_singleton, List.length_nil, if_true, reduceCtorEq, if_false]
    omega
  | waits hp hn hq hh hpass =>
    have hd : s.probe (n + 1) = some (s.sent[n]) := List.getElem?_eq_getElem _
    have hok : r.Ok s (.arrive (r.reply (n + 1))) := by
      refine ⟨fun q hq' hqk => ?_, n + 1, rfl, s.sent[n], hd, ?_⟩
      · have := (hh (n + 1)).mp ⟨q, hq', hqk⟩
        omega
      · rw [h.counted.ttl _ _ hd]
        exact reply_spec (n + 1)
    have hstep : r.network.step s (.arrive (r.reply (n + 1))) = some { s with
        queue := s.queue ++ [r.reply (n + 1)]
        delivered := s.delivered ++ [r.reply (n + 1)] } := by
      refine (if_pos hok).trans (if_pos ?_)
      simp [reply, hn]
    refine ⟨_, _, hstep, ?_⟩
    simp only [togo, hp, hq, List.nil_append, List.length_singleton, List.length_nil, if_true]
    omega
  | has p hp hn hq hreply hh hpass =>
    have hstep : r.network.step s .recv = some { s with
        pc := (receive (inet_ntop r.target) s.time_to_live p.bytes).2
        queue := []
        out := s.out ++ [(receive (inet_ntop r.target) s.time_to_live p.bytes).1] } := by
      refine (if_pos hp).trans ?_
      rw [hq]
    have hrecv := receive_reply (hn ▸ h.counted.count) hreply
    refine ⟨.recv, _, hstep, ?_⟩
    have hne : (if r.Arrives (n + 1) then Pc.exited else Pc.probe) ≠ Pc.recv := by split <;> decide
    simp only [togo, hp, hq, hrecv, List.length_singleton, if_true, if_neg hne]
    omega

/-- **The whole trace.** However the answers come in, the lines are those of the
first probes, in order; if the program exits, they are the routers and the target;
and it can come to that exactly if there are fewer than 255 routers. -/
theorem trace_complete (r : Route) (s : State) (h : r.network.Reachable s) :
    s.out = (List.range s.out.length).map (fun i => r.line (i + 1)) ∧ (s.pc = .exited → s.out = r.trace) ∧
    ((∃ as t, r.network.run s as = some t ∧ t.pc = .exited) ↔ r.routers.length < 255) := by
  obtain ⟨n, hn⟩ := reachable_along h
  refine ⟨?_, fun hpc => ?_, ?_, fun hlt => ?_⟩
  · have hlen : s.out.length = n := by rw [hn.out, List.length_map, List.length_range]
    rw [hlen]
    exact hn.out
  · obtain ⟨rfl, hlt⟩ := hn.exited hpc
    rw [hn.out, lines_eq_trace hlt]
  · rintro ⟨as, t, hr, hpc⟩
    obtain ⟨m, hm⟩ := reachable_along (System.Reach.run h (System.meets_true s as) hr)
    exact (hm.exited hpc).2
  · obtain ⟨as, t, hr, -, hpc⟩ := System.exists_run_done (M := r.network) (I := r.network.Reachable)
      (D := fun t => t.pc = .exited) r.togo (fun u hu hd => by
        obtain ⟨m, hm⟩ := reachable_along hu
        obtain ⟨a, t, hst, hlt'⟩ := hm.exists_next hlt hd
        exact ⟨a, t, hst, .step hu trivial hst, hlt'⟩) s h
    exact ⟨as, t, hr, hpc⟩

/-- Two routers. -/
def twoRouters : Route := ⟨[#v[10, 0, 0, 254], #v[172, 16, 0, 1]], Traceroute.target⟩

theorem trace_complete_twoRouters : ∃ s, twoRouters.network.run start
    [.probe, .arrive (twoRouters.reply 1), .recv, .probe] = some s ∧ s.out = [.hop 1 (inet_ntop #v[10, 0, 0, 254])] ∧
    ∃ as t, twoRouters.network.run s as = some t ∧ t.out = twoRouters.trace := by
  have hrun : ∃ s, twoRouters.network.run start [.probe, .arrive (twoRouters.reply 1), .recv, .probe] = some s ∧
      s.out = [.hop 1 (inet_ntop #v[10, 0, 0, 254])] := ⟨_, rfl, rfl⟩
  obtain ⟨s, hs, hout⟩ := hrun
  have hreach : twoRouters.network.Reachable s := .of_run rfl hs
  obtain ⟨as, t, hr, hpc⟩ := (trace_complete twoRouters s hreach).2.2.mpr (by decide)
  have ht : twoRouters.network.Reachable t := System.Reach.run hreach (System.meets_true s as) hr
  exact ⟨s, hs, hout, as, t, hr, (trace_complete twoRouters t ht).2.1 hpc⟩

end Route
end Traceroute
end Autumn
