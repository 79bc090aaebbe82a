/-
# Traceroute (`traceroute/traceroute.c`)

Every turn of the loop opens a raw ICMP socket, sends the next probe, takes the
first packet the socket has, and prints one line for it: the sender, if byte 20
is the type of a Time Exceeded message, or of an Unreachable message from an
address that starts like the argument; stars for any other packet. The socket
gets whatever ICMP packet arrives, in any order, and nothing ties a packet to
the probe. So a line is right where the packet it is printed for answers the
probe just sent; and the probe's number is its TTL as long as it fits a byte
(`attributed`).

A packet carries, for the record, the number of the probe it quotes. The calls
on sockets succeed.

Key definitions: `datagram`, `receive`, `traceroute`, `Attributed`, `Answered`.
Key theorems: `receive_cases`, `inv_step`, `attributed`.
-/
import Autumn.Lib.System
import Autumn.Lib.CString

namespace Autumn
namespace Traceroute

/-! ### Packets -/

/-- An IPv4 address, in network order. -/
abbrev Addr := Vector UInt8 4

/-- `inet_ntop(AF_INET, ...)`: the bytes in decimal, with dots between. -/
def inet_ntop (a : Addr) : List UInt8 :=
  [46].intercalate (a.toList.map fun b => (Nat.toDigits 10 b.toNat).map fun c => c.toNat.toUInt8)

/-- An IP packet; `quotes` is the probe whose header it quotes, if it is an ICMP
error message about one. -/
structure Packet where
  bytes : List UInt8
  quotes : Option ℕ
  deriving DecidableEq, Repr

/-- The address at `saddr` in a header. -/
def saddr (header : List UInt8) : Addr := Vector.ofFn fun i => header.getD (12 + i.val) 0

/-- Who sent the packet. -/
def Packet.sender (p : Packet) : Addr := saddr p.bytes

/-- The ICMP type, behind a header of the length it gives. -/
def Packet.icmpType (p : Packet) : UInt8 := p.bytes.getD ((p.bytes.getD 0 0).toNat % 16 * 4) 0

/-! ### The program -/

/-- The 33 bytes of a probe. -/
def datagram (time_to_live : UInt16) (d_addr : Addr) : List UInt8 :=
  -- `ttl` has 8 bits
  [0x45, 0, 33, 0, 0, 0, 0, 0, time_to_live.toUInt8, 17, 0, 0, 0, 0, 0, 0] ++ d_addr.toList ++
    [0x1e, 0x61, 0x82, 0x9a, 0, 13, 0, 0] ++ [116, 101, 115, 116, 0]

/-- A printed line. -/
inductive Line
  | hop (k : ℕ) (source : List UInt8)
  | unreachable (k : ℕ) (source : List UInt8)
  | stars (k : ℕ)
  deriving DecidableEq, Repr

/-- Where the program is: at the top of the loop, in `recvfrom`, or done. -/
inductive Pc
  | probe
  | recv
  | exited
  deriving DecidableEq, Repr

/-- What is done with the first packet: the line printed, and what comes next. -/
def receive (argv1 : List UInt8) (time_to_live : UInt16) (packet : List UInt8) : Line × Pc :=
  -- `buf` was cleared before
  let buf := packet.take 50 ++ List.replicate (50 - packet.length) 0
  let source := inet_ntop (saddr buf)
  if buf.getD 9 0 = 1 then
    if buf.getD 20 0 = 11 then (.hop time_to_live.toNat source, .probe)
    -- `strncmp(source, argv[1], strlen(argv[1]))`
    else if buf.getD 20 0 = 3 ∧ source.take argv1.length = argv1 then
      (.unreachable time_to_live.toNat source, .exited)
    else (.stars time_to_live.toNat, .probe)
  else (.stars time_to_live.toNat, .probe)

/-- The program and its last socket; and for the record what it has sent and
everything that has arrived. -/
structure State where
  pc : Pc
  time_to_live : UInt16
  queue : List Packet
  out : List Line
  sent : List (List UInt8)
  delivered : List Packet
  deriving DecidableEq, Repr

/-- The program takes its next step, or a packet arrives at its socket. -/
inductive Action
  | probe
  | recv
  | arrive (p : Packet)
  deriving DecidableEq, Repr

variable (argv1 : List UInt8) (d_addr : Addr)

def step (s : State) : Action → Option State
  | .probe =>
    if s.pc = .probe then
      some { s with
        pc := .recv
        time_to_live := s.time_to_live + 1
        queue := []
        sent := s.sent ++ [datagram (s.time_to_live + 1) d_addr] }
    else none
  | .recv =>
    if s.pc = .recv then
      match s.queue with
      | [] => none
      | p :: queue => some { s with
          pc := (receive argv1 s.time_to_live p.bytes).2
          queue := queue
          out := s.out ++ [(receive argv1 s.time_to_live p.bytes).1] }
    else none
  -- only what has been sent can be quoted
  | .arrive p =>
    if p.quotes.all fun j => decide (1 ≤ j ∧ j ≤ s.sent.length) then
      some { s with queue := s.queue ++ [p], delivered := s.delivered ++ [p] }
    else none

def start : State where
  pc := .probe
  time_to_live := 0
  queue := []
  out := []
  sent := []
  delivered := []

def traceroute : System State Action where
  init s := s = start
  step := step argv1 d_addr

/-- The `k`-th probe. -/
def State.probe (s : State) : ℕ → Option (List UInt8)
  | 0 => none
  | k + 1 => s.sent[k]?

/-- An ICMP message of the type, from that address, has arrived that quotes probe
`k`, which went out with TTL `k`. -/
def Answers (s : State) (type : UInt8) (k : ℕ) (source : List UInt8) : Prop :=
  ∃ p ∈ s.delivered, inet_ntop p.sender = source ∧ p.icmpType = type ∧ p.quotes = some k ∧
    ∃ d, s.probe k = some d ∧ (d.getD 8 0).toNat = k

/-- What is claimed of a line. -/
def Line.Attributed (s : State) : Line → Prop
  | .hop k source => Answers s 11 k source
  | .unreachable k source => Answers s 3 k source
  | .stars _ => True

/-- What is claimed: every line with an address is right. -/
def Attributed (s : State) : Prop := ∀ l ∈ s.out, l.Attributed s

/-- The packet is a message of the type about the probe sent last, and that
probe's number fits the TTL. -/
def Genuine (s : State) (p : Packet) (type : UInt8) : Prop :=
  p.icmpType = type ∧ p.quotes = some s.sent.length ∧ s.sent.length < 256

/-- The packet taken, where the code reads a type 11 or 3 from it, is a message
of that type about the probe sent last. -/
def Answered (s : State) : Action → Prop
  | .recv => ∀ p, s.queue.head? = some p → p.bytes.getD 9 0 = 1 →
      (p.bytes.getD 20 0 = 11 → Genuine s p 11) ∧
      (p.bytes.getD 20 0 = 3 → (inet_ntop p.sender).take argv1.length = argv1 → Genuine s p 3)
  | _ => True

/-! ### One packet -/

theorem getD_buf (packet : List UInt8) {i : ℕ} (h : i < 50) :
    (packet.take 50 ++ List.replicate (50 - packet.length) 0).getD i 0 = packet.getD i 0 := by
  simp only [List.getD_eq_getElem?_getD]
  by_cases hi : i < packet.length
  · rw [List.getElem?_append_left (by rw [List.length_take]; omega), List.getElem?_take_of_lt h]
  · rw [List.getElem?_append_right (by rw [List.length_take]; omega), List.getElem?_replicate,
      List.getElem?_eq_none (l := packet) (by omega)]
    split
    · rfl
    · rfl

theorem saddr_buf (packet : List UInt8) :
    saddr (packet.take 50 ++ List.replicate (50 - packet.length) 0) = saddr packet := by
  unfold saddr
  congr 1
  funext i
  exact getD_buf packet (by omega)

/-- The three lines, and the packets they are printed for. -/
theorem receive_cases (k : UInt16) (p : Packet) :
    ((receive argv1 k p.bytes).1 = .hop k.toNat (inet_ntop p.sender) ∧ p.bytes.getD 9 0 = 1 ∧
      p.bytes.getD 20 0 = 11) ∨
    ((receive argv1 k p.bytes).1 = .unreachable k.toNat (inet_ntop p.sender) ∧ p.bytes.getD 9 0 = 1 ∧
      p.bytes.getD 20 0 = 3 ∧ (inet_ntop p.sender).take argv1.length = argv1) ∨
    (receive argv1 k p.bytes).1 = .stars k.toNat := by
  simp only [receive, getD_buf p.bytes (show 9 < 50 by decide), getD_buf p.bytes (show 20 < 50 by decide),
    saddr_buf]
  split
  · rename_i h9
    split
    · rename_i h20
      exact .inl ⟨rfl, h9, h20⟩
    · split
      · rename_i h3
        exact .inr (.inl ⟨rfl, h9, h3.1, h3.2⟩)
      · exact .inr (.inr rfl)
  · exact .inr (.inr rfl)

/-! ### Whole runs -/

/-- The hop number counts the probes in 16 bits, their TTLs in 8; and what is in
the socket has arrived. -/
structure Inv (s : State) : Prop where
  count : s.time_to_live.toNat = s.sent.length % 0x10000
  ttl : ∀ i d, s.sent[i]? = some d → (d.getD 8 0).toNat = (i + 1) % 256
  asked : s.pc = .recv → s.sent ≠ []
  queue : ∀ p ∈ s.queue, p ∈ s.delivered
  out : Attributed s

theorem toNat_succ {k : UInt16} {n : ℕ} (h : k.toNat = n % 0x10000) : (k + 1).toNat = (n + 1) % 0x10000 := by
  rw [UInt16.toNat_add, h]
  simp

theorem ttl_datagram {k : UInt16} {n : ℕ} (h : k.toNat = n % 0x10000) :
    ((datagram k d_addr).getD 8 0).toNat = n % 256 := by
  calc k.toUInt8.toNat = k.toNat % 256 := UInt16.toNat_toUInt8 k
    _ = n % 0x10000 % 256 := by rw [h]
    _ = n % 256 := Nat.mod_mod_of_dvd n (by decide)

theorem Line.Attributed.mono {s t : State} (hsent : s.sent <+: t.sent)
    (hdel : ∀ p ∈ s.delivered, p ∈ t.delivered) {l : Line} (h : l.Attributed s) : l.Attributed t := by
  have hanswers : ∀ type k source, Answers s type k source → Answers t type k source := by
    rintro type k source ⟨p, hp, haddr, htype, hq, d, hd, httl⟩
    refine ⟨p, hdel p hp, haddr, htype, hq, d, ?_, httl⟩
    cases k with
    | zero => exact hd
    | succ k =>
      obtain ⟨e, he⟩ := hsent
      show t.sent[k]? = some d
      rw [← he, List.getElem?_append_left (List.getElem?_eq_some_iff.mp hd).1]
      exact hd
  cases l with
  | hop k source => exact hanswers _ _ _ h
  | unreachable k source => exact hanswers _ _ _ h
  | stars k => trivial

theorem answers_of_genuine {s : State} (hI : Inv s) {p : Packet} (hp : p ∈ s.delivered) {type : UInt8}
    (hg : Genuine s p type) (hpos : s.sent ≠ []) :
    Answers s type s.time_to_live.toNat (inet_ntop p.sender) := by
  obtain ⟨htype, hquotes, hlt⟩ := hg
  have hk : s.time_to_live.toNat = s.sent.length := by rw [hI.count, Nat.mod_eq_of_lt (by omega)]
  obtain ⟨n, hn⟩ : ∃ n, s.sent.length = n + 1 :=
    Nat.exists_eq_succ_of_ne_zero (by rwa [ne_eq, List.length_eq_zero_iff])
  rw [hn] at hlt hquotes hk
  obtain ⟨d, hd⟩ : ∃ d, s.sent[n]? = some d := ⟨s.sent[n], List.getElem?_eq_getElem (by omega)⟩
  refine ⟨p, hp, rfl, htype, by rw [hk]; exact hquotes, d, by rw [hk]; exact hd, ?_⟩
  calc (d.getD 8 0).toNat = (n + 1) % 256 := hI.ttl n d hd
    _ = n + 1 := Nat.mod_eq_of_lt hlt
    _ = s.time_to_live.toNat := hk.symm

theorem inv_start : Inv start where
  count := rfl
  ttl i d h := by cases h
  asked h := by cases h
  queue p hp := by cases hp
  out l hl := by cases hl

theorem inv_probe {s : State} (hI : Inv s) :
    Inv { s with
      pc := .recv
      time_to_live := s.time_to_live + 1
      queue := []
      sent := s.sent ++ [datagram (s.time_to_live + 1) d_addr] } where
  count := by
    rw [List.length_append, List.length_singleton]
    exact toNat_succ hI.count
  ttl := by
    intro i d hd
    by_cases hi : i < s.sent.length
    · rw [List.getElem?_append_left hi] at hd
      exact hI.ttl i d hd
    · rw [List.getElem?_append_right (not_lt.mp hi), List.getElem?_singleton] at hd
      split at hd
      · rename_i h0
        obtain rfl : i = s.sent.length := by omega
        rw [← Option.some.inj hd]
        exact ttl_datagram d_addr (toNat_succ hI.count)
      · cases hd
  asked _ := by simp
  queue p hp := by cases hp
  out l hl := by
    refine Line.Attributed.mono ?_ ?_ (hI.out l hl)
    · exact List.prefix_append _ _
    · exact fun _ hp => hp

theorem inv_arrive {s : State} (hI : Inv s) (p : Packet) :
    Inv { s with queue := s.queue ++ [p], delivered := s.delivered ++ [p] } where
  count := hI.count
  ttl := hI.ttl
  asked := hI.asked
  queue q hq := by
    rcases List.mem_append.mp hq with hq | hq
    · exact List.mem_append_left _ (hI.queue q hq)
    · exact List.mem_append_right _ hq
  out l hl := by
    refine Line.Attributed.mono ?_ ?_ (hI.out l hl)
    · exact List.prefix_refl _
    · exact fun _ hp => List.mem_append_left _ hp

theorem inv_recv {s : State} (hI : Inv s) (hpc : s.pc = .recv) {p : Packet} {queue : List Packet}
    (hq : s.queue = p :: queue) (hok : Answered argv1 s .recv) :
    Inv { s with
      pc := (receive argv1 s.time_to_live p.bytes).2
      queue := queue
      out := s.out ++ [(receive argv1 s.time_to_live p.bytes).1] } where
  count := hI.count
  ttl := hI.ttl
  asked _ := hI.asked hpc
  queue q hm := hI.queue q (by rw [hq]; exact List.mem_cons_of_mem p hm)
  out := by
    have hp : p ∈ s.delivered := hI.queue p (by rw [hq]; exact List.mem_cons_self)
    have hok := hok p (by rw [hq]; rfl)
    rw [Attributed, List.forall_mem_append, List.forall_mem_singleton]
    refine ⟨fun l hl => ?_, ?_⟩
    · exact hI.out l hl
    · rcases receive_cases argv1 s.time_to_live p with ⟨hl, h9, h20⟩ | ⟨hl, h9, h20, harg⟩ | hl
      · rw [hl]
        exact answers_of_genuine hI hp ((hok h9).1 h20) (hI.asked hpc)
      · rw [hl]
        exact answers_of_genuine hI hp ((hok h9).2 h20 harg) (hI.asked hpc)
      · rw [hl]
        trivial

/-- **The step lemma.** -/
theorem inv_step {s t : State} {a : Action} (hI : Inv s) (hok : Answered argv1 s a)
    (h : (traceroute argv1 d_addr).step s a = some t) : Inv t := by
  cases a with
  | probe =>
    simp only [traceroute, step] at h
    split at h
    · cases h
      exact inv_probe d_addr hI
    · cases h
  | recv =>
    simp only [traceroute, step] at h
    split at h
    · rename_i hpc
      cases hq : s.queue with
      | nil =>
        rw [hq] at h
        cases h
      | cons p queue =>
        rw [hq] at h
        cases h
        exact inv_recv argv1 hI hpc hq hok
    · cases h
  | arrive p =>
    simp only [traceroute, step] at h
    split at h
    · cases h
      exact inv_arrive hI p
    · cases h

/-- **Every line with an address is right**, in every run whose packets answer
the probe just sent wherever an address is printed for them. -/
theorem attributed (s : State) (h : (traceroute argv1 d_addr).Reach (Answered argv1) s) : Attributed s :=
  (h.invariant (I := Inv) (by rintro _ rfl; exact inv_start) fun _ _ _ hI hok hst =>
    inv_step argv1 d_addr hI hok hst).out

/-- A Time Exceeded message from 10.0.0.1 about probe `j`. -/
def timeExceeded (j : ℕ) : Packet :=
  ⟨[0x45, 0, 0, 56, 0, 0, 0, 0, 64, 1, 0, 0, 10, 0, 0, 1, 192, 168, 1, 7, 11, 0, 0, 0, 0, 0, 0, 0], some j⟩

/-- An echo reply from 10.0.0.9, to someone else. -/
def echoReply : Packet :=
  ⟨[0x45, 0, 0, 28, 0, 0, 0, 0, 64, 1, 0, 0, 10, 0, 0, 9, 192, 168, 1, 7, 0, 0, 0, 0, 0, 0, 0, 0], none⟩

/-- `8.8.8.8`. -/
def target : Addr := #v[8, 8, 8, 8]

/-- The first hop answers in time. -/
def inTime : List Action := [.probe, .arrive (timeExceeded 1), .recv]

theorem attributed_inTime : ∃ s, (traceroute (inet_ntop target) target).run start inTime = some s ∧
    s.out = [.hop 1 [49, 48, 46, 48, 46, 48, 46, 49]] ∧ Attributed s := by
  have hr : ∃ s, (traceroute (inet_ntop target) target).run start inTime = some s ∧
      s.out = [.hop 1 [49, 48, 46, 48, 46, 48, 46, 49]] := ⟨_, rfl, rfl⟩
  obtain ⟨s, hs, hout⟩ := hr
  refine ⟨s, hs, hout, attributed (inet_ntop target) target s (.of_run rfl ?_ hs)⟩
  refine ⟨trivial, trivial, fun p hp _ => ?_, trivial⟩
  cases hp
  exact ⟨fun _ => ⟨rfl, rfl, by decide⟩, fun h => absurd h (by decide)⟩

/-- An echo reply is taken for the first hop's answer, and that answer, late, for
the second hop's. -/
def late : List Action := [.probe, .arrive echoReply, .recv, .probe, .arrive (timeExceeded 1), .recv]

theorem attributed_late : ¬ ∀ (argv1 : List UInt8) (d_addr : Addr) (s : State),
    (traceroute argv1 d_addr).Reachable s → Attributed s := by
  intro h
  have hr : ∃ s, (traceroute (inet_ntop target) target).run start late = some s ∧
      s.out = [.stars 1, .hop 2 [49, 48, 46, 48, 46, 48, 46, 49]] ∧ s.delivered = [echoReply, timeExceeded 1] :=
    ⟨_, rfl, rfl, rfl⟩
  obtain ⟨s, hs, hout, hdel⟩ := hr
  have hline := h _ _ s (.of_run rfl hs) (.hop 2 [49, 48, 46, 48, 46, 48, 46, 49]) (by rw [hout]; simp)
  obtain ⟨p, hp, -, -, hq, -⟩ := hline
  rw [hdel] at hp
  simp only [List.mem_cons, List.not_mem_nil, or_false] at hp
  rcases hp with rfl | rfl
  · cases hq
  · cases hq

end Traceroute
end Autumn
