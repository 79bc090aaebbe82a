/-
# What the echo clients share (`server models/3`, `RAW/UDP`, `RAW/IP`)

A client reads a line into an array and takes the newline off it; what is
behind the two NULs then is what the array held before. Messages are received
into an array that is not cleared between them, from its start on.

The raw clients write the UDP header themselves and get whole IP packets, from
anyone and about any port; they wait for one to their own port. The server is
an ordinary one: it gets as many bytes as the UDP header declares, and sends
them back in upper case.

Key definitions: `Line`, `read_line`, `recvfrom`, `Packet`, `await`, `echo_udp`, `World`.
Key theorems: `read_line_spec`, `Packet.port_recvfrom`, `await_eq`, `echo_udp_eq`,
`World.received`.
-/
import Autumn.Server.Common

namespace Autumn
namespace Echo

/-- `'\n'` -/
abbrev newline : UInt8 := 10

/-! ### Reading a line -/

/-- A line that is typed for an array of `n` characters. -/
structure Line (n : ℕ) where
  chars : List UInt8
  fits : chars.length + 2 ≤ n
  nz : (0 : UInt8) ∉ chars
  one : newline ∉ chars

/-- The line in upper case. -/
def Line.upper {n : ℕ} (line : Line n) : List UInt8 := line.chars.map Server.toupper

theorem Line.upper_nz {n : ℕ} (line : Line n) : (0 : UInt8) ∉ line.upper := fun h => by
  obtain ⟨c, hc, h0⟩ := List.mem_map.mp h
  rw [Server.toupper_eq_zero_iff] at h0
  exact line.nz (h0 ▸ hc)

theorem Line.length_upper {n : ℕ} (line : Line n) : line.upper.length = line.chars.length := List.length_map _

/-- `fgets(s, n, stdin); s[strlen(s) - 1] = 0;` -/
def read_line {n : ℕ} (s : Buf UInt8 n) (line : List UInt8) : Option (Buf UInt8 n) := do
  let s ← s.put ((line ++ [newline]).take (n - 1))
  guard (s.str ≠ [])
  s.store (s.str.length - 1) [0]

/-- **A line that fits** is in the array, with two NULs. -/
theorem read_line_spec {n : ℕ} (s : Buf UInt8 n) (line : Line n) : ∃ s', read_line s line.chars = some s' ∧
    s'.chars = line.chars ++ 0 :: 0 :: s.chars.drop (line.chars.length + 2) := by
  obtain ⟨w, hfits, hnz, -⟩ := line
  have hread : (w ++ [newline]).take (n - 1) = w ++ [newline] :=
    List.take_of_length_le (by rw [List.length_append, List.length_singleton]; omega)
  have hnz' : (0 : UInt8) ∉ w ++ [newline] := by
    rw [List.mem_append, List.mem_singleton]
    exact not_or.mpr ⟨hnz, by decide⟩
  obtain ⟨a, ha, hac⟩ := s.exists_store 0 (w ++ [newline] ++ [0]) (by simp; omega)
  have hac' : a.chars = w ++ newline :: 0 :: s.chars.drop (w.length + 2) := by simpa using hac
  have hstr : a.str = w ++ [newline] := by
    rw [Buf.str, hac', ← List.singleton_append, ← List.append_assoc, cstr_append_zero hnz']
  have hlast : a.str.length - 1 = w.length := by rw [hstr]; simp
  obtain ⟨b, hb, hbc⟩ := a.exists_store w.length [0] (by simp; omega)
  refine ⟨b, ?_, ?_⟩
  · have hput : s.put (w ++ [newline]) = some a := ha
    have hne : a.str ≠ [] := by rw [hstr]; simp
    simp only [read_line, hread, hput, Option.bind_eq_bind, Option.bind_some, guard, hne, hlast, ne_eq,
      not_false_eq_true, if_true, Option.pure_def, hb]
  · rw [hbc, hac', List.take_left' rfl]
    simp [List.drop_append]

theorem read_line_str {n : ℕ} (s : Buf UInt8 n) (line : Line n) :
    ∃ s', read_line s line.chars = some s' ∧ s'.str = line.chars ∧ s'.Term := by
  obtain ⟨s', h, hc⟩ := read_line_spec s line
  exact ⟨s', h, by rw [Buf.str, hc, cstr_append_zero line.nz], by simp [Buf.Term, hc]⟩

/-! ### Receiving -/

/-- `recvfrom(fd, b, n, ...)`, when `packet` is what has arrived. -/
def recvfrom {n : ℕ} (b : Buf UInt8 n) (packet : List UInt8) : Buf UInt8 n :=
  ⟨packet.take n ++ b.chars.drop packet.length, by
    rw [List.length_append, List.length_take, List.length_drop, b.size]
    omega⟩

theorem chars_recvfrom {n : ℕ} (b : Buf UInt8 n) {packet : List UInt8} (h : packet.length ≤ n) :
    (recvfrom b packet).chars = packet ++ b.chars.drop packet.length := by
  show packet.take n ++ _ = _
  rw [List.take_of_length_le h]

/-- A number of 16 bits, the way the network has it. -/
def htons (x : UInt16) : List UInt8 := [(x >>> 8).toUInt8, x.toUInt8]

/-- `ntohs` of the two bytes at index `i`. -/
def ntohs (l : List UInt8) (i : ℕ) : ℕ := (l.getD i 0).toNat * 256 + (l.getD (i + 1) 0).toNat

theorem ntohs_htons (x : UInt16) (l r : List UInt8) : ntohs (l ++ htons x ++ r) l.length = x.toNat := by
  have hlt := x.toNat_lt
  have hhi : (x >>> 8).toUInt8.toNat = x.toNat / 256 % 256 := by
    rw [UInt16.toNat_toUInt8, UInt16.toNat_shiftRight, Nat.shiftRight_eq_div_pow]
    rfl
  have hlo : x.toUInt8.toNat = x.toNat % 256 := UInt16.toNat_toUInt8 x
  simp only [ntohs, htons, List.getD_eq_getElem?_getD, List.append_assoc,
    List.getElem?_append_right (le_refl l.length), List.getElem?_append_right (Nat.le_add_right l.length 1),
    Nat.sub_self, Nat.add_sub_cancel_left]
  simp only [List.cons_append, List.getElem?_cons_zero, List.getElem?_cons_succ, Option.getD_some, hhi, hlo]
  omega

/-! ### UDP -/

/-- `struct udp` -/
def udp_hdr (source destination length sum : UInt16) : List UInt8 :=
  htons source ++ htons destination ++ htons length ++ htons sum

/-- An IP packet with a header of 20 bytes that carries a UDP packet. -/
structure Packet where
  ip_header : List UInt8
  ip_length : ip_header.length = 20
  source : UInt16
  destination : UInt16
  length : UInt16
  sum : UInt16
  payload : List UInt8

def Packet.bytes (p : Packet) : List UInt8 :=
  p.ip_header ++ udp_hdr p.source p.destination p.length p.sum ++ p.payload

/-- `BUF_SIZE` -/
abbrev bufSize : ℕ := 284

/-- `SERVER_PORT` -/
abbrev serverPort : UInt16 := 3200

/-- `CLIENT_PORT` -/
abbrev clientPort : UInt16 := 7777

/-- The loop around `recvfrom` that waits for a packet to the client's port, when
`packets` arrive; it is still waiting if there is none. -/
def await (buf : Buf UInt8 bufSize) : List (List UInt8) → Option (Buf UInt8 bufSize)
  | [] => none
  | packet :: packets =>
    let buf := recvfrom buf packet
    if ntohs buf.chars (20 + 2) = clientPort.toNat then some buf else await buf packets

theorem Packet.port_recvfrom (buf : Buf UInt8 bufSize) (p : Packet) :
    ntohs (recvfrom buf p.bytes).chars (20 + 2) = p.destination.toNat := by
  have hlen : (p.ip_header ++ htons p.source).length = 20 + 2 := by rw [List.length_append, p.ip_length]; rfl
  have hhead : (p.ip_header ++ htons p.source ++ htons p.destination).length ≤ bufSize := by
    rw [List.length_append, hlen]
    show 24 ≤ 284
    decide
  have hbytes : p.bytes = (p.ip_header ++ htons p.source ++ htons p.destination) ++
      (htons p.length ++ htons p.sum ++ p.payload) := by
    simp only [Packet.bytes, udp_hdr, List.append_assoc]
  show ntohs (p.bytes.take bufSize ++ buf.chars.drop p.bytes.length) (20 + 2) = _
  rw [hbytes, List.take_append, List.take_of_length_le hhead, List.append_assoc, ← hlen, ntohs_htons]

/-- **Waiting**: the first packet to the client's port is taken, whatever comes
before it. -/
theorem await_eq (buf : Buf UInt8 bufSize) {foreign : List Packet}
    (hforeign : ∀ p ∈ foreign, p.destination ≠ clientPort) (reply : Packet)
    (hreply : reply.destination = clientPort) (rest : List (List UInt8)) :
    ∃ b, await buf (foreign.map Packet.bytes ++ reply.bytes :: rest) = some (recvfrom b reply.bytes) := by
  induction foreign generalizing buf with
  | nil => exact ⟨buf, if_pos (by rw [reply.port_recvfrom, hreply])⟩
  | cons p foreign ih =>
    obtain ⟨b, hb⟩ := ih (recvfrom buf p.bytes) fun q hq => hforeign q (List.mem_cons_of_mem p hq)
    refine ⟨b, ?_⟩
    rw [List.map_cons, List.cons_append, await, if_neg, hb]
    rw [p.port_recvfrom]
    exact fun h => hforeign p List.mem_cons_self (UInt16.toNat_inj.mp h)

/-- What the kernel gives the server of a UDP packet: as many bytes as the header
declares. -/
def deliver (udp : List UInt8) : List UInt8 := (udp.take (ntohs udp 4)).drop 8

theorem deliver_eq (source destination length sum : UInt16) (r : List UInt8) (h : 8 ≤ length.toNat) :
    deliver (udp_hdr source destination length sum ++ r) = r.take (length.toNat - 8) := by
  have hport : ntohs (udp_hdr source destination length sum ++ r) 4 = length.toNat := by
    have hntohs := ntohs_htons length (htons source ++ htons destination) (htons sum ++ r)
    rwa [← List.append_assoc] at hntohs
  have hlen : (udp_hdr source destination length sum).length = 8 := rfl
  rw [deliver, hport, List.take_append, List.take_of_length_le (by rw [hlen]; exact h), List.drop_left' hlen, hlen]

/-- The body of the server's loop, and the bytes it sends back. -/
def echo_udp (buf : Buf UInt8 600) (payload : List UInt8) : List UInt8 :=
  (Server.upper (recvfrom buf payload).chars (min payload.length 600)).take (min payload.length 600)

theorem echo_udp_eq (buf : Buf UInt8 600) {payload : List UInt8} (h : payload.length ≤ 600) :
    echo_udp buf payload = payload.map Server.toupper := by
  rw [echo_udp, chars_recvfrom buf h, min_eq_left h, Server.upper_append, List.take_left' (by simp)]

/-- What the world around the client does: the packets that arrive before the
reply, what the server's buffer holds, and the headers that the kernel gives the
reply. -/
structure World where
  foreign : List Packet
  foreign_port : ∀ p ∈ foreign, p.destination ≠ clientPort
  buf : Buf UInt8 600
  ip_header : List UInt8
  ip_length : ip_header.length = 20
  sum : UInt16

/-- The packet that comes back with a payload. -/
def World.reply (w : World) (payload : List UInt8) : Packet where
  ip_header := w.ip_header
  ip_length := w.ip_length
  source := serverPort
  destination := clientPort
  length := 8 + payload.length.toUInt16
  sum := w.sum
  payload := payload

/-- **The reply** is taken, and its payload is 28 bytes behind the start. -/
theorem World.received (w : World) (payload : List UInt8) (h : payload.length ≤ 256) : ∃ b r,
    await (Buf.zeros UInt8 bufSize) (w.foreign.map Packet.bytes ++ [(w.reply payload).bytes]) = some b ∧
      ∀ k ≤ payload.length, b.chars.drop (28 + k) = payload.drop k ++ r := by
  obtain ⟨b, hb⟩ := await_eq (Buf.zeros UInt8 bufSize) w.foreign_port (w.reply payload) rfl []
  obtain ⟨head, hbytes, hhead⟩ : ∃ head, (w.reply payload).bytes = head ++ payload ∧ head.length = 28 := by
    refine ⟨_, rfl, ?_⟩
    rw [List.length_append, (w.reply payload).ip_length]
    rfl
  have hlen : (w.reply payload).bytes.length ≤ bufSize := by
    rw [hbytes, List.length_append, hhead]
    exact Nat.add_le_add_left h 28
  refine ⟨_, b.chars.drop (w.reply payload).bytes.length, hb, fun k hk => ?_⟩
  rw [chars_recvfrom b hlen, hbytes, List.append_assoc, ← hhead, List.drop_length_add_append,
    List.drop_append_of_le_length hk]

end Echo
end Autumn
