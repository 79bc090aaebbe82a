/-
# The echo over a raw IP socket (`RAW/IP`)

The client writes the IP header, the UDP header and the line into a datagram
that it has cleared before, and prints what comes back from offset 28 on. The
sizes differ: the datagram has 244 bytes, of which the UDP header declares 128
as payload, and the packet that comes back does not fill the array it is
received in, where earlier packets have been. It works out because a line has
at most 126 characters: its NUL is among the 128 bytes on the way there and
back, so what is behind these does not count.

The kernel sends the bytes given, with the real length in the IP header, and
the packets are as in `Autumn.Net.Echo`.

Key definitions: `make`, `client`.
Key theorems: `make_spec`, `shows_upper`.
-/
import Autumn.Net.Echo

namespace Autumn
namespace RawIP

open Echo (Line Packet World htons read_line udp_hdr await deliver echo_udp clientPort serverPort bufSize)
open Server (toupper)

/-- `MESSAGE_SIZE` -/
abbrev messageSize : ℕ := 128

/-- `DATAGRAM_LENGTH` -/
abbrev datagramLength : ℕ := 244

/-- `struct iphdr` as it is filled in; `tot_len` is in host order. -/
def ip_header : List UInt8 := [0x45, 0, 28 + 128, 0, 0, 0, 0, 0, 64, 17, 0, 0, 0, 0, 0, 0, 0, 0, 0, 0]

/-- The UDP header that the client sends. -/
def header : List UInt8 := udp_hdr clientPort serverPort (8 + 128) 0

/-- The two `memcpy` and the `strncat`, after `memset(datagram, 0, DATAGRAM_LENGTH)`. -/
def make (msg : Buf UInt8 messageSize) : Option (Buf UInt8 datagramLength) := do
  let datagram ← (Buf.zeros UInt8 datagramLength).store 0 ip_header
  let datagram ← datagram.store 20 header
  datagram.strncatAt (20 + 8) msg.chars messageSize

/-- The client, with what `msg` held before, and the string that it prints. -/
def client (msg : Buf UInt8 messageSize) (w : World) (line : List UInt8) : Option (List UInt8) := do
  let msg ← read_line msg line
  let datagram ← make msg
  let reply := w.reply (echo_udp w.buf (deliver (datagram.chars.drop 20)))
  let buf ← await (Buf.zeros UInt8 bufSize) (w.foreign.map Packet.bytes ++ [reply.bytes])
  guard ((0 : UInt8) ∈ buf.chars.drop 28)
  return cstr (buf.chars.drop 28)

/-! ### There -/

/-- **The datagram** is the two headers, the line, and zeros. -/
theorem make_spec {msg : Buf UInt8 messageSize} (ht : msg.Term) :
    ∃ d, make msg = some d ∧ d.chars =
      ip_header ++ (header ++ (msg.str ++ List.replicate (216 - msg.str.length) 0)) := by
  have hlen := ht.length_lt
  have hsizes : datagramLength = 244 ∧ messageSize = 128 := ⟨rfl, rfl⟩
  have hip : ip_header.length = 20 := rfl
  have hboth : (ip_header ++ header).length = 20 + 8 := rfl
  obtain ⟨d1, h1, hc1⟩ := (Buf.zeros UInt8 datagramLength).exists_store 0 ip_header (by decide)
  obtain ⟨d2, h2, hc2⟩ := d1.exists_store 20 header (by decide)
  have hone : d1.chars = ip_header ++ List.replicate 224 0 := by
    rw [hc1, Buf.chars_zeros, List.drop_replicate]
    rfl
  have htwo : d2.chars = (ip_header ++ header) ++ List.replicate 216 0 := by
    rw [hc2, hone, List.take_left' hip, ← hip, List.drop_length_add_append, List.drop_replicate]
    rfl
  have hdrop : d2.chars.drop (20 + 8) = List.replicate 216 0 := by rw [htwo, List.drop_left' hboth]
  have hbehind : d2.chars.drop (20 + 8 + msg.str.length + 1) = List.replicate (216 - msg.str.length - 1) 0 := by
    rw [Nat.add_assoc (20 + 8), ← List.drop_drop, hdrop, List.drop_replicate, Nat.sub_sub]
  have hsize : (ip_header ++ (header ++ (msg.str ++ List.replicate (216 - msg.str.length) (0 : UInt8)))).length =
      datagramLength := by
    rw [← List.append_assoc, List.length_append, hboth, List.length_append, List.length_replicate]
    omega
  refine ⟨⟨_, hsize⟩, ?_, rfl⟩
  have hcat : d2.strncatAt (20 + 8) msg.chars messageSize = some ⟨_, hsize⟩ ↔ _ :=
    Buf.strncatAt_eq_some ht hlen.le
  simp only [make, h1, h2, Option.bind_eq_bind, Option.bind_some]
  rw [hcat, hdrop, cstr_replicate_zero, List.length_nil, Nat.add_zero, ← Buf.str, hbehind, htwo,
    List.take_left' hboth]
  refine ⟨List.mem_replicate.mpr ⟨by decide, rfl⟩, by omega, ?_⟩
  rw [List.nil_append, ← List.replicate_succ, Nat.sub_add_cancel (by omega), List.append_assoc]

theorem deliver_datagram {d : Buf UInt8 datagramLength} {s : List UInt8} (hs : s.length < messageSize)
    (h : d.chars = ip_header ++ (header ++ (s ++ List.replicate (216 - s.length) 0))) :
    deliver (d.chars.drop 20) = s ++ List.replicate (messageSize - s.length) 0 := by
  have hsizes : messageSize = 128 := rfl
  have hip : ip_header.length = 20 := rfl
  rw [h, List.drop_left' hip, header, Echo.deliver_eq _ _ _ _ _ (by decide)]
  show (s ++ List.replicate (216 - s.length) 0).take 128 = _
  rw [List.take_append, List.take_of_length_le (by omega), List.take_replicate]
  congr 2
  omega

/-! ### And back -/

/-- **The upper case of the line is shown**, whatever packets come in between. -/
theorem shows_upper (msg : Buf UInt8 messageSize) (w : World) (line : Line messageSize) :
    client msg w line.chars = some line.upper := by
  obtain ⟨m, hm, hms, hmt⟩ := Echo.read_line_str msg line
  obtain ⟨d, hd, hdc⟩ := make_spec hmt
  have hshort : m.str.length < messageSize := hmt.length_lt
  have hdeliver := deliver_datagram hshort hdc
  rw [hms] at hshort hdeliver
  set p := line.chars ++ List.replicate (messageSize - line.chars.length) (0 : UInt8) with hp
  have hplen : p.length = messageSize := by
    rw [hp, List.length_append, List.length_replicate]
    omega
  have hecho : echo_udp w.buf p = p.map toupper := Echo.echo_udp_eq w.buf (by rw [hplen]; decide)
  obtain ⟨b, r, hb, hdrop⟩ := w.received (p.map toupper) (by rw [List.length_map, hplen]; decide)
  -- the line, and the NUL that is behind it on the way
  have h28 : b.chars.drop 28 = line.upper ++ 0 :: (List.replicate (messageSize - line.chars.length - 1) 0 ++ r) := by
    have h := hdrop 0 (Nat.zero_le _)
    rw [List.drop_zero, hp, List.map_append, List.map_replicate, (Server.toupper_eq_zero_iff 0).mpr rfl,
      ← Nat.sub_add_cancel (show 1 ≤ messageSize - line.chars.length by omega), List.replicate_succ] at h
    rw [h, Line.upper]
    simp
  have hnz : (0 : UInt8) ∉ line.upper := line.upper_nz
  simp only [client, hm, hd, hdeliver, hecho, hb, h28, Option.bind_eq_bind, Option.bind_some, guard]
  simp [cstr_append_zero hnz]

end RawIP
end Autumn
