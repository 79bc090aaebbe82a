/-
# The echo over a raw UDP socket (`RAW/UDP`)

The client writes the UDP header to the start of `datagram` and appends the
line at offset 8 with `strncat`. But `datagram` has not been cleared, so the
line goes behind the string that was there (`leftover`). And of the packet that comes
back it prints not from offset 28 on, where the payload is, but from 34: six
characters are left out.

So what is printed is the line exactly if six characters were there before it;
or, for a line so short that the six characters take it and its NUL too, if the
string that follows happens to be the line (`Lucky`).

The kernel puts 20 bytes of IP header before the UDP header, and the packets
are as in `Autumn.Net.Echo`.

Key definitions: `make`, `client`, `leftover`, `Lucky`.
Key theorems: `make_eq_some_iff`, `print_reply`, `client_eq_some_iff`, `shows_upper_iff`.
-/
import Autumn.Net.Echo

namespace Autumn
namespace RawUDP

open Echo (Line Packet World read_line udp_hdr ntohs await deliver echo_udp clientPort serverPort bufSize)
open Server (toupper)

/-- `MESSAGE_SIZE` -/
abbrev messageSize : ℕ := 256

/-- `DATAGRAM_LENGTH` -/
abbrev datagramLength : ℕ := 264

/-- The header that the client sends. -/
def header : List UInt8 := udp_hdr clientPort serverPort (8 + 256) 0

/-- `memcpy(datagram, &udp_hdr, 8); strncat(datagram + 8, msg, strlen(msg));` -/
def make (datagram : Buf UInt8 datagramLength) (msg : Buf UInt8 messageSize) : Option (Buf UInt8 datagramLength) :=
  (datagram.store 0 header).bind fun datagram => datagram.strncatAt 8 msg.chars msg.str.length

/-- The client, with what its arrays held before, and the string that it prints. -/
def client (msg : Buf UInt8 messageSize) (datagram : Buf UInt8 datagramLength) (w : World) (line : List UInt8) :
    Option (List UInt8) := do
  let msg ← read_line msg line
  let datagram ← make datagram msg
  let reply := w.reply (echo_udp w.buf (deliver datagram.chars))
  let buf ← await (Buf.zeros UInt8 bufSize) (w.foreign.map Packet.bytes ++ [reply.bytes])
  guard ((0 : UInt8) ∈ buf.chars.drop 34)
  return cstr (buf.chars.drop 34)

/-- The string that the uninitialised array holds where the payload goes. -/
def leftover (datagram : Buf UInt8 datagramLength) : List UInt8 := cstr (datagram.chars.drop 8)

/-- The array holds a string of six characters there, with room behind it; or a
shorter one, and the line is so short that the string behind both counts, and
that is the line. -/
def Lucky (datagram : Buf UInt8 datagramLength) (line : Line messageSize) : Prop :=
  (0 : UInt8) ∈ datagram.chars.drop 8 ∧ (leftover datagram).length + line.chars.length < messageSize ∧
    ((leftover datagram).length = 6 ∨
      (leftover datagram).length + line.chars.length < 6 ∧ (0 : UInt8) ∈ datagram.chars.drop 14 ∧
        (cstr (datagram.chars.drop 14)).map toupper = line.upper)

/-! ### The datagram -/

/-- The datagram is the header, what was there before, the line, and a NUL. -/
theorem make_eq_some_iff (datagram d : Buf UInt8 datagramLength) {msg : Buf UInt8 messageSize} (ht : msg.Term) :
    make datagram msg = some d ↔ (0 : UInt8) ∈ datagram.chars.drop 8 ∧
      (leftover datagram).length + msg.str.length < messageSize ∧
      d.chars = header ++ (leftover datagram ++ msg.str ++
        0 :: datagram.chars.drop (8 + (leftover datagram).length + msg.str.length + 1)) := by
  obtain ⟨d1, h1, hc⟩ := datagram.exists_store 0 header (by decide)
  have hlen : header.length = 8 := rfl
  rw [List.take_zero, List.nil_append, Nat.zero_add, hlen] at hc
  have hdrop : ∀ k, d1.chars.drop (8 + k) = datagram.chars.drop (8 + k) := fun k => by
    rw [hc, ← hlen, List.drop_length_add_append, List.drop_drop]
  have htake : d1.chars.take 8 = header := by rw [hc, ← hlen, List.take_left' rfl]
  have hdrop8 : d1.chars.drop 8 = datagram.chars.drop 8 := hdrop 0
  have hbehind : d1.chars.drop (8 + (leftover datagram).length + msg.str.length + 1) =
      datagram.chars.drop (8 + (leftover datagram).length + msg.str.length + 1) := by
    rw [Nat.add_assoc, Nat.add_assoc, hdrop]
  have hroom : 8 + (leftover datagram).length + msg.str.length < datagramLength ↔
      (leftover datagram).length + msg.str.length < messageSize := by
    have hsizes : datagramLength = 8 + messageSize := rfl
    omega
  have hcat : d1.strncatAt 8 msg.chars msg.str.length = some d ↔ _ := Buf.strncatAt_eq_some ht le_rfl
  rw [hdrop8, htake, ← leftover, ← Buf.str, hbehind, hroom] at hcat
  rw [make, h1, Option.bind_some, hcat]

theorem deliver_datagram {d : Buf UInt8 datagramLength} {r : List UInt8} (h : d.chars = header ++ r) :
    deliver d.chars = r := by
  have hr : r.length = 256 := by
    have hsize := d.size
    rw [h, List.length_append, Nat.add_comm] at hsize
    exact Nat.add_right_cancel hsize
  rw [h, header, Echo.deliver_eq _ _ _ _ _ (by decide)]
  exact List.take_of_length_le hr.le

/-! ### What is printed -/

/-- What the server gets, when the line is behind what was there. -/
def payload (datagram : Buf UInt8 datagramLength) (line : Line messageSize) : List UInt8 :=
  leftover datagram ++ line.chars ++ 0 :: datagram.chars.drop (8 + (leftover datagram).length + line.chars.length + 1)

theorem length_payload {datagram : Buf UInt8 datagramLength} {line : Line messageSize}
    (h : (leftover datagram).length + line.chars.length < messageSize) : (payload datagram line).length = 256 := by
  have hsizes : datagramLength = 264 ∧ messageSize = 256 := ⟨rfl, rfl⟩
  simp only [payload, List.length_append, List.length_cons, List.length_drop, datagram.size]
  omega

theorem print_reply (w : World) {p : List UInt8} (hp : p.length = 256) (text : List UInt8) :
    ((await (Buf.zeros UInt8 bufSize) (w.foreign.map Packet.bytes ++ [(w.reply (echo_udp w.buf p)).bytes])).bind
      fun buf => if (0 : UInt8) ∈ buf.chars.drop 34 then some (cstr (buf.chars.drop 34)) else none) = some text ↔
      (0 : UInt8) ∈ p.drop 6 ∧ (cstr (p.drop 6)).map toupper = text := by
  have hecho : echo_udp w.buf p = p.map toupper := Echo.echo_udp_eq w.buf (by rw [hp]; decide)
  have hlen : (p.map toupper).length = 256 := by rw [List.length_map, hp]
  obtain ⟨b, r, hb, hdrop⟩ := w.received _ hlen.le
  -- the packet fills the array
  have hr : r = [] := by
    have hwhole := congrArg List.length (hdrop 0 (Nat.zero_le _))
    rw [List.length_drop, b.size, List.drop_zero, List.length_append, hlen] at hwhole
    exact List.length_eq_zero_iff.mp (Nat.add_left_cancel hwhole).symm
  have h34 : b.chars.drop 34 = (p.drop 6).map toupper := by
    rw [show 34 = 28 + 6 from rfl, hdrop 6 (by omega), hr, List.append_nil, List.map_drop]
  have hz : (0 : UInt8) ∈ (p.drop 6).map toupper ↔ (0 : UInt8) ∈ p.drop 6 := by
    rw [List.mem_map]
    exact ⟨fun ⟨c, hc, h0⟩ => (Server.toupper_eq_zero_iff c).mp h0 ▸ hc, fun h => ⟨0, h, rfl⟩⟩
  rw [hecho, hb, Option.bind_some, h34, Option.ite_none_right_eq_some, hz, Option.some_inj,
    cstr_map Server.toupper_eq_zero_iff]

/-- **What the client prints**: it prints something exactly if its arrays let it. -/
theorem client_eq_some_iff (msg : Buf UInt8 messageSize) (datagram : Buf UInt8 datagramLength) (w : World)
    (line : Line messageSize) (text : List UInt8) : client msg datagram w line.chars = some text ↔
      (0 : UInt8) ∈ datagram.chars.drop 8 ∧ (leftover datagram).length + line.chars.length < messageSize ∧
      (0 : UInt8) ∈ (payload datagram line).drop 6 ∧ (cstr ((payload datagram line).drop 6)).map toupper = text := by
  obtain ⟨m, hm, hms, hmt⟩ := Echo.read_line_str msg line
  have hmake := fun d => make_eq_some_iff datagram d hmt
  rw [hms] at hmake
  have hclient : client msg datagram w line.chars = (make datagram m).bind fun d =>
      (await (Buf.zeros UInt8 bufSize)
        (w.foreign.map Packet.bytes ++ [(w.reply (echo_udp w.buf (deliver d.chars))).bytes])).bind fun buf =>
      if (0 : UInt8) ∈ buf.chars.drop 34 then some (cstr (buf.chars.drop 34)) else none := by
    simp only [client, hm, Option.bind_eq_bind, Option.bind_some, guard]
    congr 1
    funext d
    congr 1
    funext buf
    split
    · rfl
    · rfl
  rw [hclient, Option.bind_eq_some_iff]
  constructor
  · rintro ⟨d, hd, hrest⟩
    obtain ⟨h0, hroom, hc⟩ := (hmake d).mp hd
    rw [deliver_datagram hc] at hrest
    exact ⟨h0, hroom, (print_reply w (length_payload hroom) text).mp hrest⟩
  · rintro ⟨h0, hroom, hprint⟩
    have hsize : (header ++ payload datagram line).length = datagramLength := by
      rw [List.length_append, length_payload hroom]
      rfl
    refine ⟨⟨_, hsize⟩, (hmake _).mpr ⟨h0, hroom, rfl⟩, ?_⟩
    rw [deliver_datagram rfl]
    exact (print_reply w (length_payload hroom) text).mpr hprint

/-- **The upper case of the line is shown** exactly with what an uninitialised
array holds by luck. -/
theorem shows_upper_iff (msg : Buf UInt8 messageSize) (datagram : Buf UInt8 datagramLength) (w : World)
    (line : Line messageSize) :
    client msg datagram w line.chars = some line.upper ↔ Lucky datagram line := by
  have hline : line.chars.length = line.upper.length := (List.length_map _).symm
  have hnz : (0 : UInt8) ∉ leftover datagram ++ line.chars := by
    rw [List.mem_append]
    exact not_or.mpr ⟨zero_not_mem_cstr _, line.nz⟩
  rw [client_eq_some_iff, Lucky, payload]
  refine and_congr_right fun _ => and_congr_right fun _ => ?_
  by_cases h6 : 6 ≤ (leftover datagram ++ line.chars).length
  · -- the line goes on behind the six characters
    have hcut : (0 : UInt8) ∉ (leftover datagram ++ line.chars).drop 6 := fun h => hnz (List.mem_of_mem_drop h)
    rw [List.drop_append_of_le_length h6, cstr_append_zero hcut, and_iff_right (by simp)]
    rw [List.length_append] at h6
    constructor
    · intro h
      have hlen := congrArg List.length h
      rw [List.length_map, List.length_drop, List.length_append, ← hline] at hlen
      exact .inl (by omega)
    · rintro (h | h)
      · rw [List.drop_left' h, Line.upper]
      · omega
  · -- the six characters are all of it, its NUL, and some of what is behind
    rw [List.length_append] at h6
    obtain ⟨k, hk⟩ := Nat.exists_eq_add_of_lt (Nat.lt_of_not_le h6)
    have hdrop : (leftover datagram ++ line.chars ++ 0 :: datagram.chars.drop
        (8 + (leftover datagram).length + line.chars.length + 1)).drop 6 = datagram.chars.drop 14 := by
      have h6' : 6 = (leftover datagram ++ line.chars).length + (k + 1) := by rw [List.length_append, hk, Nat.add_assoc]
      rw [h6', List.drop_length_add_append, List.drop_succ_cons, List.drop_drop]
      congr 1
      omega
    have hshort : (leftover datagram).length + line.chars.length < 6 := Nat.lt_of_not_le h6
    rw [hdrop, or_iff_right (by omega), and_iff_right hshort]

/-- No other packets, and a server whose array is clear. -/
def quiet : World where
  foreign := []
  foreign_port := by simp
  buf := Buf.zeros UInt8 600
  ip_header := List.replicate 20 0
  ip_length := List.length_replicate
  sum := 0

/-- The line `hello`. -/
def hello : Line messageSize := ⟨[104, 101, 108, 108, 111], by decide, by decide, by decide⟩

/-- The array happens to hold six characters. -/
theorem shows_upper_lucky : client (Buf.zeros UInt8 messageSize)
    (Buf.padded (List.replicate 8 0 ++ List.replicate 6 32) (by decide)) quiet hello.chars = some hello.upper :=
  (shows_upper_iff _ _ _ hello).mpr ⟨by decide +kernel, by decide +kernel, .inl (by decide +kernel)⟩

/-- **With a clear array** nothing is shown of `hello`. -/
theorem shows_nothing : ¬ client (Buf.zeros UInt8 messageSize) (Buf.zeros UInt8 datagramLength) quiet hello.chars =
    some hello.upper := by
  rw [client_eq_some_iff]
  rintro ⟨-, -, -, h⟩
  exact absurd h (by decide +kernel)

end RawUDP
end Autumn
