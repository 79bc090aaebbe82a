/-
# The port filter (`block_port_module/block_port_module.c`)

`hook_func` drops a UDP or TCP packet if the two bytes behind its IP header
where the destination port is are the number in `foo`. It asks for neither the
fragment offset nor the length: a later fragment is dropped for what its
payload has there, and a packet that ends before is judged by the memory behind
it. The port is compared as an `unsigned int` with an `int`, so a configured
number that is no port drops nothing, if it fits an `int`; of a larger one the
low 32 bits count. So the filter is right except for such a packet or number
that reads as the other (`Misread`).

A packet is its bytes from the IP header on, and the memory behind it, which is
arbitrary; `udp_hdr` and `tcp_hdr` point `ihl * 4` bytes behind the start.

Key definitions: `hook_func`, `foo_store`, `Addressed`, `Misread`.
Key theorems: `hook_func_eq_drop_iff`, `drops_addressed_iff`.
-/
import Mathlib.Data.Int.Order.Basic
import Autumn.Lib.Sscanf

namespace Autumn
namespace PortFilter

open Sscanf

/-- `struct sk_buff`, as the hook uses it. -/
structure Skb where
  packet : List UInt8
  behind : ℕ → UInt8

/-- What the hook returns. -/
inductive Verdict
  | NF_DROP
  | NF_ACCEPT
  deriving DecidableEq, Repr

def IPPROTO_TCP : UInt8 := 6

def IPPROTO_UDP : UInt8 := 17

namespace Skb

/-- The byte at index `i` from the start of the IP header. -/
def byte (skb : Skb) (i : ℕ) : UInt8 := skb.packet.getD i (skb.behind i)

/-- `ip_hdr->protocol` -/
def protocol (skb : Skb) : UInt8 := skb.byte 9

/-- `ip_hdr->ihl * 4` -/
def header (skb : Skb) : ℕ := (skb.byte 0).toNat % 16 * 4

/-- `(unsigned int)ntohs(udph->dest)`, and likewise for TCP, where `dest` is at
the same place. -/
def dst_port (skb : Skb) : UInt32 :=
  (skb.byte (skb.header + 2)).toUInt32 * 256 + (skb.byte (skb.header + 3)).toUInt32

end Skb

/-- `hook_func`; no pointer but `skb` is ever NULL. -/
def hook_func (foo : Int32) : Option Skb → Verdict
  | none => .NF_ACCEPT
  | some skb =>
    -- `dst_port == foo`: the `int` is converted
    if skb.protocol = IPPROTO_UDP ∧ skb.dst_port = foo.toUInt32 then .NF_DROP
    else if skb.protocol = IPPROTO_TCP ∧ skb.dst_port = foo.toUInt32 then .NF_DROP
    else .NF_ACCEPT

/-! ### Configuring the port -/

/-- `foo_store`: of the number found, `foo` keeps what fits an `int`. -/
def foo_store (foo : Int32) (buf : List UInt8) : Int32 :=
  match scan_d buf with
  | some z => Int32.ofInt z
  | none => foo

/-! ### What the filter is for -/

/-- The offset of a fragment, in units of eight bytes. -/
def Skb.fragment_offset (skb : Skb) : ℕ := ((skb.byte 6).toNat * 256 + (skb.byte 7).toNat) % 8192

/-- The bytes at the place of the destination port, as a number. -/
def Skb.port (skb : Skb) : ℕ :=
  (skb.byte (skb.header + 2)).toNat * 256 + (skb.byte (skb.header + 3)).toNat

/-- UDP or TCP. -/
def Skb.HasPorts (skb : Skb) : Prop := skb.protocol = IPPROTO_UDP ∨ skb.protocol = IPPROTO_TCP

instance (skb : Skb) : Decidable skb.HasPorts := inferInstanceAs (Decidable (_ ∨ _))

/-- The packet has the start of a transport header, and the destination port
there is `z`. -/
def Addressed (z : ℤ) (skb : Skb) : Prop :=
  skb.HasPorts ∧ skb.fragment_offset = 0 ∧ skb.header + 4 ≤ skb.packet.length ∧ (skb.port : ℤ) = z

instance (z : ℤ) (skb : Skb) : Decidable (Addressed z skb) := inferInstanceAs (Decidable (_ ∧ _))

/-- The filter drops the packet if it is addressed to port `z`, and accepts any
other one. -/
def DropsAddressed (foo : Int32) (z : ℤ) (skb : Skb) : Prop :=
  hook_func foo (some skb) = if Addressed z skb then .NF_DROP else .NF_ACCEPT

instance (foo : Int32) (z : ℤ) (skb : Skb) : Decidable (DropsAddressed foo z skb) :=
  inferInstanceAs (Decidable (_ = _))

/-- The bytes at the place of the port look like `z`, in 32 bits; but there is no
port, or `z` is another number. -/
def Misread (z : ℤ) (skb : Skb) : Prop :=
  skb.HasPorts ∧ (skb.port : ℤ) = z % 2 ^ 32 ∧
    (skb.fragment_offset ≠ 0 ∨ skb.packet.length < skb.header + 4 ∨ (skb.port : ℤ) ≠ z)

instance (z : ℤ) (skb : Skb) : Decidable (Misread z skb) := inferInstanceAs (Decidable (_ ∧ _))

/-! ### What the filter does -/

theorem Skb.port_lt (skb : Skb) : skb.port < 65536 := by
  have h1 := (skb.byte (skb.header + 2)).toNat_lt
  have h2 := (skb.byte (skb.header + 3)).toNat_lt
  unfold port
  omega

theorem Skb.toNat_dst_port (skb : Skb) : skb.dst_port.toNat = skb.port := by
  have h1 := (skb.byte (skb.header + 2)).toNat_lt
  have h2 := (skb.byte (skb.header + 3)).toNat_lt
  simp only [dst_port, port, UInt32.toNat_add, UInt32.toNat_mul, UInt8.toNat_toUInt32, UInt32.reduceToNat]
  omega

theorem toNat_foo (z : ℤ) : ((Int32.ofInt z).toUInt32.toNat : ℤ) = z % 2 ^ 32 := by
  rw [← Int32.toNat_toBitVec, Int32.toBitVec_ofInt, BitVec.toNat_ofInt]
  omega

theorem dst_port_eq_iff (skb : Skb) (z : ℤ) :
    skb.dst_port = (Int32.ofInt z).toUInt32 ↔ (skb.port : ℤ) = z % 2 ^ 32 := by
  rw [← UInt32.toNat_inj, skb.toNat_dst_port, ← toNat_foo, Int.natCast_inj]

/-- **When the filter drops.** -/
theorem hook_func_eq_drop_iff (z : ℤ) (skb : Skb) :
    hook_func (Int32.ofInt z) (some skb) = .NF_DROP ↔ skb.HasPorts ∧ (skb.port : ℤ) = z % 2 ^ 32 := by
  rw [← dst_port_eq_iff, Skb.HasPorts, or_and_right, hook_func]
  split
  · rename_i h
    exact iff_of_true rfl (.inl h)
  · rename_i hudp
    split
    · rename_i htcp
      exact iff_of_true rfl (.inr htcp)
    · rename_i htcp
      exact iff_of_false (by simp) (not_or.mpr ⟨hudp, htcp⟩)

theorem Addressed.dropped {z : ℤ} {skb : Skb} (h : Addressed z skb) :
    hook_func (Int32.ofInt z) (some skb) = .NF_DROP := by
  have hport := skb.port_lt
  obtain ⟨hp, -, -, hz⟩ := h
  exact (hook_func_eq_drop_iff z skb).mpr ⟨hp, by omega⟩

theorem misread_iff (z : ℤ) (skb : Skb) :
    Misread z skb ↔ hook_func (Int32.ofInt z) (some skb) = .NF_DROP ∧ ¬ Addressed z skb := by
  rw [hook_func_eq_drop_iff, Misread, Addressed]
  constructor
  · rintro ⟨hp, hz, h⟩
    refine ⟨⟨hp, hz⟩, ?_⟩
    rintro ⟨-, hf, hlen, hz'⟩
    rcases h with h | h | h
    · exact h hf
    · omega
    · exact h hz'
  · rintro ⟨⟨hp, hz⟩, h⟩
    refine ⟨hp, hz, ?_⟩
    by_contra hno
    push Not at hno
    exact h ⟨hp, hno.1, hno.2.1, hno.2.2⟩

/-- **The filter drops exactly what is addressed to the port**, for every packet
that is not misread. -/
theorem drops_addressed_iff (foo : Int32) {buf : List UInt8} {z : ℤ} (hz : scan_d buf = some z) (skb : Skb) :
    DropsAddressed (foo_store foo buf) z skb ↔ ¬ Misread z skb := by
  have hfoo : foo_store foo buf = Int32.ofInt z := by rw [foo_store, hz]
  rw [DropsAddressed, hfoo, misread_iff, not_and_not_right]
  constructor
  · intro h hdrop
    by_contra hno
    rw [if_neg hno, hdrop] at h
    cases h
  · intro h
    by_cases ha : Addressed z skb
    · rw [if_pos ha, ha.dropped]
    · rw [if_neg ha]
      cases hv : hook_func (Int32.ofInt z) (some skb) with
      | NF_DROP => exact absurd (h hv) ha
      | NF_ACCEPT => rfl

/-! ### A packet -/

/-- A UDP packet in fragments with the offset `off`, whose payload is `payload`. -/
def udp (off : UInt8) (payload : List UInt8) : Skb where
  packet := [0x45, 0, 0, 28, 0, 1, 0x20, off, 64, 17, 0, 0, 10, 0, 0, 1, 10, 0, 0, 2] ++ payload
  behind := fun _ => 0

/-- Port 53 is blocked for the first fragment of a datagram. -/
theorem drops_addressed_first :
    DropsAddressed (foo_store 0 (text 53 ++ [10])) 53 (udp 0 [0, 7, 0, 53, 0, 8, 0, 0]) :=
  (drops_addressed_iff 0 (scan_d_text 53) _).mpr (by decide)

/-- **A later fragment** is dropped for what its payload has in that place. -/
theorem later_fragment_dropped :
    ¬ DropsAddressed (foo_store 0 (text 53 ++ [10])) 53 (udp 1 [0, 7, 0, 53, 0, 8, 0, 0]) := by
  have hfoo : foo_store 0 (text 53 ++ [10]) = Int32.ofInt 53 := by rw [foo_store, scan_d_text]
  rw [hfoo]
  decide

end PortFilter
end Autumn
