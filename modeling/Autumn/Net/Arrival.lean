/-
# When traceroute stops (`traceroute/traceroute.c`)

An Unreachable message ends the program if its sender, as `inet_ntop` prints
it, starts like the argument: `strncmp` compares no more than the argument is
long. Three numbers of the argument end with a dot, so these must be the
sender's own; the last one only has to start the sender's last number. Beside
the target the program takes a neighbour for it whose last byte is the target's
with one or two digits more (`Prolongs`), and no other address.

The type is read 20 bytes behind the start of the packet, where the ICMP
message is only if the IP header has no options.

Key definitions: `Prolongs`, `StopsAtTarget`.
Key theorems: `inet_ntop_prefix_iff`, `receive_stops_iff`, `stops_at_target_iff`.
-/
import Autumn.Net.Traceroute
import Autumn.Lib.Decimal

namespace Autumn
namespace Traceroute

/-- The target's last byte, with digits behind it, is the source's. -/
def Prolongs (source target : Addr) : Prop :=
  source[0] = target[0] ∧ source[1] = target[1] ∧ source[2] = target[2] ∧ target[3] ≠ 0 ∧
    source[3] ≠ target[3] ∧
    (target[3].toNat = source[3].toNat / 10 ∨ target[3].toNat = source[3].toNat / 100)

instance (source target : Addr) : Decidable (Prolongs source target) := inferInstanceAs (Decidable (_ ∧ _))

/-- The packet is an ICMP message of type 3. -/
structure Unreachable (p : Packet) : Prop where
  protocol : p.bytes.getD 9 0 = 1
  type : p.icmpType = 3

/-- With the packet `p`, the program reports the arrival and exits exactly if `p`
is from the target, which it has been given in dotted form. -/
def StopsAtTarget (target : Addr) (time_to_live : UInt16) (p : Packet) : Prop :=
  receive (inet_ntop target) time_to_live p.bytes =
    (.unreachable time_to_live.toNat (inet_ntop p.sender), .exited) ↔ p.sender = target

/-! ### Addresses in dotted form -/

theorem toList_addr (a : Addr) : a.toList = [a[0], a[1], a[2], a[3]] := by
  obtain ⟨⟨l⟩, hl⟩ := a
  match l, hl with
  | [_, _, _, _], _ => rfl

theorem addr_eq_iff (a b : Addr) : a = b ↔ a[0] = b[0] ∧ a[1] = b[1] ∧ a[2] = b[2] ∧ a[3] = b[3] := by
  rw [← Vector.toList_inj, toList_addr, toList_addr]
  simp

theorem inet_ntop_eq (a : Addr) : inet_ntop a = decimal a[0].toNat ++ (46 : UInt8) :: (decimal a[1].toNat ++
    (46 : UInt8) :: (decimal a[2].toNat ++ (46 : UInt8) :: decimal a[3].toNat)) := by
  rw [inet_ntop, toList_addr]
  simp [decimal, List.intercalate]

theorem dot_not_mem_decimal (n : ℕ) : (46 : UInt8) ∉ decimal n := fun h =>
  absurd (mem_decimal h).1 (by decide)

theorem decimal_prefix_cases (m n : UInt8) : decimal m.toNat <+: decimal n.toNat ↔
    n = m ∨ m ≠ 0 ∧ n ≠ m ∧ (m.toNat = n.toNat / 10 ∨ m.toNat = n.toNat / 100) := by
  have hzero : m = 0 ↔ m.toNat = 0 := UInt8.toNat_inj.symm
  have hn : n.toNat < 256 := n.toNat_lt
  rw [decimal_prefix_iff]
  constructor
  · rintro ⟨k, hk, h0⟩
    by_cases heq : n = m
    · exact .inl heq
    have hne : m.toNat ≠ n.toNat := fun h => heq (UInt8.toNat_inj.mp h.symm)
    have hm : m.toNat ≠ 0 := fun h => hne (by rw [h, h0 h])
    refine .inr ⟨mt hzero.mp hm, heq, ?_⟩
    match k with
    | 0 => exact absurd (by simpa using hk) hne
    | 1 => exact .inl (by simpa using hk)
    | 2 => exact .inr hk
    | k + 3 =>
      -- a byte has three digits
      have hpow : 1000 ≤ 10 ^ (k + 3) := Nat.pow_le_pow_right (n := 10) (by decide) (Nat.le_add_left 3 k)
      exact absurd (hk.trans (Nat.div_eq_of_lt (by omega))) hm
  · rintro (rfl | ⟨hm, -, h | h⟩)
    · exact ⟨0, by simp, id⟩
    · exact ⟨1, by simpa using h, fun h0 => absurd (hzero.mpr h0) hm⟩
    · exact ⟨2, h, fun h0 => absurd (hzero.mpr h0) hm⟩

/-- **An address that starts like another one** is that one, or prolongs it. -/
theorem inet_ntop_prefix_iff (target source : Addr) :
    inet_ntop target <+: inet_ntop source ↔ source = target ∨ Prolongs source target := by
  have hdot := dot_not_mem_decimal
  rw [inet_ntop_eq, inet_ntop_eq, prefix_separated_iff (hdot _) (hdot _), prefix_separated_iff (hdot _) (hdot _),
    prefix_separated_iff (hdot _) (hdot _), decimal_injective.eq_iff, decimal_injective.eq_iff,
    decimal_injective.eq_iff, UInt8.toNat_inj, UInt8.toNat_inj, UInt8.toNat_inj, decimal_prefix_cases, addr_eq_iff]
  unfold Prolongs
  grind

/-! ### The packet -/

/-- When the program exits, with the line of the arrival. -/
theorem receive_stops_iff (argv1 : List UInt8) (time_to_live : UInt16) (p : Packet) :
    receive argv1 time_to_live p.bytes = (.unreachable time_to_live.toNat (inet_ntop p.sender), .exited) ↔
      p.bytes.getD 9 0 = 1 ∧ p.bytes.getD 20 0 = 3 ∧ argv1 <+: inet_ntop p.sender := by
  have hpre : (inet_ntop (saddr p.bytes)).take argv1.length = argv1 ↔ argv1 <+: inet_ntop p.sender := by
    rw [List.prefix_iff_eq_take, eq_comm, Packet.sender]
  simp only [receive, getD_buf p.bytes (show 9 < 50 by decide), getD_buf p.bytes (show 20 < 50 by decide),
    saddr_buf, hpre]
  by_cases h9 : p.bytes.getD 9 0 = 1
  · rw [if_pos h9, and_iff_right h9]
    by_cases h11 : p.bytes.getD 20 0 = 11
    · rw [if_pos h11, h11]
      exact iff_of_false (by simp) fun h => absurd h.1 (by decide)
    · rw [if_neg h11]
      split
      · rename_i h
        exact iff_of_true rfl h
      · rename_i h
        exact iff_of_false (by simp) h
  · rw [if_neg h9]
    exact iff_of_false (by simp) fun h => h9 h.1

/-- **Traceroute stops at its target only**, exactly if the sender does not
prolong it; where the type is not where it is read, it stops for nobody. -/
theorem stops_at_target_iff (target : Addr) (time_to_live : UInt16) {p : Packet} (h : Unreachable p) :
    StopsAtTarget target time_to_live p ↔
      if p.bytes.getD 20 0 = 3 then ¬ Prolongs p.sender target else p.sender ≠ target := by
  have hne : Prolongs p.sender target → p.sender ≠ target := fun hp heq => hp.2.2.2.2.1 (by rw [heq])
  rw [StopsAtTarget, receive_stops_iff, and_iff_right h.protocol, inet_ntop_prefix_iff]
  split
  · rename_i h20
    rw [and_iff_right h20, or_iff_left_iff_imp]
    exact ⟨fun himp hp => hne hp (himp hp), fun hn hp => absurd hp hn⟩
  · rename_i h20
    rw [iff_false_intro fun h' : _ ∧ _ => h20 h'.1, false_iff]

/-- Such a message, about the first probe. -/
def unreachableFrom (source : Addr) : Packet where
  bytes := [0x45, 0, 0, 56, 0, 0, 0, 0, 64, 1, 0, 0] ++ source.toList ++ [10, 0, 0, 9, 3, 3]
  quotes := some 1

/-- The target itself. -/
theorem stops_at_target_reached : StopsAtTarget #v[10, 0, 0, 1] 5 (unreachableFrom #v[10, 0, 0, 1]) :=
  (stops_at_target_iff _ _ ⟨by decide, by decide⟩).mpr (by decide)

/-- **A neighbour is taken for the target.** -/
theorem stops_at_neighbour : Unreachable (unreachableFrom #v[10, 0, 0, 12]) ∧
    ¬ StopsAtTarget #v[10, 0, 0, 1] 5 (unreachableFrom #v[10, 0, 0, 12]) := by
  refine ⟨⟨by decide, by decide⟩, fun h => ?_⟩
  have hstop : receive (inet_ntop #v[10, 0, 0, 1]) 5 (unreachableFrom #v[10, 0, 0, 12]).bytes =
      (.unreachable 5 (inet_ntop (unreachableFrom #v[10, 0, 0, 12]).sender), .exited) := by decide
  exact absurd (h.mp hstop) (by decide)

end Traceroute
end Autumn
