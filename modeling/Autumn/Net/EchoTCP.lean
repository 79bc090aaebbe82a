/-
# The echo over TCP (`echo_TCP/server.c`, `server models/3`)

The client sends its whole array and the server answers with its own, 128 bytes
each way; either end calls `recv` once for them, and gets the first piece of
what is on its way. The server sees the line up to the end of that piece, and
zeros from there on; the client sees that answer up to the end of its own piece,
and from there on what its array held before.

So the line comes back whole if the first piece the server gets has all of it,
and the first piece the client gets has it and the NUL behind it. Otherwise only
a client's array that held the rest of the answer by chance makes it good.

Key definitions: `recv`, `echo`, `ComesBack`.
Key theorems: `recv_eq`, `reply_eq`, `print_short`, `print_long`, `comes_back_iff`.
-/
import Mathlib.Combinatorics.Enumerative.Composition
import Autumn.Net.Echo

namespace Autumn
namespace EchoTCP

open Echo (Line read_line)
open Server (toupper)

/-- `SIZE` -/
abbrev size : ℕ := 128

/-- The first of the pieces that successive calls of `recv` return. -/
def recv (stream : List UInt8) (split : Composition size) : List UInt8 :=
  (stream.splitWrtComposition split).headD []

/-- The server's turn, with `buf` clear; it sends all of it. -/
def serve (piece : List UInt8) : Option (List UInt8) :=
  (Server.receive (Buf.zeros UInt8 size) piece).map Buf.chars

/-- The client, and the string that it prints: `string` and `buf` are what its
arrays held before, `there` and `back` how the two streams are cut. -/
def echo (string buf : Buf UInt8 size) (line : List UInt8) (there back : Composition size) : Option (List UInt8) := do
  let string ← read_line string line
  let reply ← serve (recv string.chars there)
  let buf ← buf.store 0 (recv reply back)
  guard buf.Term
  return buf.str

/-- The length of the first piece. -/
def first (split : Composition size) : ℕ := split.blocks.headD 0

/-- The line is there and back in first pieces; or the client's piece ends in it,
and goes on in the client's array. -/
def ComesBack (buf : Buf UInt8 size) (line : Line size) (there back : Composition size) : Prop :=
  line.chars.length ≤ first there ∧ line.chars.length < first back ∨
    first back ≤ first there ∧ first back ≤ line.chars.length ∧ (0 : UInt8) ∈ buf.chars.drop (first back) ∧
      cstr (buf.chars.drop (first back)) = line.upper.drop (first back)

/-! ### Pieces -/

theorem first_le (split : Composition size) : first split ≤ size := by
  rw [first]
  cases h : split.blocks with
  | nil => exact Nat.zero_le _
  | cons n ns =>
    have hsum := split.blocks_sum
    rw [h, List.sum_cons] at hsum
    exact hsum ▸ Nat.le_add_right n ns.sum

theorem recv_eq (stream : List UInt8) (split : Composition size) : recv stream split = stream.take (first split) := by
  rw [recv, first, List.splitWrtComposition]
  cases h : split.blocks with
  | nil =>
    have hsum := split.blocks_sum
    rw [h] at hsum
    exact absurd hsum (by decide)
  | cons n ns =>
    rw [List.splitWrtCompositionAux_cons]
    rfl

theorem serve_eq {piece : List UInt8} (h : piece.length ≤ size) :
    serve piece = some (piece.map toupper ++ List.replicate (size - piece.length) 0) := by
  obtain ⟨b, hb, hc⟩ := Server.receive_spec (Buf.zeros UInt8 size) h
  rw [serve, hb, Option.map_some, hc, Buf.chars_zeros, List.drop_replicate]

/-! ### What is printed -/

/-- The answer is the line, as far as the server has got it, and a NUL. -/
theorem reply_eq (line : Line size) (r : List UInt8) {n : ℕ} (h : (line.chars ++ 0 :: r).length = size)
    (hn : n ≤ size) : ∃ t, serve ((line.chars ++ 0 :: r).take n) = some (line.upper.take n ++ 0 :: t) ∧
      (line.upper.take n ++ 0 :: t).length = size := by
  have hfits := line.fits
  have hlen : ((line.chars ++ 0 :: r).take n).length = n := by rw [List.length_take, h, min_eq_left hn]
  have hserve := serve_eq (hlen.trans_le hn)
  rw [hlen] at hserve
  suffices hreply : ∃ t, ((line.chars ++ 0 :: r).take n).map toupper ++ List.replicate (size - n) 0 =
      line.upper.take n ++ 0 :: t by
    obtain ⟨t, ht⟩ := hreply
    refine ⟨t, by rw [hserve, ht], ?_⟩
    rw [← ht, List.length_append, List.length_map, hlen, List.length_replicate]
    omega
  by_cases hnl : n ≤ line.chars.length
  · -- the server has a part of the line
    refine ⟨List.replicate (size - n - 1) 0, ?_⟩
    rw [List.take_append_of_le_length hnl, List.map_take, ← Line.upper, ← List.replicate_succ,
      Nat.sub_add_cancel (by omega)]
  · -- the server has all of it
    obtain ⟨k, rfl⟩ := Nat.exists_eq_add_of_lt (Nat.lt_of_not_le hnl)
    have htake : line.upper.take (line.chars.length + k + 1) = line.upper :=
      List.take_of_length_le (by rw [Line.length_upper]; omega)
    refine ⟨(r.take k).map toupper ++ List.replicate (size - (line.chars.length + k + 1)) 0, ?_⟩
    rw [htake, Nat.add_assoc, List.take_length_add_append, List.take_succ_cons, List.map_append, List.map_cons,
      List.append_assoc, (Server.toupper_eq_zero_iff 0).mpr rfl]
    rfl

theorem print_short {b b' : Buf UInt8 size} {p t : List UInt8} (hp : (0 : UInt8) ∉ p) {m : ℕ} (hm : m ≤ p.length)
    (h : b.store 0 ((p ++ 0 :: t).take m) = some b') :
    (b'.Term ↔ (0 : UInt8) ∈ b.chars.drop m) ∧ b'.str = p.take m ++ cstr (b.chars.drop m) := by
  have hnz : (0 : UInt8) ∉ p.take m := fun h0 => hp (List.mem_of_mem_take h0)
  have hc := (Buf.store_spec.mp h).2
  rw [List.take_append_of_le_length hm, List.length_take, min_eq_left hm, List.take_zero, List.nil_append,
    Nat.zero_add] at hc
  refine ⟨?_, ?_⟩
  · rw [Buf.Term, hc, List.mem_append, or_iff_right hnz]
  · rw [Buf.str, hc, cstr_append hnz]

theorem print_long {b b' : Buf UInt8 size} {p t : List UInt8} (hp : (0 : UInt8) ∉ p) {m : ℕ} (hm : p.length < m)
    (h : b.store 0 ((p ++ 0 :: t).take m) = some b') : b'.Term ∧ b'.str = p := by
  obtain ⟨k, rfl⟩ := Nat.exists_eq_add_of_lt hm
  have hc := (Buf.store_spec.mp h).2
  rw [Nat.add_assoc, List.take_length_add_append, List.take_succ_cons, List.take_zero, List.nil_append,
    List.append_assoc, List.cons_append] at hc
  refine ⟨?_, ?_⟩
  · rw [Buf.Term, hc]
    simp
  · rw [Buf.str, hc, cstr_append_zero hp]

/-- **The line comes back in upper case** exactly if both first pieces have it
whole, or the client's array had the rest. -/
theorem comes_back_iff (string buf : Buf UInt8 size) (line : Line size) (there back : Composition size) :
    echo string buf line.chars there back = some line.upper ↔ ComesBack buf line there back := by
  obtain ⟨s, hs, hsc⟩ := Echo.read_line_spec string line
  obtain ⟨t, hserve, hlen⟩ := reply_eq line (0 :: string.chars.drop (line.chars.length + 2))
    (by rw [← hsc, s.size]) (first_le there)
  obtain ⟨b, hb, -⟩ := buf.exists_store 0 ((line.upper.take (first there) ++ 0 :: t).take (first back))
    (by rw [List.length_take]; omega)
  have hp : (0 : UInt8) ∉ line.upper.take (first there) := fun h0 => line.upper_nz (List.mem_of_mem_take h0)
  have hplen : (line.upper.take (first there)).length = min (first there) line.chars.length := by
    rw [List.length_take, Line.length_upper]
  have hecho : echo string buf line.chars there back = if b.Term then some b.str else none := by
    simp only [echo, hs, recv_eq, hsc, hserve, hb, Option.bind_eq_bind, Option.bind_some, guard]
    split
    · rfl
    · rfl
  rw [hecho, Option.ite_none_right_eq_some, Option.some_inj, ComesBack]
  by_cases hm : first back ≤ (line.upper.take (first there)).length
  · obtain ⟨hterm, hstr⟩ := print_short hp hm hb
    rw [hplen] at hm
    have hrest : line.upper.take (first back) ++ cstr (buf.chars.drop (first back)) = line.upper ↔
        cstr (buf.chars.drop (first back)) = line.upper.drop (first back) := by
      constructor
      · exact fun h => List.append_cancel_left (h.trans (List.take_append_drop (first back) line.upper).symm)
      · exact fun h => by rw [h, List.take_append_drop]
    rw [hterm, hstr, List.take_take, min_eq_left (by omega), hrest, or_iff_right (by omega),
      and_iff_right (show first back ≤ first there by omega),
      and_iff_right (show first back ≤ line.chars.length by omega)]
  · obtain ⟨hterm, hstr⟩ := print_long hp (Nat.lt_of_not_le hm) hb
    rw [hplen] at hm
    rw [and_iff_right hterm, hstr, List.take_eq_self_iff, Line.length_upper, or_iff_left (by omega)]
    omega

/-- The line `hi`. -/
def hi : Line size := ⟨[104, 105], by decide, by decide, by decide⟩

/-- Both streams come in one piece. -/
theorem comes_back_whole : echo (Buf.zeros UInt8 size) (Buf.zeros UInt8 size) hi.chars
    (Composition.single size (by decide)) (Composition.single size (by decide)) = some hi.upper :=
  (comes_back_iff _ _ hi _ _).mpr (.inl (by decide))

/-- The first byte on its own. -/
def oneByte : Composition size := ⟨[1, 127], by decide, by decide⟩

/-- **The server answers what it has got**: of `hi`, whose first byte comes first,
the client prints `H`. -/
theorem cut_short : ¬ echo (Buf.zeros UInt8 size) (Buf.zeros UInt8 size) hi.chars oneByte
    (Composition.single size (by decide)) = some hi.upper := by
  decide +kernel

end EchoTCP
end Autumn
