/-
# The IP header checksum (`RAW/ethernet/client.c`)

`ccsum` adds the ten 16-bit words of a header in 32 bits, adds the upper half
of the sum to the sum once, and returns the complement of the low 16 bits. The
checksum wants the one's-complement sum. One fold gives it for a header whose
words' sum, folded, is a word again (`FoldsOnce`); for any other the fold
carries once more, the carry is lost, and what is returned is one too large
(`ccsum_rfc1071_iff`).

Key definitions: `ccsum`, `Rfc1071`, `FoldsOnce`.
Key theorems: `toNat_ccsum`, `ocSum_setCheck`, `ccsum_rfc1071_iff`.
-/
import Mathlib.Algebra.Group.Nat.Defs
import Mathlib.Algebra.Order.BigOperators.Group.List
import Mathlib.Data.UInt
import Autumn.Lib.OnesComplement

namespace Autumn
namespace Checksum

open OnesComplement

/-! ### The program -/

/-- `*ihdr`, read as ten `unsigned short`. -/
abbrev Header := Vector UInt16 10

def ccsum (ihdr : Header) : UInt16 :=
  let csum := ihdr.toList.foldl (fun csum w => csum + w.toUInt32) (0 : UInt32)
  let csum := csum + (csum >>> 16)
  (~~~csum &&& 0xffff).toUInt16

/-- `ihdr->check = c`. -/
def setCheck (ihdr : Header) (c : UInt16) : Header := ihdr.set 5 c

/-- The header `main` builds, before it sets `check`. -/
def ihdr : Header := #v[0x0045, 0x3c00, 0x3905, 0, 0x1140, 0, 0xa8c0, 0x0701, 0xa8c0, 0x0601]

def words (ihdr : Header) : List ℕ := ihdr.toList.map UInt16.toNat

/-- What is claimed: `c` is the complement of the one's-complement sum of the
words, and with `c` in the check field that sum is `0xffff`. -/
def Rfc1071 (ihdr : Header) (c : UInt16) : Prop :=
  c.toNat = 0xffff - ocSum 0x10000 (words ihdr) ∧ ocSum 0x10000 (words (setCheck ihdr c)) = 0xffff

instance (ihdr : Header) (c : UInt16) : Decidable (Rfc1071 ihdr c) := inferInstanceAs (Decidable (_ ∧ _))

/-- The words' sum, with its upper half added to its lower half, is a word. -/
def FoldsOnce (ihdr : Header) : Prop := (words ihdr).sum % 0x10000 + (words ihdr).sum / 0x10000 < 0x10000

instance (ihdr : Header) : Decidable (FoldsOnce ihdr) := inferInstanceAs (Decidable (_ < _))

/-! ### The 32-bit arithmetic -/

theorem words_lt (ihdr : Header) : ∀ a ∈ words ihdr, a < 0x10000 := by
  intro a ha
  obtain ⟨w, -, rfl⟩ := List.mem_map.mp ha
  exact w.toNat_lt

theorem sum_words_le (ihdr : Header) : (words ihdr).sum ≤ 10 * 0xffff := by
  have h := List.sum_le_card_nsmul (words ihdr) 0xffff fun a ha => Nat.le_of_lt_succ (words_lt ihdr a ha)
  rwa [words, List.length_map, Vector.length_toList, Nat.nsmul_eq_mul] at h

theorem toNat_foldl : ∀ (l : List UInt16) (csum : UInt32), csum.toNat + (l.map UInt16.toNat).sum < 2 ^ 32 →
    (l.foldl (fun csum w => csum + w.toUInt32) csum).toNat = csum.toNat + (l.map UInt16.toNat).sum
  | [], csum, _ => rfl
  | w :: l, csum, h => by
    rw [List.map_cons, List.sum_cons] at h
    have hw : (csum + w.toUInt32).toNat = csum.toNat + w.toNat := by
      rw [UInt32.toNat_add, UInt16.toNat_toUInt32, Nat.mod_eq_of_lt (by omega)]
    rw [List.foldl_cons, toNat_foldl l _ (by omega), hw, List.map_cons, List.sum_cons, Nat.add_assoc]

theorem toNat_not_and (c : UInt32) : (~~~c &&& 0xffff).toUInt16.toNat = 0xffff - c.toNat % 0x10000 := by
  have hc := c.toNat_lt
  rw [UInt32.toNat_toUInt16, UInt32.toNat_and, UInt32.toNat_not, show (0xffff : UInt32).toNat = 2 ^ 16 - 1 from rfl,
    Nat.and_two_pow_sub_one_eq_mod]
  simp only [UInt32.size] at *
  omega

theorem toNat_ccsum (ihdr : Header) :
    (ccsum ihdr).toNat = 0xffff - fold 0x10000 (words ihdr).sum % 0x10000 := by
  have hs := sum_words_le ihdr
  set csum := ihdr.toList.foldl (fun csum w => csum + w.toUInt32) (0 : UInt32) with hc
  have hsum : csum.toNat = (words ihdr).sum := by
    rw [hc, toNat_foldl ihdr.toList 0 (by rw [← words]; simp; omega), ← words]
    simp
  have hcarry : (csum + (csum >>> 16)).toNat = (words ihdr).sum + (words ihdr).sum / 0x10000 := by
    rw [UInt32.toNat_add, UInt32.toNat_shiftRight, hsum, Nat.shiftRight_eq_div_pow]
    simp
    omega
  calc (~~~(csum + (csum >>> 16)) &&& 0xffff).toUInt16.toNat
      = 0xffff - (csum + (csum >>> 16)).toNat % 0x10000 := toNat_not_and _
    _ = 0xffff - ((words ihdr).sum + (words ihdr).sum / 0x10000) % 0x10000 := by rw [hcarry]
    _ = 0xffff - fold 0x10000 (words ihdr).sum % 0x10000 := by rw [fold, Nat.mod_add_mod]

/-! ### The check field -/

theorem sum_setCheck {ihdr : Header} (h : ihdr[5] = 0) (c : UInt16) :
    (words (setCheck ihdr c)).sum = (words ihdr).sum + c.toNat := by
  have hset : words (setCheck ihdr c) = (words ihdr).set 5 c.toNat := by
    rw [words, setCheck, Vector.toList_set, List.map_set, ← words]
  have hlen : 5 < (words ihdr).length := by rw [words, List.length_map, Vector.length_toList]; decide
  have hzero : (words ihdr)[5] = 0 := by simpa [words] using congrArg UInt16.toNat h
  have hsplit := List.sum_take_add_sum_drop (words ihdr) 5
  rw [List.drop_eq_getElem_cons hlen, List.sum_cons, hzero] at hsplit
  rw [hset, List.sum_set, if_pos hlen]
  omega

/-- With a check word in place, the sum is `0xffff` exactly if the word is a
negative of the others' sum. -/
theorem ocSum_setCheck {ihdr : Header} (h : ihdr[5] = 0) {c : UInt16} (hc : (words ihdr).sum + c.toNat ≠ 0) :
    ocSum 0x10000 (words (setCheck ihdr c)) = 0xffff ↔ 0xffff ∣ (words ihdr).sum + c.toNat := by
  rw [ocSum_eq_rep (by decide) (words_lt _), sum_setCheck h]
  exact rep_eq_iff (by decide) hc

/-- **`ccsum` is the RFC 1071 checksum exactly where one fold is enough.** -/
theorem ccsum_rfc1071_iff (ihdr : Header) (h : ihdr[5] = 0) : Rfc1071 ihdr (ccsum ihdr) ↔ FoldsOnce ihdr := by
  have hs := sum_words_le ihdr
  have hc := toNat_ccsum ihdr
  have hfold : (words ihdr).sum % 0x10000 + (words ihdr).sum / 0x10000 = fold 0x10000 (words ihdr).sum := rfl
  have hmul := fold_add_mul (B := 0x10000) (by decide) (words ihdr).sum
  constructor
  · rintro ⟨-, h2⟩
    by_contra hge
    rw [FoldsOnce, hfold] at hge
    have hdvd := (ocSum_setCheck h (by omega)).mp h2
    -- one word and no more is missing to a multiple
    omega
  · intro h1
    rw [FoldsOnce, hfold] at h1
    refine ⟨?_, (ocSum_setCheck h ?_).mpr ?_⟩
    · calc (ccsum ihdr).toNat = 0xffff - fold 0x10000 (words ihdr).sum := by rw [hc, Nat.mod_eq_of_lt h1]
        _ = 0xffff - rep 0x10000 (words ihdr).sum := by rw [fold_eq_rep (by decide) h1]
        _ = 0xffff - ocSum 0x10000 (words ihdr) := by rw [ocSum_eq_rep (by decide) (words_lt ihdr)]
    · omega
    · omega

/-- `main`'s header is one that folds once. -/
example : FoldsOnce ihdr := by decide

/-- `main`'s header for the destination 192.168.244.32; its words' sum is `0x1ffff`. -/
def carriesTwice : Header := ihdr.set 9 0x20f4

theorem ccsum_carriesTwice : ¬ ∀ ihdr : Header, ihdr[5] = 0 → Rfc1071 ihdr (ccsum ihdr) := by
  intro h
  have hr := h carriesTwice rfl
  revert hr
  decide

theorem ccsum_rfc1071_iff_ihdr : ihdr[5] = 0 ∧ (Rfc1071 ihdr (ccsum ihdr) ↔ FoldsOnce ihdr) :=
  ⟨rfl, ccsum_rfc1071_iff ihdr rfl⟩

end Checksum
end Autumn
