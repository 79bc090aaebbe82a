/-
# Putting the two parts together again

`dirn` and `basen` find the last slash of the normal form by different loops,
one cuts there, the other copies from there; the two parts are the whole
(`dirn_basen_split`).

Key theorem: `dirn_basen_split`.
-/
import Autumn.Paths.Dirn

namespace Autumn
namespace Paths

open Pathname

/-- What is claimed of the two parts `d` and `b` of `p`, of normal form `q`. -/
structure Parts (p q d b : List UInt8) : Prop where
  join : slash ∈ q → q ≠ [slash] → d ++ (if d = [slash] then [] else [slash]) ++ b = q
  single : q ≠ [] → slash ∉ q → d = [period] ∧ b = q
  base : slash ∈ b → p ≠ [] ∧ ∀ c ∈ p, c = slash

theorem parts_normal (p : List UInt8) :
    Parts p (normal slash p) (dirname slash period (normal slash p)) (basename slash period p) where
  join := dirname_append_basename p
  single hne hmem := ⟨dirname_of_not_mem hmem, basename_of_not_mem p hne hmem⟩
  base h := not_not.mp fun h0 => sep_not_mem_basename (by decide) h0 h

/-- **`dirn` and `basen` split a path without loss**, each in its own memory. -/
theorem dirn_basen_split (C : Strcmp) (m m' : Memory) (p : List UInt8) (hp : (0 : UInt8) ∉ p) (hlen : p.length ≤ 4095)
    (hcomp : ShortComponents p) (hm : m.ZeroBuf p) (hm' : m'.ZeroBehind p) :
    ∃ d b, returned (dirn C m p) = some d ∧ returned (basen C m' p) = some b ∧ Parts p (normal slash p) d b := by
  obtain ⟨s, hs, hS, -⟩ := dirn_spec C m hp hlen hm
  obtain ⟨t, ht, hT, -⟩ := basen_spec C m' hp hlen hcomp hm'
  refine ⟨_, _, ?_, ?_, parts_normal p⟩
  · rw [hs, hS.returned]
  · rw [ht, hT.returned]

theorem dirn_basen_split_slashes : ∃ d b, returned (dirn Strcmp.sign Memory.zeros slashes) = some d ∧
    returned (basen Strcmp.sign Memory.zeros slashes) = some b ∧ Parts slashes (normal slash slashes) d b :=
  dirn_basen_split Strcmp.sign Memory.zeros Memory.zeros slashes (by decide) (by decide)
    (fun _ h _ => h.length_le.trans_lt (by decide)) ⟨by decide, rfl⟩ ⟨by decide, rfl, rfl⟩

end Paths
end Autumn
