/-
# Going up a path by calls of `dirn`

A caller that takes `basen` of a path, goes on with what `dirn` returns, and so on,
gets the components of the path one by one from the end, and comes to `/` or `.`
after the first one (`climb_components`): the results of `dirn` are paths again that
both functions split as they should.

Every argument is a copy: `dirn` copies its argument into the block that holds its
last result. The calls find memory as in `Autumn.Paths.Dirn` and
`Autumn.Paths.Basen`.

Key definition: `climb`.
Key theorems: `proper_parent`, `climb_eq`, `climb_components`.
-/
import Autumn.Lib.Ancestors
import Autumn.Paths.Dirn
import Autumn.Paths.Basen
import Autumn.Paths.Leftovers

namespace Autumn
namespace Paths

open Pathname

/-- What `k` calls of `dirn` lead to. -/
def climb (C : Strcmp) (m : ℕ → Memory) (p : List UInt8) : ℕ → Option (List UInt8)
  | 0 => some p
  | k + 1 => (climb C m p k).bind fun q => returned (dirn C (m k) q)

theorem proper_single {x : UInt8} (h : x ≠ 0) : Proper [x] where
  nz := fun hm => h (List.mem_singleton.mp hm).symm
  length := by simp
  short := fun _ hc _ => hc.length_le.trans_lt (by simp)

/-- **What precedes the last component** is a path again. -/
theorem proper_parent {p : List UInt8} (h : Proper p) : Proper (parent slash period p) := by
  rcases parent_cases slash period p with hup | hup | hup
  · rw [hup]
    exact proper_single (by decide)
  · rw [hup]
    exact proper_single (by decide)
  · have hsub : ∀ x ∈ collapse slash p, x ∈ p := by
      intro x hx
      cases p with
      | nil => exact hx
      | cons c l => exact List.mem_cons.mpr ((List.mem_cons.mp hx).imp_right mem_of_mem_squeeze)
    have hlen : (collapse slash p).length ≤ p.length := by
      cases p with
      | nil => exact le_rfl
      | cons c l => exact Nat.succ_le_succ (length_squeeze_le slash c l)
    exact ⟨fun hm => h.nz (hsub 0 (hup.subset hm)), (hup.length_le.trans hlen).trans h.length,
      fun c hc hs => h.short c (infix_of_collapse hs (hc.trans hup.isInfix)) hs⟩

theorem proper_ancestor {p : List UInt8} (h : Proper p) : ∀ k, Proper (ancestor slash period p k)
  | 0 => h
  | k + 1 => by
    rw [ancestor_succ]
    exact proper_parent (proper_ancestor h k)

theorem climb_eq (C : Strcmp) (m : ℕ → Memory) {p : List UInt8} (hp : Proper p)
    (hm : ∀ k, (m k).ZeroBuf (ancestor slash period p k)) : ∀ k, climb C m p k = some (ancestor slash period p k)
  | 0 => rfl
  | k + 1 => by
    have hk := proper_ancestor hp k
    rw [climb, climb_eq C m hp hm k, Option.bind_some, ancestor_succ]
    obtain ⟨t, ht, hT, -⟩ := dirn_spec C (m k) hk.nz hk.length (hm k)
    rw [ht, hT.returned, parent]

/-- **Going up a path** gives its components from the last to the first, and ends at
`/` or at `.`. -/
theorem climb_components (C : Strcmp) (m m' : ℕ → Memory) (p : List UInt8) (hp : Proper p)
    (hm : ∀ k, (m k).ZeroBuf (ancestor slash period p k)) (hm' : ∀ k, (m' k).ZeroBehind (ancestor slash period p k)) :
    (∀ k < (components slash p).length, ∃ q, climb C m p k = some q ∧
      returned (basen C (m' k) q) = (components slash p)[(components slash p).length - 1 - k]?) ∧
    (components slash p ≠ [] → climb C m p (components slash p).length = some (top slash period p)) := by
  refine ⟨fun k hk => ⟨_, climb_eq C m hp hm k, ?_⟩, fun hne => ?_⟩
  · have hq := proper_ancestor hp k
    obtain ⟨t, ht, hT, -⟩ := basen_spec C (m' k) hq.nz hq.length hq.short (hm' k)
    rw [ht, hT.returned, basename_ancestor period p hk]
  · rw [climb_eq C m hp hm, ancestor_top period p hne]

/-- From `//a//bc/` over `/a` to `/`. -/
theorem climb_components_slashes : climb Strcmp.sign (fun _ => Memory.zeros) slashes 2 = some [slash] := by
  have hp : Proper slashes := ⟨by decide, by decide, fun _ h _ => h.length_le.trans_lt (by decide)⟩
  have hbehind : ∀ k, Memory.zeros.ZeroBehind (ancestor slash period slashes k) := fun k =>
    zeroBehind_zeros (length_basename_lt (proper_ancestor hp k).short)
  exact (climb_components Strcmp.sign _ (fun _ => Memory.zeros) slashes hp (fun k => (hbehind k).zeroBuf) hbehind).2
    (by decide)

end Paths
end Autumn
