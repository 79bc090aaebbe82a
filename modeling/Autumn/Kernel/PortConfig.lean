/-
# What the port filter shows of its port (`block_port_module/block_port_module.c`)

`foo_show` prints `foo`, `foo_store` reads a number. What is shown can be stored
again, in this module or in another one, and gives the same `foo`; a number that is
stored is shown as it was written exactly if it fits an `int` (`shown_iff_fits`).
Over every history of writes the last one with a number in it counts, whatever
stands in the others (`configured_eq`).

Key definitions: `foo_show`, `configured`, `lastNumber`.
Key theorems: `store_show`, `configured_eq`, `shown_iff_fits`.
-/
import Autumn.Kernel.PortFilter

namespace Autumn
namespace PortFilter

open Sscanf

/-- `foo_show`: `sprintf(buf, "%d\n", foo)`. -/
def foo_show (foo : Int32) : List UInt8 := text foo.toInt ++ [10]

/-- `foo` after the writes; it is 0 when the module is loaded. -/
def configured (writes : List (List UInt8)) : Int32 := writes.foldl foo_store 0

/-- The number of the last write in which there is one. -/
def lastNumber (writes : List (List UInt8)) : Option ℤ := (writes.filterMap scan_d).getLast?

/-- **What is shown can be stored again.** -/
theorem store_show (foo foo' : Int32) : foo_store foo' (foo_show foo) = foo := by
  rw [foo_store, foo_show, scan_d_text]
  exact Int32.ofInt_toInt foo

/-- **The last number counts.** -/
theorem configured_eq (writes : List (List UInt8)) : configured writes = Int32.ofInt ((lastNumber writes).getD 0) := by
  induction writes using List.reverseRecOn with
  | nil => rfl
  | append_singleton ws w ih =>
    have hfold : configured (ws ++ [w]) = foo_store (configured ws) w := by
      rw [configured, List.foldl_concat, configured]
    rw [hfold, foo_store, lastNumber, List.filterMap_append]
    cases hw : scan_d w with
    | none =>
      have hnone : [w].filterMap scan_d = [] := by simp [hw]
      rw [hnone, List.append_nil]
      exact ih
    | some z =>
      have hsome : [w].filterMap scan_d = [z] := by simp [hw]
      rw [hsome, List.getLast?_concat, Option.getD_some]

/-- **A number is shown as it was written** exactly if it fits an `int`; and what is
shown after any writes, written to a filter after any others, makes it judge every
packet as the first one does. -/
theorem shown_iff_fits (writes writes' : List (List UInt8)) (z : ℤ) :
    (foo_show (configured (writes ++ [text z ++ [10]])) = text z ++ [10] ↔ -2 ^ 31 ≤ z ∧ z < 2 ^ 31) ∧
    ∀ skb, hook_func (configured (writes' ++ [foo_show (configured writes)])) skb = hook_func (configured writes) skb := by
  constructor
  · have hlast : lastNumber (writes ++ [text z ++ [10]]) = some z := by
      have hz : [text z ++ [10]].filterMap scan_d = [z] := by simp [scan_d_text]
      rw [lastNumber, List.filterMap_append, hz, List.getLast?_concat]
    rw [configured_eq, hlast, Option.getD_some, foo_show]
    constructor
    · intro h
      have hz := text_injective (List.append_cancel_right h)
      rw [← hz]
      exact ⟨Int32.le_toInt _, Int32.toInt_lt _⟩
    · rintro ⟨hlo, hhi⟩
      rw [Int32.toInt_ofInt_of_le hlo hhi]
  · intro skb
    rw [configured, List.foldl_concat, store_show]

end PortFilter
end Autumn
