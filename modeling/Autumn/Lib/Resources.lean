/-
# Resources that need others, and modules that take them

`needs r` are the resources that have to be held as long as `r` is: `r` can be
taken when it is not held and they are, and given back when it is held and
nothing held needs it. Cleaning up is a list of resources to give back, each
with a flag that says whether to (`giveAll`): if the flags are right and no
resource comes before one that needs it, all of them are given back
(`giveAll_eq`).

A module is loaded and unloaded, any number of times. Its `init` takes resources
and may fail, and the module is gone then, with its variables, but what it has
not given back stays held; its `exit` is not called.

Key definitions: `take`, `give`, `giveAll`, `Loadable`, `lifecycle`.
Key theorems: `take_eq`, `giveAll_eq`, `Loadable.reachable_clean`.
-/
import Mathlib.Data.Finset.Basic
import Autumn.Lib.System

namespace Autumn
namespace Resources

section Taking

variable {R : Type*} [DecidableEq R] (needs : R → Finset R)

/-- `r` is taken. -/
def take (held : Finset R) (r : R) : Option (Finset R) :=
  if r ∉ held ∧ needs r ⊆ held then some (insert r held) else none

/-- `r` is given back. -/
def give (held : Finset R) (r : R) : Option (Finset R) :=
  if r ∈ held ∧ ∀ x ∈ held, r ∉ needs x then some (held.erase r) else none

/-- The resources of a list are given back in its order, where their flags are
set. -/
def giveAll (held : Finset R) (rs : List (R × Bool)) : Option (Finset R) :=
  rs.foldlM (fun held p => if p.2 then give needs held p.1 else some held) held

variable {needs} {held : Finset R} {r : R}

theorem take_eq (hr : r ∉ held) (hn : needs r ⊆ held) : take needs held r = some (insert r held) := if_pos ⟨hr, hn⟩

theorem give_eq (hr : r ∈ held) (hn : ∀ x ∈ held, r ∉ needs x) : give needs held r = some (held.erase r) :=
  if_pos ⟨hr, hn⟩

/-- **Cleaning up.** If exactly the flags of what is held are set, and nothing that
stays or comes later needs a resource of the list, the list is given back. -/
theorem giveAll_eq : ∀ {rs : List (R × Bool)} {held : Finset R}, (rs.map Prod.fst).Nodup →
    (∀ p ∈ rs, (p.2 = true ↔ p.1 ∈ held)) → (∀ p ∈ rs, p.1 ∉ needs p.1) →
    rs.Pairwise (fun p q => p.1 ∉ needs q.1) → (∀ x ∈ held, x ∉ rs.map Prod.fst → ∀ p ∈ rs, p.1 ∉ needs x) →
    giveAll needs held rs = some (held \ (rs.map Prod.fst).toFinset)
  | [], held, _, _, _, _, _ => by simp [giveAll]
  | (r, b) :: rs, held, hnodup, hflag, hirr, hord, hstay => by
    rw [List.map_cons, List.nodup_cons] at hnodup
    obtain ⟨hord, hords⟩ := List.pairwise_cons.mp hord
    have hfree : ∀ x ∈ held, r ∉ needs x := by
      intro x hx
      by_cases hmem : x ∈ ((r, b) :: rs).map Prod.fst
      · rw [List.map_cons, List.mem_cons, List.mem_map] at hmem
        rcases hmem with rfl | ⟨q, hq, rfl⟩
        · exact hirr _ List.mem_cons_self
        · exact hord q hq
      · exact hstay x hx hmem _ List.mem_cons_self
    have hstep : (if b then give needs held r else some held) = some (held.erase r) := by
      have hb : b = true ↔ r ∈ held := hflag _ List.mem_cons_self
      split
      · rename_i h
        exact give_eq (hb.mp h) hfree
      · rename_i h
        rw [Finset.erase_eq_of_notMem fun hr => h (hb.mpr hr)]
    have ih : giveAll needs (held.erase r) rs = some (held.erase r \ (rs.map Prod.fst).toFinset) := by
      apply giveAll_eq hnodup.2
      · intro p hp
        have hne : p.1 ≠ r := fun h => hnodup.1 (List.mem_map.mpr ⟨p, hp, h⟩)
        rw [hflag p (List.mem_cons_of_mem _ hp), Finset.mem_erase, and_iff_right hne]
      · exact fun p hp => hirr p (List.mem_cons_of_mem _ hp)
      · exact hords
      · intro x hx hmem p hp
        obtain ⟨hne, hx⟩ := Finset.mem_erase.mp hx
        refine hstay x hx ?_ p (List.mem_cons_of_mem _ hp)
        rw [List.map_cons, List.mem_cons, not_or]
        exact ⟨hne, hmem⟩
    calc giveAll needs held ((r, b) :: rs)
        = (if b then give needs held r else some held).bind fun held => giveAll needs held rs := rfl
      _ = giveAll needs (held.erase r) rs := by rw [hstep, Option.bind_some]
      _ = some (held \ (((r, b) :: rs).map Prod.fst).toFinset) := by
        rw [ih, List.map_cons, List.toFinset_cons, Finset.erase_sdiff_comm, Finset.sdiff_insert]

end Taking

/-! ### Modules -/

/-- `init` gives the module's variables, unless it fails, and what is held
afterwards; the kernel's answers to its calls are a `κ`. -/
structure Loadable (R κ σ : Type*) where
  init : κ → Finset R → Option (Option σ × Finset R)
  exit : σ → Finset R → Option (Finset R)

variable {R κ σ : Type*}

/-- The variables of the module, if it is loaded, and what is held. -/
structure State (R σ : Type*) where
  vars : Option σ
  held : Finset R

/-- What one does to a module. -/
inductive Action (κ : Type*)
  | load (answers : κ)
  | unload

namespace Loadable

/-- A module can be loaded when it is not, and unloaded when it is. -/
def step (M : Loadable R κ σ) (s : State R σ) : Action κ → Option (State R σ)
  | .load answers => if s.vars.isSome then none else (M.init answers s.held).map fun p => ⟨p.1, p.2⟩
  | .unload => s.vars.bind fun vars => (M.exit vars s.held).map fun held => ⟨none, held⟩

/-- The module's life: at first nothing is held. -/
def lifecycle (M : Loadable R κ σ) : System (State R σ) (Action κ) where
  init s := s = ⟨none, ∅⟩
  step := M.step

/-- Nothing is held, or the module is loaded and holds what it is to hold. -/
def Clean (Holds : σ → Finset R → Prop) (s : State R σ) : Prop :=
  match s.vars with
  | none => s.held = ∅
  | some vars => Holds vars s.held

variable {M : Loadable R κ σ} {Holds : σ → Finset R → Prop}

/-- **The module rule.** If `init` gives all back where it fails, and `exit` gives
all back of what it holds where it does not, nothing is ever left behind, and no
load or unload goes wrong. -/
theorem reachable_clean
    (hinit : ∀ answers, ∃ vars held, M.init answers ∅ = some (vars, held) ∧ Clean Holds ⟨vars, held⟩)
    (hexit : ∀ vars held, Holds vars held → M.exit vars held = some ∅) {s : State R σ}
    (h : M.lifecycle.Reachable s) : Clean Holds s ∧ (s.vars = none → ∀ answers, ∃ t, M.step s (.load answers) = some t) ∧
      (s.vars ≠ none → ∃ t, M.step s .unload = some t) := by
  have hload : ∀ {s : State R σ} answers, Clean Holds s → s.vars = none →
      ∃ t, M.step s (.load answers) = some t ∧ Clean Holds t := by
    rintro ⟨vars, held⟩ answers hc rfl
    obtain rfl : held = ∅ := hc
    obtain ⟨vars', held', heq, hc'⟩ := hinit answers
    exact ⟨⟨vars', held'⟩, by simp [step, heq], hc'⟩
  have hunload : ∀ {s : State R σ}, Clean Holds s → s.vars ≠ none → ∃ t, M.step s .unload = some t ∧ Clean Holds t := by
    rintro ⟨_ | vars, held⟩ hc hv
    · exact absurd rfl hv
    · exact ⟨⟨none, ∅⟩, by simp [step, hexit vars held hc], rfl⟩
  have hclean : Clean Holds s := by
    refine h.invariant (fun s hs => ?_) (fun s a t hc _ hst => ?_)
    · rw [show s = ⟨none, ∅⟩ from hs]
      rfl
    · cases a with
      | load answers =>
        by_cases hv : s.vars = none
        · obtain ⟨u, hu, hcu⟩ := hload answers hc hv
          exact Option.some.inj (hu.symm.trans hst) ▸ hcu
        · have hnone : M.step s (.load answers) = none := by
            rw [step, if_pos (Option.isSome_iff_ne_none.mpr hv)]
          cases hnone.symm.trans hst
      | unload =>
        by_cases hv : s.vars = none
        · have hnone : M.step s .unload = none := by rw [step, hv, Option.bind_none]
          cases hnone.symm.trans hst
        · obtain ⟨u, hu, hcu⟩ := hunload hc hv
          exact Option.some.inj (hu.symm.trans hst) ▸ hcu
  refine ⟨hclean, fun hv answers => ?_, fun hv => ?_⟩
  · obtain ⟨t, ht, -⟩ := hload answers hclean hv
    exact ⟨t, ht⟩
  · obtain ⟨t, ht, -⟩ := hunload hclean hv
    exact ⟨t, ht⟩

end Loadable

end Resources
end Autumn
