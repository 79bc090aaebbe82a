/-
# Going up from a path

The components of a path are its maximal runs of characters that are no
separators, and the normal form has the same ones. What precedes the last one is
the path of the others, absolute or relative like the path itself (`parent_spec`).
So going up again and again takes the components off the end one by one, and ends
at the root or at the current directory (`ancestor_spec`, `ancestor_top`).

Key definitions: `components`, `Absolute`, `parent`, `ancestor`.
Key theorems: `components_normal`, `parent_spec`, `ancestor_spec`, `ancestor_top`,
`infix_of_collapse`.
-/
import Mathlib.Logic.Function.Iterate
import Autumn.Lib.Path
import Autumn.Lib.Tokens

namespace Autumn
namespace Pathname

variable {α : Type*} [DecidableEq α] {sep dot : α}

/-- The components. -/
def components (sep : α) (p : List α) : List (List α) := pieces (· == sep) p

def Absolute (sep : α) (p : List α) : Prop := p.head? = some sep

instance (p : List α) : Decidable (Absolute sep p) := inferInstanceAs (Decidable (_ = _))

/-- What precedes the last component. -/
def parent (sep dot : α) (p : List α) : List α := dirname sep dot (normal sep p)

/-- Going up `k` times. -/
def ancestor (sep dot : α) (p : List α) (k : ℕ) : List α := (parent sep dot)^[k] p

/-- Where it ends. -/
def top (sep dot : α) (p : List α) : List α := if Absolute sep p then [sep] else [dot]

theorem ancestor_succ (p : List α) (k : ℕ) : ancestor sep dot p (k + 1) = parent sep dot (ancestor sep dot p k) :=
  Function.iterate_succ_apply' _ _ _

/-! ### The components -/

theorem components_split (d : List α) {c : List α} (hc : sep ∉ c) (hne : c ≠ []) :
    components sep (d ++ sep :: c) = components sep d ++ [c] := by
  have hno : ∀ x ∈ c, (x == sep) = false := fun x hx => by simpa using fun h : x = sep => hc (h ▸ hx)
  rw [components, pieces_append_delim d (by simp), pieces_single hno hne]
  rfl

theorem components_concat_sep (p : List α) : components sep (p ++ [sep]) = components sep p := by
  rw [components, pieces_append_delim p (by simp), pieces_nil, List.append_nil]
  rfl

/-- Behind `a`, whose last character is `prev`, the separators that are dropped
make no difference. -/
theorem components_squeeze (sep : α) : ∀ (l a : List α) (prev : α), (a = [] ∨ a.getLast? = some prev) →
    components sep (a ++ squeeze sep prev l) = components sep (a ++ l)
  | [], a, prev, _ => rfl
  | c :: l, a, prev, ha => by
    rw [squeeze]
    by_cases hc : c = sep ∧ prev = sep
    · obtain ⟨rfl, rfl⟩ := hc
      have ih : components prev (squeeze prev prev l) = components prev l :=
        components_squeeze prev l [] prev (.inl rfl)
      have hsep : ∀ b m, components prev (b ++ prev :: m) = components prev b ++ components prev m := fun b m =>
        pieces_append_delim b (by simp) m
      rw [if_pos ⟨rfl, rfl⟩]
      rcases ha with rfl | ha
      · rw [List.nil_append, List.nil_append, ih]
        exact (hsep [] l).symm
      · obtain ⟨b, rfl⟩ := List.getLast?_eq_some_iff.mp ha
        rw [List.append_assoc, List.append_assoc, List.singleton_append, List.singleton_append, hsep, hsep, ih]
        exact congrArg _ (hsep [] l).symm
    · rw [if_neg hc]
      have ih := components_squeeze sep l (a ++ [c]) c (.inr (by simp))
      simpa using ih

/-- **The normal form has the components of the path.** -/
theorem components_normal (p : List α) : components sep (normal sep p) = components sep p := by
  have hcollapse : components sep (collapse sep p) = components sep p := by
    cases p with
    | nil => rfl
    | cons c l => exact components_squeeze sep l [c] c (.inr rfl)
  rw [normal, trim]
  split
  · rename_i h
    obtain ⟨q, hq⟩ := List.getLast?_eq_some_iff.mp h.1
    rw [hq, List.dropLast_concat, ← components_concat_sep, ← hq, hcollapse]
  · exact hcollapse

theorem absolute_normal (p : List α) : Absolute sep (normal sep p) ↔ Absolute sep p := by
  have hcollapse : (collapse sep p).head? = p.head? := by cases p <;> rfl
  rw [Absolute, Absolute, ← hcollapse, normal, trim]
  split
  · rename_i h
    obtain ⟨q, hq⟩ := List.getLast?_eq_some_iff.mp h.1
    cases q with
    | nil => simp [hq] at h
    | cons x q => rw [hq, List.dropLast_concat]; simp
  · rfl

/-- **One step up** from a path with a component. -/
theorem parent_spec {p : List α} {cs : List (List α)} {c : List α} (h : components sep p = cs ++ [c]) :
    basename sep dot p = c ∧ (cs = [] → parent sep dot p = top sep dot p) ∧
      (cs ≠ [] → components sep (parent sep dot p) = cs ∧ (Absolute sep (parent sep dot p) ↔ Absolute sep p)) := by
  rw [← components_normal] at h
  have habs : Absolute sep (normal sep p) ↔ Absolute sep p := absolute_normal p
  cases shape sep dot p with
  | empty _ hq =>
    rw [hq] at h
    simp [components] at h
  | root _ _ hq _ =>
    rw [hq, ← List.nil_append [sep], components_concat_sep] at h
    simp [components] at h
  | component hne hmem hb =>
    have hno : ∀ x ∈ normal sep p, (x == sep) = false := fun x hx => by simpa using fun he : x = sep => hmem (he ▸ hx)
    rw [components, pieces_single hno hne] at h
    obtain ⟨rfl, hlast⟩ := List.append_inj' (show [] ++ [normal sep p] = cs ++ [c] from h) rfl
    have hrel : ¬ Absolute sep p := fun ha => hmem (List.mem_of_mem_head? (habs.mpr ha))
    refine ⟨hb.trans (List.cons.inj hlast).1, fun _ => ?_, fun hcs => absurd rfl hcs⟩
    rw [parent, dirname_of_not_mem hmem, top, if_neg hrel]
  | split d c' hq hne hc hlast hb =>
    rw [hq, components_split d hc hne] at h
    obtain ⟨hcs, hcc⟩ := List.append_inj' h rfl
    have hup : parent sep dot p = if d = [] then [sep] else d := by
      rw [parent, hq, dirname_of_split hc (.inr hne)]
    rw [hq] at habs
    refine ⟨hb.trans (List.cons.inj hcc).1, fun hnil => ?_, fun hcons => ?_⟩
    · -- what precedes the last separator has no component, so it is empty
      have hd : d = [] := by
        by_contra hd
        have hall := pieces_eq_nil_iff.mp (hcs.trans hnil)
        have hx := hall _ (List.getLast_mem hd)
        exact hlast (by rw [List.getLast?_eq_some_getLast hd, beq_iff_eq.mp hx])
      rw [hd] at habs
      rw [hup, if_pos hd, top, if_pos (habs.mp rfl)]
    · have hd : d ≠ [] := by
        rintro rfl
        exact hcons hcs.symm
      rw [hup, if_neg hd, ← habs]
      refine ⟨hcs, ?_⟩
      rw [Absolute, Absolute, List.head?_append_of_ne_nil d hd]

/-! ### All the way up -/

/-- **After `k` steps**, fewer than there are components, the last `k` are gone. -/
theorem ancestor_spec (sep dot : α) (p : List α) : ∀ k < (components sep p).length,
    components sep (ancestor sep dot p k) = (components sep p).take ((components sep p).length - k) ∧
      (Absolute sep (ancestor sep dot p k) ↔ Absolute sep p)
  | 0, _ => ⟨by rw [Nat.sub_zero, List.take_length]; rfl, Iff.rfl⟩
  | k + 1, hk => by
    obtain ⟨hcs, habs⟩ := ancestor_spec sep dot p k (Nat.lt_of_succ_lt hk)
    obtain ⟨m, hm⟩ : ∃ m, (components sep p).length = k + m + 2 := ⟨(components sep p).length - k - 2, by omega⟩
    have hlast : (components sep p).take (m + 2) = (components sep p).take (m + 1) ++ [(components sep p)[m + 1]] :=
      List.take_succ_eq_append_getElem (by omega)
    rw [hm, show k + m + 2 - k = m + 2 by omega, hlast] at hcs
    have hne : (components sep p).take (m + 1) ≠ [] := by
      intro h0
      have := congrArg List.length h0
      rw [List.length_take, List.length_nil] at this
      omega
    have hparent : components sep (parent sep dot (ancestor sep dot p k)) = (components sep p).take (m + 1) ∧
        (Absolute sep (parent sep dot (ancestor sep dot p k)) ↔ Absolute sep (ancestor sep dot p k)) :=
      (parent_spec hcs).2.2 hne
    obtain ⟨hup, hupabs⟩ := hparent
    rw [ancestor_succ, hm, show k + m + 2 - (k + 1) = m + 1 by omega]
    exact ⟨hup, hupabs.trans habs⟩

theorem basename_ancestor (dot : α) (p : List α) {k : ℕ} (hk : k < (components sep p).length) :
    (components sep p)[(components sep p).length - 1 - k]? = some (basename sep dot (ancestor sep dot p k)) := by
  obtain ⟨hcs, -⟩ := ancestor_spec sep dot p k hk
  obtain ⟨m, hm⟩ : ∃ m, (components sep p).length = k + m + 1 := ⟨(components sep p).length - k - 1, by omega⟩
  have hlast : (components sep p).take (m + 1) = (components sep p).take m ++ [(components sep p)[m]] :=
    List.take_succ_eq_append_getElem (by omega)
  rw [hm, show k + m + 1 - k = m + 1 by omega, hlast] at hcs
  have hindex : (components sep p).length - 1 - k = m := by omega
  rw [(parent_spec hcs).1, hindex, List.getElem?_eq_getElem]

/-- **The way up ends** at the root, or at the current directory. -/
theorem ancestor_top (dot : α) (p : List α) (h : components sep p ≠ []) :
    ancestor sep dot p (components sep p).length = top sep dot p := by
  obtain ⟨m, hm⟩ : ∃ m, (components sep p).length = m + 1 :=
    ⟨_, (Nat.succ_pred_eq_of_pos (List.length_pos_iff.mpr h)).symm⟩
  obtain ⟨hcs, habs⟩ := ancestor_spec sep dot p m (by omega)
  have hlast : (components sep p).take (0 + 1) = (components sep p).take 0 ++ [(components sep p)[0]] :=
    List.take_succ_eq_append_getElem (by omega)
  rw [hm, show m + 1 - m = 0 + 1 by omega, hlast] at hcs
  rw [hm, ancestor_succ, (parent_spec hcs).2.1 rfl, top, top]
  exact if_congr habs rfl rfl

/-! ### What a parent is made of -/

theorem prefix_of_squeeze : ∀ {l c : List α} {prev : α}, prev ≠ sep → sep ∉ c → c <+: squeeze sep prev l → c <+: l
  | [], c, prev, _, _, h => h
  | x :: l, [], prev, _, _, _ => List.nil_prefix
  | x :: l, y :: c, prev, hprev, hc, h => by
    rw [List.mem_cons, not_or] at hc
    rw [squeeze, if_neg fun hx => hprev hx.2] at h
    obtain ⟨rfl, h⟩ := List.cons_prefix_cons.mp h
    exact List.cons_prefix_cons.mpr ⟨rfl, prefix_of_squeeze (Ne.symm hc.1) hc.2 h⟩

theorem infix_of_squeeze : ∀ {l c : List α} {prev : α}, sep ∉ c → c <:+: squeeze sep prev l → c <:+: l
  | [], c, prev, _, h => h
  | x :: l, c, prev, hc, h => by
    rw [squeeze] at h
    split at h
    · exact (infix_of_squeeze hc h).trans (List.suffix_cons x l).isInfix
    · rcases List.infix_cons_iff.mp h with hpre | hin
      · cases c with
        | nil => exact List.nil_infix
        | cons y c =>
          rw [List.mem_cons, not_or] at hc
          obtain ⟨rfl, hpre⟩ := List.cons_prefix_cons.mp hpre
          exact (List.cons_prefix_cons.mpr ⟨rfl, prefix_of_squeeze (Ne.symm hc.1) hc.2 hpre⟩).isInfix
      · exact (infix_of_squeeze hc hin).trans (List.suffix_cons x l).isInfix

theorem infix_of_collapse {p c : List α} (hc : sep ∉ c) (h : c <:+: collapse sep p) : c <:+: p := by
  cases c with
  | nil => exact List.nil_infix
  | cons y c =>
    have hy : y ≠ sep := fun he => hc (he ▸ List.mem_cons_self)
    rw [← squeeze_eq_collapse hy] at h
    exact infix_of_squeeze hc h

/-- What precedes the last component is a part of the path, without its repeated
separators, or the root, or the current directory. -/
theorem parent_cases (sep dot : α) (p : List α) :
    parent sep dot p = [sep] ∨ parent sep dot p = [dot] ∨ parent sep dot p <+: collapse sep p := by
  have hnormal : normal sep p <+: collapse sep p := by
    rw [normal, trim]
    split
    · exact List.dropLast_prefix _
    · exact List.prefix_rfl
  cases shape sep dot p with
  | empty _ hq => exact .inr (.inl (by rw [parent, hq, dirname_of_not_mem List.not_mem_nil]))
  | root _ _ hq _ => exact .inl (by rw [parent, hq, dirname, if_neg (by simp), if_pos (.inl rfl)])
  | component _ hmem _ => exact .inr (.inl (by rw [parent, dirname_of_not_mem hmem]))
  | split d c hq hne hc _ _ =>
    rw [parent, hq, dirname_of_split hc (.inr hne)]
    rw [hq] at hnormal
    by_cases hd : d = []
    · exact .inl (if_pos hd)
    · rw [if_neg hd]
      exact .inr (.inr ((List.prefix_append d (sep :: c)).trans hnormal))

end Pathname
end Autumn
