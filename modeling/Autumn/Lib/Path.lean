/-
# Paths: normal form, last component and what precedes it

A path is a list of characters, one of which, `sep`, separates components. Its
normal form has every run of separators collapsed to one and no separator at
the end, unless that is all it is. `basename` is the last component of a path
and `dirname` what precedes it in the normal form.

A normal form is empty, a lone separator, a component, or `d ++ sep :: c` with
`c` the last component (`shape`); so the two parts put together again
are the normal form (`dirname_append_basename`).

Key definitions: `collapse`, `normal`, `basename`, `dirname`, `Shape`,
`Relative`.
Key theorems: `normal_components`, `shape`, `dirname_of_split`,
`dirname_append_basename`, `sep_not_mem_basename`, `exists_split`.
-/
import Mathlib.Data.List.Chain
import Mathlib.Data.List.DropRight
import Mathlib.Tactic.Common

namespace Autumn
namespace Pathname

variable {α : Type*} [DecidableEq α] (sep dot : α)

/-- The characters of `l`, each unless it and the one before it (`prev` before
the first) are separators. -/
def squeeze : α → List α → List α
  | _, [] => []
  | prev, c :: l => if c = sep ∧ prev = sep then squeeze c l else c :: squeeze c l

/-- Every run of separators as one. -/
def collapse : List α → List α
  | [] => []
  | c :: l => c :: squeeze sep c l

/-- Without the separator at the end, unless it is all there is. -/
def trim (l : List α) : List α := if l.getLast? = some sep ∧ l.length ≠ 1 then l.dropLast else l

/-- The normal form of a path. -/
def normal (p : List α) : List α := trim sep (collapse sep p)

/-- The longest suffix without a separator, separators at the end removed. -/
def lastComponent (p : List α) : List α := (p.rdropWhile (· = sep)).rtakeWhile (· ≠ sep)

def basename (p : List α) : List α :=
  if p = [] then [dot] else if ∀ c ∈ p, c = sep then [sep] else lastComponent sep p

/-- What precedes the last separator of a normal form `q`. -/
def dirname (q : List α) : List α :=
  if sep ∉ q then [dot]
  else if q = [sep] ∨ (q.head? = some sep ∧ q.count sep = 1) then [sep]
  else (q.rdropWhile (· ≠ sep)).dropLast

variable {sep dot}

/-! ### Collapsing -/

theorem squeeze_append (sep : α) : ∀ (prev : α) (l m : List α),
    squeeze sep prev (l ++ m) = squeeze sep prev l ++ squeeze sep (l.getLast?.getD prev) m
  | prev, [], m => rfl
  | prev, c :: l, m => by
    have hlast : (c :: l).getLast?.getD prev = l.getLast?.getD c := by
      rw [List.getLast?_cons, Option.getD_some]
    rw [List.cons_append, squeeze, squeeze, squeeze_append sep c l m, hlast]
    split
    · rfl
    · rfl

theorem squeeze_of_not_mem : ∀ {l : List α} (prev : α), sep ∉ l → squeeze sep prev l = l
  | [], _, _ => rfl
  | c :: l, prev, h => by
    rw [List.mem_cons, not_or] at h
    rw [squeeze, if_neg fun hc => h.1 hc.1.symm, squeeze_of_not_mem c h.2]

theorem squeeze_replicate (n : ℕ) : squeeze sep sep (List.replicate n sep) = [] := by
  induction n with
  | zero => rfl
  | succ n ih => rw [List.replicate_succ, squeeze, if_pos ⟨rfl, rfl⟩, ih]

/-- What precedes the path is no separator. -/
theorem squeeze_eq_collapse {prev : α} (h : prev ≠ sep) (l : List α) : squeeze sep prev l = collapse sep l := by
  cases l with
  | nil => rfl
  | cons c l => rw [squeeze, if_neg fun hc => h hc.2, collapse]

theorem length_squeeze_le (sep : α) : ∀ (prev : α) (l : List α), (squeeze sep prev l).length ≤ l.length
  | _, [] => le_rfl
  | prev, c :: l => by
    have ih := length_squeeze_le sep c l
    rw [squeeze, List.length_cons]
    split
    · omega
    · rw [List.length_cons]
      omega

theorem mem_of_mem_squeeze : ∀ {prev a : α} {l : List α}, a ∈ squeeze sep prev l → a ∈ l
  | _, _, [], h => h
  | prev, a, c :: l, h => by
    rw [squeeze] at h
    split at h
    · exact List.mem_cons_of_mem c (mem_of_mem_squeeze h)
    · rcases List.mem_cons.mp h with rfl | h
      · exact List.mem_cons_self
      · exact List.mem_cons_of_mem c (mem_of_mem_squeeze h)

theorem collapse_of_not_mem {l : List α} (h : sep ∉ l) : collapse sep l = l := by
  cases l with
  | nil => rfl
  | cons c l => rw [collapse, squeeze_of_not_mem c fun hm => h (List.mem_cons_of_mem c hm)]

theorem collapse_append {l : List α} (h : l ≠ []) (m : List α) :
    collapse sep (l ++ m) = collapse sep l ++ squeeze sep (l.getLast h) m := by
  cases l with
  | nil => exact absurd rfl h
  | cons c l =>
    have hlast : l.getLast?.getD c = (c :: l).getLast h := by
      rw [← Option.getD_some (a := (c :: l).getLast h) (b := c), ← List.getLast?_eq_some_getLast h,
        List.getLast?_cons, Option.getD_some]
    rw [List.cons_append, collapse, collapse, squeeze_append, hlast, List.cons_append]

theorem trim_ne_nil {l : List α} (h : l ≠ []) : trim sep l ≠ [] := by
  unfold trim
  split
  · rename_i hc
    intro h0
    have hlen := congrArg List.length h0
    have hpos := List.length_pos_iff.mpr h
    rw [List.length_dropLast, List.length_nil] at hlen
    exact hc.2 (by omega)
  · exact h

theorem collapse_append_seps {l : List α} (h : l ≠ []) (hl : l.getLast h ≠ sep) (n : ℕ) :
    collapse sep (l ++ List.replicate n sep) = collapse sep l ++ if n = 0 then [] else [sep] := by
  rw [collapse_append h]
  cases n with
  | zero => rfl
  | succ n => rw [List.replicate_succ, squeeze, if_neg fun hc => hl hc.2, squeeze_replicate, if_neg n.succ_ne_zero]

theorem collapse_append_component {l c : List α} (hc : sep ∉ c) : collapse sep (l ++ c) = collapse sep l ++ c := by
  by_cases h : l = []
  · subst h
    exact collapse_of_not_mem hc
  · rw [collapse_append h, squeeze_of_not_mem _ hc]

theorem getLast_squeeze : ∀ (prev : α) (l : List α), (prev :: squeeze sep prev l).getLast? = (prev :: l).getLast?
  | prev, [] => rfl
  | prev, c :: l => by
    rw [squeeze, List.getLast?_cons_cons, ← getLast_squeeze c l]
    split
    · rename_i h
      rw [h.1, h.2]
    · rw [List.getLast?_cons_cons]

theorem getLast_collapse (l : List α) : (collapse sep l).getLast? = l.getLast? := by
  cases l with
  | nil => rfl
  | cons c l => exact getLast_squeeze c l

theorem isChain_squeeze : ∀ (prev : α) (l : List α),
    (prev :: squeeze sep prev l).IsChain fun a b => ¬ (b = sep ∧ a = sep)
  | prev, [] => .singleton prev
  | prev, c :: l => by
    rw [squeeze]
    split
    · rename_i h
      have := isChain_squeeze c l
      rwa [h.1, ← h.2, h.2] at this ⊢
    · rename_i h
      exact .cons_cons h (isChain_squeeze c l)

theorem isChain_collapse (sep : α) (l : List α) : (collapse sep l).IsChain fun a b => ¬ (b = sep ∧ a = sep) := by
  cases l with
  | nil => exact .nil
  | cons c l => exact isChain_squeeze c l

/-! ### The normal form -/

/-- A path that is not only separators: what precedes its last component, that
component, and the separators behind it. -/
theorem exists_components {p : List α} (h : ¬ ∀ c ∈ p, c = sep) :
    ∃ l n, p = l ++ lastComponent sep p ++ List.replicate n sep ∧ lastComponent sep p ≠ [] ∧
      sep ∉ lastComponent sep p ∧ (l = [] ∨ l.getLast? = some sep) := by
  have hne : p.rdropWhile (· = sep) ≠ [] := fun h0 => h (by simpa using List.rdropWhile_eq_nil_iff.mp h0)
  have hlast : (p.rdropWhile (· = sep)).getLast hne ≠ sep := by
    simpa using List.rdropWhile_last_not (p := fun c => decide (c = sep)) p hne
  have hseps : p.rtakeWhile (· = sep) = List.replicate (p.rtakeWhile (· = sep)).length sep :=
    List.eq_replicate_length.mpr fun c hc => by simpa using List.mem_rtakeWhile_imp hc
  refine ⟨(p.rdropWhile (· = sep)).rdropWhile (· ≠ sep), (p.rtakeWhile (· = sep)).length, ?_, ?_, ?_, ?_⟩
  · unfold lastComponent
    rw [List.rdropWhile_append_rtakeWhile, ← hseps, List.rdropWhile_append_rtakeWhile]
  · intro h0
    have := List.rtakeWhile_eq_nil_iff.mp h0 hne
    simp only [ne_eq, decide_not, Bool.not_eq_true', decide_eq_false_iff_not, not_not] at this
    exact hlast this
  · intro hm
    simpa using List.mem_rtakeWhile_imp hm
  · by_cases h0 : (p.rdropWhile (· = sep)).rdropWhile (· ≠ sep) = []
    · exact .inl h0
    · apply Or.inr
      have := List.rdropWhile_last_not (p := fun c => decide (c ≠ sep)) _ h0
      rw [List.getLast?_eq_some_getLast h0]
      simpa using this

theorem normal_seps (n : ℕ) : normal sep (List.replicate (n + 1) sep) = [sep] := by
  unfold normal
  rw [List.replicate_succ, collapse, squeeze_replicate]
  exact if_neg fun h => h.2 rfl

/-- The last component does not change, what precedes it is collapsed. -/
theorem normal_components {l c : List α} (hne : c ≠ []) (hc : sep ∉ c) (n : ℕ) :
    normal sep (l ++ c ++ List.replicate n sep) = collapse sep l ++ c := by
  have hne' : l ++ c ≠ [] := List.append_ne_nil_of_right_ne_nil l hne
  have hlast : (l ++ c).getLast hne' ≠ sep := by
    intro h
    rw [List.getLast_append_of_ne_nil hne' hne] at h
    exact hc (h ▸ List.getLast_mem hne)
  have hcol : collapse sep (l ++ c) = collapse sep l ++ c := collapse_append_component hc
  unfold normal
  rw [collapse_append_seps hne' hlast, trim]
  by_cases hn : n = 0
  · rw [if_pos hn, List.append_nil, getLast_collapse, List.getLast?_eq_some_getLast hne',
      if_neg fun h => hlast (Option.some.inj h.1), hcol]
  · have hlen : 0 < c.length := List.length_pos_iff.mpr hne
    rw [if_neg hn, hcol, List.dropLast_concat, if_pos]
    refine ⟨List.getLast?_concat .., ?_⟩
    simp only [List.length_append, List.length_singleton]
    omega

theorem getLast_of_collapse {l d : List α} (h : collapse sep l = d ++ [sep]) : d.getLast? ≠ some sep := by
  intro hd
  obtain ⟨e, rfl⟩ := List.getLast?_eq_some_iff.mp hd
  have hchain := isChain_collapse sep l
  rw [h, List.append_assoc] at hchain
  have := (List.isChain_append.mp hchain).2.1
  simp at this

/-- The shapes of a normal form, and what `basename` is then. In the last, no
separator precedes the one before the last component. -/
inductive Shape (sep dot : α) (p : List α) : Prop
  | empty : p = [] → normal sep p = [] → Shape sep dot p
  | root : p ≠ [] → (∀ c ∈ p, c = sep) → normal sep p = [sep] → basename sep dot p = [sep] → Shape sep dot p
  | component : normal sep p ≠ [] → sep ∉ normal sep p → basename sep dot p = normal sep p → Shape sep dot p
  | split (d c : List α) : normal sep p = d ++ sep :: c → c ≠ [] → sep ∉ c → d.getLast? ≠ some sep →
      basename sep dot p = c → Shape sep dot p

/-- **Every normal form has one of the shapes.** -/
theorem shape (sep dot : α) (p : List α) : Shape sep dot p := by
  by_cases hp : p = []
  · subst hp
    exact .empty rfl rfl
  by_cases hall : ∀ c ∈ p, c = sep
  · refine .root hp hall ?_ (by rw [basename, if_neg hp, if_pos hall])
    obtain ⟨n, hn⟩ := Nat.exists_eq_succ_of_ne_zero (mt List.length_eq_zero_iff.mp hp)
    rw [List.eq_replicate_length.mpr hall, hn]
    exact normal_seps n
  obtain ⟨l, n, heq, hne, hmem, hl⟩ := exists_components hall
  have hbase : basename sep dot p = lastComponent sep p := by rw [basename, if_neg hp, if_neg hall]
  have hnormal : normal sep p = collapse sep l ++ lastComponent sep p := by
    conv_lhs => rw [heq]
    exact normal_components hne hmem n
  rcases hl with rfl | hl
  · apply Shape.component
    · rwa [hnormal]
    · rwa [hnormal]
    · rw [hbase, hnormal]
      rfl
  · obtain ⟨d, hd⟩ := List.getLast?_eq_some_iff.mp (hl ▸ getLast_collapse l)
    refine .split d _ ?_ hne hmem (getLast_of_collapse hd) hbase
    rw [hnormal, hd, List.append_assoc]
    rfl

theorem getLast_normal {p : List α} (h : (normal sep p).getLast? = some sep) : normal sep p = [sep] := by
  cases shape sep sep p with
  | empty _ hq =>
    rw [hq] at h
    cases h
  | root _ _ hq _ => exact hq
  | component _ hmem _ => exact absurd (List.mem_of_getLast? h) hmem
  | split d c hq hne hc _ _ =>
    rw [hq, List.getLast?_append_of_ne_nil _ (List.cons_ne_nil _ _), List.getLast?_cons,
      List.getLast?_eq_some_getLast hne, Option.getD_some] at h
    exact absurd (Option.some.inj h ▸ List.getLast_mem hne) hc

/-! ### The last separator -/

omit [DecidableEq α] in
theorem mem_split (d c : List α) : sep ∈ d ++ sep :: c := List.mem_append_right d List.mem_cons_self

omit [DecidableEq α] in
/-- A path with separators is what precedes the last one, it, and what follows. -/
theorem exists_split {q : List α} (h : sep ∈ q) : ∃ d c, q = d ++ sep :: c ∧ sep ∉ c := by
  obtain ⟨a, b, heq, ha⟩ := List.eq_append_cons_of_mem (List.mem_reverse.mpr h)
  refine ⟨b.reverse, a.reverse, ?_, mt List.mem_reverse.mp ha⟩
  rw [← List.reverse_reverse q, heq]
  simp

omit [DecidableEq α] in
theorem split_ne {d c w : List α} (hw : sep ∉ w) : d ++ sep :: c ≠ w := fun h => hw (h ▸ mem_split d c)

omit [DecidableEq α] in
theorem split_ne_root {d c : List α} (hne : d ≠ [] ∨ c ≠ []) : d ++ sep :: c ≠ [sep] := by
  intro h
  cases d with
  | nil => exact hne.resolve_left (not_not.mpr rfl) (List.cons.inj h).2
  | cons a d => simp at h

theorem count_split {d c : List α} (hc : sep ∉ c) : (d ++ sep :: c).count sep = d.count sep + 1 := by
  rw [List.count_append, List.count_cons_self, List.count_eq_zero_of_not_mem hc]

/-- The only separator is the first character exactly if nothing precedes the
last separator. -/
theorem head_split_iff {d c : List α} (hc : sep ∉ c) :
    ((d ++ sep :: c).head? = some sep ∧ (d ++ sep :: c).count sep = 1) ↔ d = [] := by
  rw [count_split hc]
  cases d with
  | nil => exact iff_of_true ⟨rfl, rfl⟩ rfl
  | cons a d =>
    refine iff_of_false (fun ⟨h1, h2⟩ => ?_) (List.cons_ne_nil a d)
    have ha : a = sep := Option.some.inj h1
    rw [ha, List.count_cons_self] at h2
    omega

theorem dirname_of_split {d c : List α} (hc : sep ∉ c) (hne : d ≠ [] ∨ c ≠ []) :
    dirname sep dot (d ++ sep :: c) = if d = [] then [sep] else d := by
  have hdrop : (d ++ sep :: c).rdropWhile (· ≠ sep) = d ++ [sep] := by
    rw [List.rdropWhile, List.reverse_append, List.reverse_cons, List.append_assoc, List.singleton_append,
      List.dropWhile_append_of_pos fun a ha => by simpa using fun h : a = sep => hc (h ▸ List.mem_reverse.mp ha),
      List.dropWhile_cons_of_neg (by simp)]
    simp
  unfold dirname
  rw [if_neg (not_not.mpr (mem_split d c)), hdrop, List.dropLast_concat]
  simp only [head_split_iff hc, or_iff_right (split_ne_root hne)]

/-- **The parts make up the whole.** -/
theorem dirname_append_basename (p : List α) (hmem : sep ∈ normal sep p) (hroot : normal sep p ≠ [sep]) :
    dirname sep dot (normal sep p) ++ (if dirname sep dot (normal sep p) = [sep] then [] else [sep]) ++
      basename sep dot p = normal sep p := by
  cases shape sep dot p with
  | empty _ h =>
    rw [h] at hmem
    cases hmem
  | root _ _ h _ => exact absurd h hroot
  | component _ h _ => exact absurd hmem h
  | split d c h hne hc hd hb =>
    rw [h, hb, dirname_of_split hc (.inr hne)]
    by_cases h0 : d = []
    · rw [if_pos h0, if_pos rfl, h0]
      rfl
    · have hsep : d ≠ [sep] := by
        rintro rfl
        exact hd rfl
      rw [if_neg h0, if_neg hsep, List.append_assoc, List.singleton_append]

theorem dirname_of_not_mem {q : List α} (h : sep ∉ q) : dirname sep dot q = [dot] := if_pos h

theorem basename_of_not_mem (p : List α) (hne : normal sep p ≠ []) (h : sep ∉ normal sep p) :
    basename sep dot p = normal sep p := by
  cases shape sep dot p with
  | empty _ h0 => exact absurd h0 hne
  | root _ _ h0 _ =>
    rw [h0] at h
    exact absurd List.mem_cons_self h
  | component _ _ hb => exact hb
  | split d c h0 _ _ _ _ =>
    rw [h0] at h
    exact absurd (mem_split d c) h

theorem sep_not_mem_basename {p : List α} (hdot : dot ≠ sep) (h : ¬ (p ≠ [] ∧ ∀ c ∈ p, c = sep)) :
    sep ∉ basename sep dot p := by
  cases shape sep dot p with
  | empty hp _ =>
    unfold basename
    rw [if_pos hp, List.mem_singleton]
    exact Ne.symm hdot
  | root hne hall _ _ => exact absurd ⟨hne, hall⟩ h
  | component _ hq hb => rwa [hb]
  | split d c _ _ hc _ hb => rwa [hb]

theorem basename_isInfix {p : List α} (hne : p ≠ []) (h : sep ∉ basename sep dot p) :
    basename sep dot p <:+: p := by
  unfold basename at h ⊢
  rw [if_neg hne] at h ⊢
  split at h
  · exact absurd (List.mem_singleton_self sep) h
  · rename_i hall
    rw [if_neg hall]
    exact (List.rtakeWhile_suffix _ _).isInfix.trans (List.rdropWhile_prefix _ _).isInfix

/-! ### Relative paths -/

/-- The path is not empty and does not begin with a separator. -/
def Relative (sep : α) (p : List α) : Prop := ∃ c l, p = c :: l ∧ c ≠ sep

namespace Relative

variable {p : List α}

omit [DecidableEq α] in
theorem ne_nil (h : Relative sep p) : p ≠ [] := by
  obtain ⟨c, l, rfl, -⟩ := h
  exact List.cons_ne_nil c l

theorem squeeze_eq (h : Relative sep p) (prev : α) : squeeze sep prev p = collapse sep p := by
  obtain ⟨c, l, rfl, hc⟩ := h
  rw [squeeze, if_neg fun he => hc he.1, collapse]

theorem collapse (h : Relative sep p) : Relative sep (collapse sep p) := by
  obtain ⟨c, l, rfl, hc⟩ := h
  exact ⟨c, _, rfl, hc⟩

omit [DecidableEq α] in
theorem append (h : Relative sep p) (m : List α) : Relative sep (p ++ m) := by
  obtain ⟨c, l, rfl, hc⟩ := h
  exact ⟨c, _, rfl, hc⟩

omit [DecidableEq α] in
theorem dropLast (h : Relative sep p) (hlast : p.getLast? = some sep) : Relative sep p.dropLast := by
  obtain ⟨c, l, rfl, hc⟩ := h
  have hl : l ≠ [] := by
    rintro rfl
    exact hc (Option.some.inj hlast)
  exact ⟨c, l.dropLast, List.dropLast_cons_of_ne_nil hl, hc⟩

theorem trim (h : Relative sep p) : Relative sep (trim sep p) := by
  unfold Pathname.trim
  split
  · rename_i hc
    exact h.dropLast hc.1
  · exact h

omit [DecidableEq α] in
theorem of_split {d c : List α} (h : Relative sep (d ++ sep :: c)) : d ≠ [] := by
  rintro rfl
  obtain ⟨a, l, heq, ha⟩ := h
  exact ha (List.cons.inj heq).1.symm

end Relative

omit [DecidableEq α] in
theorem not_relative {p : List α} (h : ¬ Relative sep p) : p = [] ∨ ∃ l, p = sep :: l := by
  cases p with
  | nil => exact .inl rfl
  | cons c l =>
    by_cases hc : c = sep
    · exact .inr ⟨l, hc ▸ rfl⟩
    · exact absurd ⟨c, l, rfl, hc⟩ h

end Pathname
end Autumn
