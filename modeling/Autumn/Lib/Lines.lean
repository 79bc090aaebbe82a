/-
# Texts of lines in an array

A text of words, each with a newline behind it, can be read back whatever
stands before it: only the word behind an unfinished last line is lost in that
line (`pieces_append_lines`). A loop that writes the lines back into an array,
leaving out one word, is `keepLine` at each of them; it stays inside its array
when there is room for the lines it writes, and leaves exactly these
(`keepLines_eq_some`, `exists_keepLines`).

Key definitions: `unfinished`, `finished`, `keepLine`.
Key theorems: `pieces_append_lines`, `lines_injective`, `keepLines_eq_some`,
`exists_keepLines`.
-/
import Mathlib.Data.List.DropRight
import Autumn.Lib.Tokens

namespace Autumn

variable {α : Type*} [DecidableEq α]

/-! ### A text and what is behind it -/

/-- What stands behind the last newline. -/
def unfinished (nl : α) (g : List α) : List α := g.rtakeWhile fun c => c != nl

/-- The text up to its last newline. -/
def finished (nl : α) (g : List α) : List α := g.rdropWhile fun c => c != nl

theorem finished_append_unfinished (nl : α) (g : List α) : finished nl g ++ unfinished nl g = g :=
  List.rdropWhile_append_rtakeWhile

theorem nl_not_mem_unfinished (nl : α) (g : List α) : nl ∉ unfinished nl g := fun h => by
  simpa using List.mem_rtakeWhile_imp h

theorem endsRun_finished (nl : α) (g : List α) : endsRun (· == nl) (finished nl g) = false := by
  by_cases h : finished nl g = []
  · rw [h]
    rfl
  · have hlast := List.rdropWhile_last_not (fun c => c != nl) g h
    rw [endsRun, List.getLast?_eq_getLast_of_ne_nil h, Option.any_some]
    simpa [finished] using hlast

/-- Lines behind a text: the first of them goes on with its unfinished line. -/
theorem pieces_append_lines {nl : α} (g : List α) {w : List α} {L : List (List α)}
    (hL : ∀ v ∈ w :: L, v ≠ [] ∧ nl ∉ v) : pieces (· == nl) (g ++ lines nl (w :: L)) =
      pieces (· == nl) (finished nl g) ++ (unfinished nl g ++ w) :: L := by
  obtain ⟨hne, hnl⟩ := hL w List.mem_cons_self
  have hrun : ∀ v ∈ (unfinished nl g ++ w) :: L, v ≠ [] ∧ nl ∉ v := by
    intro v hv
    rcases List.mem_cons.mp hv with rfl | hv
    · exact ⟨by simp [hne], by simp [nl_not_mem_unfinished, hnl]⟩
    · exact hL v (List.mem_cons_of_mem w hv)
  calc pieces (· == nl) (g ++ lines nl (w :: L))
      = pieces (· == nl) (finished nl g ++ lines nl ((unfinished nl g ++ w) :: L)) := by
        rw [lines_cons, lines_cons, List.append_assoc (unfinished nl g), ← List.append_assoc (finished nl g),
          finished_append_unfinished]
    _ = _ := by rw [pieces_append_of_ended (endsRun_finished nl g), pieces_lines hrun]

theorem lines_injective {nl : α} {L M : List (List α)} (hL : ∀ w ∈ L, w ≠ [] ∧ nl ∉ w)
    (hM : ∀ w ∈ M, w ≠ [] ∧ nl ∉ w) (h : lines nl L = lines nl M) : L = M := by
  rw [← pieces_lines hL, h, pieces_lines hM]

omit [DecidableEq α] in
theorem length_lines_filter_le (nl : α) (P : List α → Bool) (L : List (List α)) :
    (lines nl (L.filter P)).length ≤ (lines nl L).length := by
  induction L with
  | nil => exact le_rfl
  | cons w L ih =>
    rw [List.filter_cons]
    split
    · simp only [lines_cons, List.length_append, List.length_cons]
      omega
    · simp only [lines_cons, List.length_append, List.length_cons]
      omega

/-! ### Writing lines back -/

section Keep

variable [Zero α] {q : ℕ}

/-- `if (strcmp(name, w) != 0) { strncat(text, w, strlen(w)); strcat(text, "\n"); }` -/
def keepLine (nl : α) (name : List α) (text : Buf α q) (w : List α) : Option (Buf α q) :=
  if strcmpEq name w then some text
  else (text.strncat (w ++ [0]) w.length).bind fun text => text.strcat [nl, 0]

variable {nl : α} (hnl : nl ≠ 0)
include hnl

theorem keepLine_eq (name : List α) (b : Buf α q) {w : List α} (hw : (0 : α) ∉ w) :
    (w = cstr name → keepLine nl name b w = some b) ∧ (w ≠ cstr name → b.Term →
      (∀ b', keepLine nl name b w = some b' → b'.str = b.str ++ w ++ [nl] ∧ b'.Term) ∧
      (b.str.length + w.length + 1 < q → ∃ b', keepLine nl name b w = some b')) := by
  have hcmp : strcmpEq name w = true ↔ w = cstr name := by
    rw [strcmpEq, cstr_of_zero_not_mem hw, decide_eq_true_eq, eq_comm]
  have hsrc : cstr (w ++ [0]) = w := cstr_append_zero hw []
  have hone : cstr [nl, 0] = [nl] := by rw [cstr_cons hnl, cstr_zero_cons]
  refine ⟨fun h => if_pos (hcmp.mpr h), fun h ht => ?_⟩
  have hkeep : keepLine nl name b w =
      (b.strncat (w ++ [0]) w.length).bind fun text => text.strcat [nl, 0] := if_neg (mt hcmp.mp h)
  constructor
  · intro b' hb
    rw [hkeep] at hb
    obtain ⟨b1, h1, h2⟩ := Option.bind_eq_some_iff.mp hb
    obtain ⟨-, hs1, -⟩ := Buf.strncat_eq_some h1
    obtain ⟨-, hs2, ht2⟩ := Buf.strcat_eq_some h2
    rw [hsrc, List.take_length] at hs1
    exact ⟨by rw [hs2, hs1, hone], ht2⟩
  · intro hlen
    obtain ⟨b1, h1, hs1, ht1⟩ := b.strncat_spec (w ++ [0]) ht (by simp) (by rw [hsrc]; omega)
    rw [hsrc] at h1 hs1
    obtain ⟨b2, h2, -⟩ := b1.strcat_spec [nl, 0] ht1 (by simp)
      (by rw [hone, hs1, List.length_append, List.length_singleton]; omega)
    exact ⟨b2, by rw [hkeep, h1]; exact h2⟩

/-- What the loop leaves, if it stays inside: the words that differ. -/
theorem keepLines_eq_some (name : List α) : ∀ {L : List (List α)} {b b' : Buf α q}, b.Term →
    (∀ w ∈ L, (0 : α) ∉ w) → L.foldlM (keepLine nl name) b = some b' →
    b'.str = b.str ++ lines nl (L.filter fun w => w ≠ cstr name) ∧ b'.Term
  | [], b, b', ht, _, h => by
    cases h
    exact ⟨by simp, ht⟩
  | w :: L, b, b', ht, hL, h => by
    have hL' : ∀ v ∈ L, (0 : α) ∉ v := fun v hv => hL v (List.mem_cons_of_mem w hv)
    obtain ⟨hsame, hdiff⟩ := keepLine_eq hnl name b (hL w List.mem_cons_self)
    obtain ⟨b1, h1, h2⟩ := Option.bind_eq_some_iff.mp (by rwa [List.foldlM_cons] at h)
    by_cases hn : w = cstr name
    · rw [hsame hn] at h1
      cases h1
      simpa [hn] using keepLines_eq_some name ht hL' h2
    · obtain ⟨hs1, ht1⟩ := (hdiff hn ht).1 b1 h1
      obtain ⟨hs, ht'⟩ := keepLines_eq_some name ht1 hL' h2
      exact ⟨by rw [hs, hs1]; simp [hn], ht'⟩

theorem exists_keepLines (name : List α) : ∀ {L : List (List α)} {b : Buf α q}, b.Term →
    (∀ w ∈ L, (0 : α) ∉ w) →
    b.str.length + (lines nl (L.filter fun w => w ≠ cstr name)).length < q →
    ∃ b', L.foldlM (keepLine nl name) b = some b'
  | [], b, _, _, _ => ⟨b, rfl⟩
  | w :: L, b, ht, hL, hlen => by
    have hL' : ∀ v ∈ L, (0 : α) ∉ v := fun v hv => hL v (List.mem_cons_of_mem w hv)
    obtain ⟨hsame, hdiff⟩ := keepLine_eq hnl name b (hL w List.mem_cons_self)
    by_cases hn : w = cstr name
    · obtain ⟨b', hb'⟩ := exists_keepLines name ht hL' (by simpa [hn] using hlen)
      exact ⟨b', by rw [List.foldlM_cons, hsame hn]; exact hb'⟩
    · rw [List.filter_cons_of_pos (by simpa using hn), lines_cons, List.length_append, List.length_cons] at hlen
      obtain ⟨b1, h1⟩ := (hdiff hn ht).2 (by omega)
      obtain ⟨hs1, ht1⟩ := (hdiff hn ht).1 b1 h1
      obtain ⟨b', hb'⟩ := exists_keepLines name ht1 hL'
        (by rw [hs1, List.length_append, List.length_append, List.length_singleton]; omega)
      exact ⟨b', by rw [List.foldlM_cons, h1]; exact hb'⟩

end Keep

end Autumn
