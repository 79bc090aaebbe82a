/-
# A text that threads append to by a look-up and a write

Each thread appends a word to a shared text in two steps: it looks where the
text ends, and writes its word there, which ends the text behind the word.
Nothing keeps another thread away in between.

While every word is written where the text still ends, the text is the words,
one after another in the order of the writes (`Exact`). If a word is written
where the text no longer ends, it goes over another one: from then on the text
is shorter than the words, and so is every place that has been looked up, for
good (`Short`).

Key definitions: `Appends`, `Appends.look`, `Appends.write`, `Exact`, `Short`.
Key theorems: `Exact.look`, `Exact.write`, `Exact.short`, `Short.look`, `Short.write`,
`Buf.str_store`.
-/
import Autumn.Lib.CString

namespace Autumn

section Texts

variable {α : Type*}

/-- A text with `m` written at `e`, and its end behind that; what is behind the
end of the text is not seen. -/
def overwrite (text : List α) (e : ℕ) (m : List α) : List α := if e ≤ text.length then text.take e ++ m else text

theorem overwrite_length (text m : List α) : overwrite text text.length m = text ++ m := by
  rw [overwrite, if_pos le_rfl, List.take_length]

theorem length_overwrite_le {text : List α} {e n : ℕ} (m : List α) (he : e < n) (ht : text.length < n) :
    (overwrite text e m).length < n + m.length := by
  unfold overwrite
  split
  · rw [List.length_append, List.length_take]
    omega
  · exact ht.trans_le (Nat.le_add_right n _)

theorem Buf.str_store [Zero α] [DecidableEq α] {n e : ℕ} {b b' : Buf α n} {m : List α} (ht : b.Term) (hm : (0 : α) ∉ m)
    (h : b.store e (m ++ [0]) = some b') : b'.str = overwrite b.str e m ∧ b'.Term := by
  have hc := (store_spec.mp h).2
  refine ⟨?_, by simp [Term, hc]⟩
  unfold overwrite
  split
  · rename_i hle
    have htake : b.chars.take e = b.str.take e := by
      have hcat : b.chars = b.str ++ 0 :: b.chars.drop (b.str.length + 1) := eq_cstr_append ht
      rw [hcat, List.take_append_of_le_length hle]
    have hnz : (0 : α) ∉ b.str.take e ++ m := by
      rw [List.mem_append]
      rintro (h0 | h0)
      · exact b.str_nz (List.mem_of_mem_take h0)
      · exact hm h0
    rw [str, hc, htake, ← List.append_assoc (b.str.take e), List.append_assoc _ [0], List.singleton_append,
      cstr_append_zero hnz]
  · rename_i hlt
    have hbefore : 0 + (cstr (b.chars.drop 0)).length < e := by
      rw [Nat.zero_add, List.drop_zero]
      exact Nat.not_le.mp hlt
    exact cstr_drop_store_before h hbefore

end Texts

/-- The text; the threads between their look-up and their write, with the place
and the word; and the words written, in order. -/
structure Appends (ι α : Type*) where
  text : List α
  between : ι → Option (ℕ × List α)
  written : List (List α)

namespace Appends

variable {ι α : Type*}

section Threads

variable [DecidableEq ι]

/-- Thread `i` looks up the end for the word `m`. -/
def look (s : Appends ι α) (i : ι) (m : List α) : Appends ι α :=
  { s with between := Function.update s.between i (some (s.text.length, m)) }

/-- Thread `i` writes its word at `e`. -/
def write (s : Appends ι α) (i : ι) (e : ℕ) (m : List α) : Appends ι α where
  text := overwrite s.text e m
  between := Function.update s.between i none
  written := s.written ++ [m]

end Threads

/-- How long the text would have to be. -/
def owed (s : Appends ι α) : ℕ := s.written.flatten.length

/-- The text is the words; no place looked up is behind its end. -/
structure Exact (s : Appends ι α) : Prop where
  text : s.text = s.written.flatten
  between : ∀ i e m, s.between i = some (e, m) → e ≤ s.text.length ∧ m ≠ []

/-- Words are lost, whatever is written yet. -/
structure Short (s : Appends ι α) : Prop where
  text : s.text.length < s.owed
  between : ∀ i e m, s.between i = some (e, m) → e < s.owed

variable {s : Appends ι α} {i : ι} {e : ℕ} {m : List α}

variable [DecidableEq ι]

theorem owed_write : (s.write i e m).owed = s.owed + m.length := by
  simp [owed, write]

theorem between_look {j : ι} {e' : ℕ} {m' : List α} (h : (s.look i m).between j = some (e', m')) :
    e' = s.text.length ∧ m' = m ∨ s.between j = some (e', m') := by
  change Function.update s.between i (some (s.text.length, m)) j = _ at h
  by_cases hji : j = i
  · rw [hji, Function.update_self, Option.some.injEq, Prod.mk.injEq] at h
    exact .inl ⟨h.1.symm, h.2.symm⟩
  · rw [Function.update_of_ne hji] at h
    exact .inr h

theorem between_write {j : ι} {e' : ℕ} {m' : List α} (h : (s.write i e m).between j = some (e', m')) :
    s.between j = some (e', m') := by
  change Function.update s.between i none j = _ at h
  by_cases hji : j = i
  · rw [hji, Function.update_self] at h
    cases h
  · rwa [Function.update_of_ne hji] at h

theorem Exact.look (h : s.Exact) (hm : m ≠ []) : (s.look i m).Exact where
  text := h.text
  between := by
    intro j e' m' hj
    rcases between_look hj with ⟨rfl, rfl⟩ | hj
    · exact ⟨le_rfl, hm⟩
    · exact h.between j e' m' hj

/-- **A word written where the text ends** is appended. -/
theorem Exact.write (h : s.Exact) (he : e = s.text.length) : (s.write i e m).Exact where
  text := by
    subst he
    show overwrite s.text s.text.length m = (s.written ++ [m]).flatten
    rw [overwrite_length, h.text, List.flatten_append, List.flatten_singleton]
  between := by
    intro j e' m' hj
    subst he
    obtain ⟨hle, hne⟩ := h.between j e' m' (between_write hj)
    refine ⟨?_, hne⟩
    show e' ≤ (overwrite s.text s.text.length m).length
    rw [overwrite_length, List.length_append]
    omega

/-- **A word written before the end of the text** loses what stood there. -/
theorem Exact.short (h : s.Exact) (hi : s.between i = some (e, m)) (he : e ≠ s.text.length) :
    (s.write i e m).Short := by
  obtain ⟨hle, hne⟩ := h.between i e m hi
  have hpos := List.length_pos_iff.mpr hne
  have howed : s.owed = s.text.length := by rw [h.text, owed]
  refine ⟨?_, fun j e' m' hj => ?_⟩
  · rw [owed_write, howed]
    show (overwrite s.text e m).length < _
    rw [overwrite, if_pos hle, List.length_append, List.length_take]
    omega
  · have := (h.between j e' m' (between_write hj)).1
    rw [owed_write]
    omega

theorem Short.look (h : s.Short) : (s.look i m).Short where
  text := h.text
  between := by
    intro j e' m' hj
    rcases between_look hj with ⟨rfl, -⟩ | hj
    · exact h.text
    · exact h.between j e' m' hj

theorem Short.write (h : s.Short) (hi : s.between i = some (e, m)) : (s.write i e m).Short where
  text := by
    rw [owed_write]
    exact length_overwrite_le m (h.between i e m hi) h.text
  between := by
    intro j e' m' hj
    have := h.between j e' m' (between_write hj)
    rw [owed_write]
    omega

end Appends
end Autumn
