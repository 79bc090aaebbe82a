/-
# The piping shell: a line and its commands

(`command_count.c`, `_command_.c`, `lexemes_count.c`, `param.c`.) The shell
counts before it cuts. `command_count` copies the line without its NUL into an
array nothing has initialised and counts the tokens it finds there, so it also
counts what stands behind the copy; `_command_` then cuts the line itself into
that many tokens. `lexemes_count` and `param` do the same with the words of
each command.

A count is never too small. When it is too large, `strtok` has no token left
and `strdup(NULL)` is undefined. So the cut is right exactly when the old
characters of the array end and add no token (`Settles`).

Key definitions: `count_tokens`, `_command_`, `param`, `Settles`, `commands`,
`argv`.
Key theorems: `count_tokens_spec`, `count_of_settles`, `takeTokens_counted`,
`commands_cut`, `argv_cut`.
-/
import Autumn.Lib.Tokens

namespace Autumn
namespace Shell

def newline : UInt8 := 10
def space : UInt8 := 32
def bar : UInt8 := 124

/-- The `|`-separated pieces of a line. -/
def commands (s : List UInt8) : List (List UInt8) := pieces (· == bar) s

/-- The words of a command. -/
def lexemes (s : List UInt8) : List (List UInt8) := pieces (· == space) s

/-! ### Counting -/

/-- `strncpy(buf, s, strlen(s))`, and the tokens of `buf` counted. -/
def count_tokens {n : ℕ} (d : UInt8 → Bool) (buf : Buf UInt8 n) (s : List UInt8) : Option ℕ := do
  let buf ← buf.store 0 s
  if buf.Term then some (tokens d (n + 1) (.start buf.chars)).1.length else none

/-- `command_count(s)`; `buf` is what its array holds before. -/
def command_count (buf : Buf UInt8 512) (s : List UInt8) : Option ℕ := count_tokens (· == bar) buf s

/-- `lexemes_count(s)`. -/
def lexemes_count (buf : Buf UInt8 50) (s : List UInt8) : Option ℕ := count_tokens (· == space) buf s

/-- The old characters behind `s` end in the array and add no token to it. -/
def Settles (d : UInt8 → Bool) (buf s : List UInt8) : Prop :=
  0 ∈ buf.drop s.length ∧ (pieces d (s ++ cstr (buf.drop s.length))).length = (pieces d s).length

instance (d : UInt8 → Bool) (buf s : List UInt8) : Decidable (Settles d buf s) :=
  inferInstanceAs (Decidable (_ ∧ _))

/-- What is counted: the pieces of `s` and of what follows it in the array. -/
theorem count_tokens_spec {n : ℕ} {d : UInt8 → Bool} (hd : d 0 = false) {buf : Buf UInt8 n} {s : List UInt8}
    (hs : (0 : UInt8) ∉ s) {k : ℕ} : count_tokens d buf s = some k ↔
      0 ∈ buf.chars.drop s.length ∧ k = (pieces d (s ++ cstr (buf.chars.drop s.length))).length := by
  have hmem : ∀ {b : Buf UInt8 n}, buf.store 0 s = some b →
      b.chars = s ++ buf.chars.drop s.length := fun {b} hb => by
    simpa using (Buf.store_spec.mp hb).2
  constructor
  · intro h
    obtain ⟨b, hb, h⟩ := Option.bind_eq_some_iff.mp h
    split at h
    · rename_i ht
      rw [Option.some.injEq, tokens_buf hd ht, Buf.str, hmem hb, cstr_append hs] at h
      rw [Buf.Term, hmem hb, List.mem_append] at ht
      exact ⟨ht.resolve_left hs, h.symm⟩
    · cases h
  · rintro ⟨h0, rfl⟩
    have hlen := List.length_pos_of_mem h0
    rw [List.length_drop, buf.size] at hlen
    obtain ⟨b, hb, -⟩ := buf.exists_store 0 s (by omega)
    have ht : b.Term := by
      rw [Buf.Term, hmem hb]
      exact List.mem_append_right s h0
    rw [count_tokens, hb, Option.bind_eq_bind, Option.bind_some, if_pos ht, tokens_buf hd ht, Buf.str, hmem hb,
      cstr_append hs]

theorem count_of_settles {n : ℕ} {d : UInt8 → Bool} (hd : d 0 = false) {buf : Buf UInt8 n} {s : List UInt8}
    (hs : (0 : UInt8) ∉ s) (h : Settles d buf.chars s) : count_tokens d buf s = some (pieces d s).length :=
  (count_tokens_spec hd hs).mpr ⟨h.1, h.2.symm⟩

theorem settles_of_zeros (d : UInt8 → Bool) {buf s : List UInt8} (hlen : s.length < buf.length)
    (hz : ∀ x ∈ buf.drop s.length, x = 0) : Settles d buf s := by
  have hrep : buf.drop s.length = List.replicate (buf.length - s.length) 0 :=
    List.eq_replicate_iff.mpr ⟨List.length_drop, hz⟩
  rw [Settles, hrep, cstr_replicate_zero, List.append_nil]
  exact ⟨List.mem_replicate.mpr ⟨by omega, rfl⟩, rfl⟩

theorem takeTokens_counted {n : ℕ} {d : UInt8 → Bool} (hd : d 0 = false) {buf : Buf UInt8 n}
    {m s : List UInt8} (hm : 0 ∈ m) (hs : cstr m = s) {k : ℕ} (hk : count_tokens d buf s = some k) :
    (takeTokens d k (strtok d (.start m))).map Prod.fst =
      if Settles d buf.chars s then some (pieces d s) else none := by
  subst hs
  obtain ⟨h0, rfl⟩ := (count_tokens_spec hd (zero_not_mem_cstr m)).mp hk
  have hle := length_pieces_le (d := d) (cstr m) (cstr (buf.chars.drop (cstr m).length))
  rw [takeTokens_eq hd _ (t := .start m) hm, Strtok.rest_start]
  by_cases hset : Settles d buf.chars (cstr m)
  · rw [if_pos hset, if_pos hset.2.le, hset.2, List.take_length]
  · rw [if_neg hset, if_neg]
    exact fun h => hset ⟨h0, le_antisymm h hle⟩

/-! ### Cutting -/

/-- `_command_(s, command_path, count)`: the tokens, and the line after the
cut. `command_path` has room for ten. -/
def _command_ (s : Buf UInt8 512) (count : ℕ) : Option (List (List UInt8) × Buf UInt8 512) :=
  if count ≤ 10 then
    match h : takeTokens (· == bar) count (strtok (· == bar) (.start s.chars)) with
    | none => none
    | some r => some (r.1, ⟨r.2.mem, by rw [takeTokens_length count h, strtok_mem_length]; exact s.size⟩)
  else none

/-- `param(argv, s, path, count)`: the words, `path` in front of the first one.
`argv` has room for 255 and the NULL. -/
def param (s path : List UInt8) (count : ℕ) : Option (List (List UInt8)) :=
  if count < 256 then
    (takeTokens (· == space) count (strtok (· == space) (.start (s ++ [0])))).map fun r =>
      match r.1 with
      | [] => []
      | ptr :: rest => (path ++ ptr) :: rest
  else none

/-- The argument vector of a command. -/
def argv (path s : List UInt8) : List (List UInt8) :=
  match lexemes s with
  | [] => []
  | w :: ws => (path ++ w) :: ws

/-- The line is cut into its commands exactly if the count settles and there
are at most ten. The string left in it is its first token. -/
theorem commands_cut {buf line : Buf UInt8 512} (hl : line.Term) {p : List (List UInt8)}
    {line' : Buf UInt8 512} : (command_count buf line.str).bind (_command_ line) = some (p, line') →
      Settles (· == bar) buf.chars line.str ∧ (commands line.str).length ≤ 10 ∧ p = commands line.str ∧
      line'.Term ∧ line'.str = firstToken (· == bar) line.str := by
  intro h
  obtain ⟨k, hk, h⟩ := Option.bind_eq_some_iff.mp h
  have htake := takeTokens_counted (d := (· == bar)) (s := line.str) rfl hl rfl hk
  unfold _command_ at h
  split at h
  · rename_i h10
    split at h
    · cases h
    · rename_i r hr
      rw [Option.some.injEq, Prod.mk.injEq] at h
      obtain ⟨rfl, rfl⟩ := h
      rw [hr, Option.map_some] at htake
      split at htake
      · rename_i hset
        obtain ⟨hstr, h0⟩ := (takeTokens_cut (d := (· == bar)) rfl k hr (cut_first rfl hl)).mem
        obtain ⟨-, rfl⟩ := (count_tokens_spec (d := (· == bar)) rfl line.str_nz).mp hk
        rw [hset.2] at h10
        exact ⟨hset, h10, Option.some.inj htake, h0, hstr⟩
      · cases htake
  · cases h

theorem exists_commands_cut {buf line : Buf UInt8 512} (hl : line.Term)
    (hset : Settles (· == bar) buf.chars line.str) (h10 : (commands line.str).length ≤ 10) :
    ∃ line', (command_count buf line.str).bind (_command_ line) = some (commands line.str, line') := by
  have hk : command_count buf line.str = some (commands line.str).length :=
    count_of_settles (d := (· == bar)) rfl line.str_nz hset
  have htake := takeTokens_counted (d := (· == bar)) (s := line.str) rfl hl rfl hk
  rw [if_pos hset] at htake
  obtain ⟨r, hr, hp⟩ := Option.map_eq_some_iff.mp htake
  rw [hk, Option.bind_some, _command_, if_pos h10]
  split
  · rename_i hn
    rw [hr] at hn
    cases hn
  · rename_i r' hr'
    rw [hr] at hr'
    cases hr'
    exact ⟨_, by rw [hp]; rfl⟩

theorem argv_cut (buf : Buf UInt8 50) (path : List UInt8) {s : List UInt8} (hs : (0 : UInt8) ∉ s) :
    (lexemes_count buf s).bind (param s path) =
      if Settles (· == space) buf.chars s then some (argv path s) else none := by
  have hstr : cstr (s ++ [0]) = s := cstr_append_zero hs []
  rcases hk : lexemes_count buf s with _ | k
  · rw [if_neg, Option.bind_none]
    intro hset
    rw [lexemes_count, count_of_settles (d := (· == space)) rfl hs hset] at hk
    cases hk
  · obtain ⟨h0, hlen⟩ := (count_tokens_spec (d := (· == space)) rfl hs).mp hk
    have htake := takeTokens_counted (d := (· == space)) rfl (m := s ++ [0]) (by simp) hstr hk
    -- the array bounds the count, so `argv` has room
    have hlt : k < 256 := by
      have h1 := length_pieces_le_length (d := (· == space)) (s ++ cstr (buf.chars.drop s.length))
      have h2 := length_cstr_le (buf.chars.drop s.length)
      have h3 := List.length_pos_of_mem h0
      rw [List.length_append] at h1
      rw [List.length_drop, buf.size] at h2 h3
      omega
    rw [Option.bind_some, param, if_pos hlt]
    split
    · rename_i hset
      rw [if_pos hset] at htake
      obtain ⟨r, hr, hp⟩ := Option.map_eq_some_iff.mp htake
      rw [hr, Option.map_some, hp]
      rfl
    · rename_i hset
      rw [if_neg hset, Option.map_eq_none_iff] at htake
      rw [htake, Option.map_none]

end Shell
end Autumn
