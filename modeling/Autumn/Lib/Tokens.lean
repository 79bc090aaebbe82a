/-
# Cutting a string into tokens

`pieces d l` are the maximal non-empty runs of characters of `l` that are not
delimiters, in order. `strtok` is the C function: it skips delimiters from its
saved pointer on, returns the run that follows and overwrites the delimiter
after it with a NUL, or returns NULL at the end of the string. Its state is
the memory it cuts, split at the saved pointer (`Strtok`).

One call takes the first piece of what is left and leaves the others
(`strtok_spec`), so a loop until NULL collects the pieces of the string
(`tokens_buf`), and a loop that counts gets the first of them or fails
(`takeTokens_eq`). The string at the start of the memory is cut behind its
first token by the first call, and stays so (`Cut`).

Key definitions: `pieces`, `MaxRuns`, `AddsNone`, `lines`, `Strtok`, `strtok`,
`tokens`, `takeTokens`, `storeTokens`, `firstToken`.
Key theorems: `run_induction`, `maxRuns_iff`, `length_pieces_append_iff`,
`pieces_lines`, `flatten_pieces`, `strtok_spec`, `tokens_buf`,
`takeTokens_eq`, `storeTokens_eq`, `takeTokens_cut`.
-/
import Autumn.Lib.CString

namespace Autumn

/-! ### The pieces of a list -/

section Pieces

variable {α : Type*}

/-- The maximal non-empty runs of non-delimiters. -/
def pieces (d : α → Bool) (l : List α) : List (List α) :=
  (l.splitOnP d).filter fun w => !w.isEmpty

variable {d : α → Bool}

@[simp] theorem pieces_nil : pieces d [] = [] := by simp [pieces]

theorem pieces_append_delim (a : List α) {c : α} (h : d c = true) (b : List α) :
    pieces d (a ++ c :: b) = pieces d a ++ pieces d b := by
  rw [pieces, List.splitOnP_append_cons a b h, List.filter_append]
  rfl

theorem pieces_cons_delim {c : α} (h : d c = true) (l : List α) : pieces d (c :: l) = pieces d l := by
  rw [← List.nil_append (c :: l), pieces_append_delim [] h, pieces_nil, List.nil_append]

theorem pieces_single {w : List α} (hw : ∀ x ∈ w, d x = false) (hne : w ≠ []) :
    pieces d w = [w] := by
  rw [pieces, List.splitOnP_eq_singleton hw]
  simp [hne]

theorem pieces_append_delims {s : List α} (hs : ∀ x ∈ s, d x = true) (l : List α) :
    pieces d (s ++ l) = pieces d l := by
  induction s with
  | nil => rfl
  | cons c s ih =>
    rw [List.cons_append, pieces_cons_delim (hs c (by simp)), ih fun x hx => hs x (by simp [hx])]

/-- A list is delimiters only, or delimiters, a run, and what follows the run:
nothing, or a delimiter and more. -/
theorem run_cases (d : α → Bool) (l : List α) :
    (∀ x ∈ l, d x = true) ∨
    ∃ s w r, l = s ++ w ++ r ∧ (∀ x ∈ s, d x = true) ∧ (∀ x ∈ w, d x = false) ∧ w ≠ [] ∧
      (r = [] ∨ ∃ c r', r = c :: r' ∧ d c = true) := by
  rcases hl : l.dropWhile d with _ | ⟨y, ys⟩
  · exact .inl (List.dropWhile_eq_nil_iff.mp hl)
  have hy : d y = false := by
    have := List.head_dropWhile_not d (l := l) (by rw [hl]; simp)
    simpa [hl] using this
  refine .inr ⟨l.takeWhile d, (y :: ys).takeWhile fun c => !d c, (y :: ys).dropWhile fun c => !d c,
    ?_, fun x hx => List.mem_takeWhile_imp hx, fun x hx => ?_, by simp [hy], ?_⟩
  · rw [List.append_assoc, List.takeWhile_append_dropWhile, ← hl, List.takeWhile_append_dropWhile]
  · simpa using List.mem_takeWhile_imp hx
  · rcases hr : (y :: ys).dropWhile (fun c => !d c) with _ | ⟨c, r⟩
    · exact .inl rfl
    · have := List.head_dropWhile_not (fun c => !d c) (l := y :: ys) (by rw [hr]; simp)
      exact .inr ⟨c, r, rfl, by simpa [hr] using this⟩

theorem pieces_run {s w r : List α} (hs : ∀ x ∈ s, d x = true) (hw : ∀ x ∈ w, d x = false)
    (hne : w ≠ []) (hr : r = [] ∨ ∃ c r', r = c :: r' ∧ d c = true) :
    pieces d (s ++ w ++ r) = w :: pieces d r := by
  rw [List.append_assoc, pieces_append_delims hs]
  rcases hr with rfl | ⟨c, r', rfl, hc⟩
  · rw [List.append_nil, pieces_single hw hne, pieces_nil]
  · rw [pieces_append_delim w hc, pieces_single hw hne, pieces_cons_delim hc, List.singleton_append]

theorem pieces_eq_nil_iff {l : List α} : pieces d l = [] ↔ ∀ x ∈ l, d x = true := by
  constructor
  · intro h
    rcases run_cases d l with hl | ⟨s, w, r, rfl, hs, hw, hne, hr⟩
    · exact hl
    · rw [pieces_run hs hw hne hr] at h; cases h
  · intro h
    simpa using pieces_append_delims h []

theorem pieces_ne_nil_mem {l w : List α} (h : w ∈ pieces d l) : w ≠ [] := by
  have := (List.mem_filter.mp h).2
  simpa using this

/-- Induction over a list run by run. -/
theorem run_induction (d : α → Bool) {P : List α → Prop} (delims : ∀ l, (∀ x ∈ l, d x = true) → P l)
    (run : ∀ s w r, (∀ x ∈ s, d x = true) → (∀ x ∈ w, d x = false) → w ≠ [] →
      (r = [] ∨ ∃ c r', r = c :: r' ∧ d c = true) → P r → P (s ++ w ++ r)) (l : List α) : P l := by
  induction hn : l.length using Nat.strongRecOn generalizing l with
  | ind n ih =>
    rcases run_cases d l with hl | ⟨s, w, r, rfl, hs, hw, hne, hr⟩
    · exact delims l hl
    · have hlt : r.length < n := by
        have := List.length_pos_iff.mpr hne
        simp only [List.length_append] at hn
        omega
      exact run s w r hs hw hne hr (ih _ hlt r rfl)

theorem flatten_pieces (l : List α) : (pieces d l).flatten = l.filter fun c => !d c := by
  induction l using run_induction d with
  | delims l hl =>
    rw [pieces_eq_nil_iff.mpr hl, List.flatten_nil, eq_comm, List.filter_eq_nil_iff]
    intro x hx
    simp [hl x hx]
  | run s w r hs hw hne hr ih =>
    have hs' : s.filter (fun c => !d c) = [] := List.filter_eq_nil_iff.mpr fun x hx => by simp [hs x hx]
    have hw' : w.filter (fun c => !d c) = w := List.filter_eq_self.mpr fun x hx => by simp [hw x hx]
    rw [pieces_run hs hw hne hr, List.flatten_cons, ih, List.filter_append, List.filter_append, hs', hw',
      List.nil_append]

theorem mem_of_mem_pieces {l w : List α} (hw : w ∈ pieces d l) {x : α} (hx : x ∈ w) : x ∈ l := by
  have hmem : x ∈ (pieces d l).flatten := List.mem_flatten.mpr ⟨w, hw, hx⟩
  rw [flatten_pieces] at hmem
  exact (List.mem_filter.mp hmem).1

theorem not_delim_of_mem_pieces {l w : List α} (hw : w ∈ pieces d l) {x : α} (hx : x ∈ w) : d x = false := by
  have hmem : x ∈ (pieces d l).flatten := List.mem_flatten.mpr ⟨w, hw, hx⟩
  rw [flatten_pieces] at hmem
  simpa using (List.mem_filter.mp hmem).2

theorem length_le_of_mem_pieces {l w : List α} (hw : w ∈ pieces d l) : w.length ≤ l.length := by
  calc w.length ≤ (pieces d l).flatten.length := (List.sublist_flatten_of_mem hw).length_le
    _ = (l.filter fun c => !d c).length := by rw [flatten_pieces]
    _ ≤ l.length := List.length_filter_le _ l

theorem length_le_length_flatten {L : List (List α)} (h : ∀ w ∈ L, w ≠ []) : L.length ≤ L.flatten.length := by
  induction L with
  | nil => rfl
  | cons w L ih =>
    have hw := List.length_pos_iff.mpr (h w List.mem_cons_self)
    have := ih fun v hv => h v (List.mem_cons_of_mem w hv)
    simp only [List.length_cons, List.flatten_cons, List.length_append]
    omega

theorem length_pieces_le_length (l : List α) : (pieces d l).length ≤ l.length := by
  calc (pieces d l).length ≤ (pieces d l).flatten.length :=
        length_le_length_flatten fun _ => pieces_ne_nil_mem
    _ = (l.filter fun c => !d c).length := by rw [flatten_pieces]
    _ ≤ l.length := List.length_filter_le _ l

/-- More characters behind a list make no fewer pieces. -/
theorem length_pieces_le (l z : List α) : (pieces d l).length ≤ (pieces d (l ++ z)).length := by
  induction l using run_induction d with
  | delims l hl =>
    rw [pieces_eq_nil_iff.mpr hl]
    exact Nat.zero_le _
  | run s w r hs hw hne hr ih =>
    rw [pieces_run hs hw hne hr]
    rcases hr with rfl | ⟨c, r', rfl, hc⟩
    · rw [pieces_nil, List.append_nil]
      refine List.length_pos_iff.mpr fun h0 => ?_
      obtain ⟨x, hx⟩ := List.exists_mem_of_ne_nil w hne
      have := pieces_eq_nil_iff.mp h0 x (by simp [hx])
      rw [hw x hx] at this
      cases this
    · have happ : s ++ w ++ c :: r' ++ z = s ++ w ++ c :: (r' ++ z) := by simp
      rw [happ, pieces_run hs hw hne (.inr ⟨c, r' ++ z, rfl, hc⟩)]
      exact Nat.succ_le_succ ih

/-! ### The reference grammar -/

/-- The second list is the maximal non-empty runs of non-delimiters of the
first, in order. -/
inductive MaxRuns (d : α → Bool) : List α → List (List α) → Prop
  | delims {l : List α} : (∀ x ∈ l, d x = true) → MaxRuns d l []
  | run {s w r : List α} {ws : List (List α)} : (∀ x ∈ s, d x = true) → (∀ x ∈ w, d x = false) → w ≠ [] →
      (r = [] ∨ ∃ c r', r = c :: r' ∧ d c = true) → MaxRuns d r ws → MaxRuns d (s ++ w ++ r) (w :: ws)

theorem maxRuns_pieces (d : α → Bool) (l : List α) : MaxRuns d l (pieces d l) := by
  induction l using run_induction d with
  | delims l hl =>
    rw [pieces_eq_nil_iff.mpr hl]
    exact .delims hl
  | run s w r hs hw hne hr ih =>
    rw [pieces_run hs hw hne hr]
    exact .run hs hw hne hr ih

/-- A list has one division into maximal runs, its pieces. -/
theorem maxRuns_iff {l : List α} {ws : List (List α)} : MaxRuns d l ws ↔ ws = pieces d l := by
  constructor
  · intro h
    induction h with
    | delims hl => exact (pieces_eq_nil_iff.mpr hl).symm
    | run hs hw hne hr _ ih => rw [pieces_run hs hw hne hr, ih]
  · rintro rfl
    exact maxRuns_pieces d l

/-! ### Characters that add no piece -/

/-- The last character is there, and not a delimiter. -/
def endsRun (d : α → Bool) (l : List α) : Bool := l.getLast?.any fun x => !d x

/-- Behind `l`, the characters `t` make no piece of their own: they are
delimiters, but for those that go on with the last run of `l`. -/
def AddsNone (d : α → Bool) (l t : List α) : Prop :=
  ∀ x ∈ if endsRun d l then t.dropWhile (fun c => !d c) else t, d x = true

instance (d : α → Bool) (l t : List α) : Decidable (AddsNone d l t) :=
  inferInstanceAs (Decidable (∀ x ∈ _, _))

theorem endsRun_append (l : List α) {r : List α} (h : r ≠ []) : endsRun d (l ++ r) = endsRun d r := by
  rw [endsRun, endsRun, List.getLast?_append_of_ne_nil l h]

theorem length_pieces_append_run {l w : List α} (hl : endsRun d l = true) (hw : ∀ x ∈ w, d x = false) :
    (pieces d (l ++ w)).length = (pieces d l).length := by
  induction l using run_induction d with
  | delims l hall =>
    obtain ⟨x, hx, hd⟩ := (Option.any_eq_true _ _).mp hl
    have := hall x (List.mem_of_getLast? hx)
    simp [this] at hd
  | run s v r hs hv hne hr ih =>
    rcases hr with rfl | ⟨c, r', rfl, hc⟩
    · have hvw : ∀ x ∈ v ++ w, d x = false := fun x hx => (List.mem_append.mp hx).elim (hv x) (hw x)
      have happ : s ++ v ++ [] ++ w = s ++ (v ++ w) ++ [] := by simp
      rw [happ, pieces_run hs hvw (by simp [hne]) (.inl rfl), pieces_run hs hv hne (.inl rfl)]
      rfl
    · rw [endsRun_append _ (by simp)] at hl
      have happ : s ++ v ++ c :: r' ++ w = s ++ v ++ c :: (r' ++ w) := by simp
      rw [happ, pieces_run hs hv hne (.inr ⟨c, r' ++ w, rfl, hc⟩), pieces_run hs hv hne (.inr ⟨c, r', rfl, hc⟩)]
      exact congrArg Nat.succ (ih hl)

/-- What follows a list whose last run has ended makes pieces of its own. -/
theorem pieces_append_of_ended {l : List α} (h : endsRun d l = false) (t : List α) :
    pieces d (l ++ t) = pieces d l ++ pieces d t := by
  rcases List.eq_nil_or_concat l with rfl | ⟨a, c, rfl⟩
  · rw [pieces_nil, List.nil_append, List.nil_append]
  · rw [List.concat_eq_append] at h ⊢
    have hc : d c = true := by simpa [endsRun] using h
    rw [List.append_assoc, List.singleton_append, pieces_append_delim a hc, pieces_append_delim a hc, pieces_nil,
      List.append_nil]

/-- **When characters behind a list add no piece.** -/
theorem length_pieces_append_iff {l t : List α} :
    (pieces d (l ++ t)).length = (pieces d l).length ↔ AddsNone d l t := by
  unfold AddsNone
  by_cases hl : endsRun d l = true
  · rw [if_pos hl, ← pieces_eq_nil_iff]
    have hw : ∀ x ∈ t.takeWhile (fun c => !d c), d x = false := fun x hx => by simpa using List.mem_takeWhile_imp hx
    have hsplit : l ++ t = l ++ t.takeWhile (fun c => !d c) ++ t.dropWhile (fun c => !d c) := by
      rw [List.append_assoc, List.takeWhile_append_dropWhile]
    have hrun := length_pieces_append_run hl hw
    rcases hr : t.dropWhile (fun c => !d c) with _ | ⟨c, r⟩
    · rw [hsplit, hr, List.append_nil, hrun]
      simp
    · have hc : d c = true := by
        have := List.head_dropWhile_not (fun c => !d c) (l := t) (by rw [hr]; simp)
        simpa [hr] using this
      rw [hsplit, hr, pieces_append_delim _ hc, pieces_cons_delim hc, List.length_append, hrun]
      simp
  · rw [if_neg hl, ← pieces_eq_nil_iff, pieces_append_of_ended (by simpa using hl), List.length_append]
    simp

/-- The words, each with `nl` behind it. -/
def lines (nl : α) (L : List (List α)) : List α := L.flatMap fun w => w ++ [nl]

@[simp] theorem lines_nil (nl : α) : lines nl [] = [] := rfl

@[simp] theorem lines_cons (nl : α) (w : List α) (L : List (List α)) :
    lines nl (w :: L) = w ++ nl :: lines nl L := by
  simp [lines]

theorem lines_concat (nl : α) (L : List (List α)) (w : List α) :
    lines nl (L ++ [w]) = lines nl L ++ w ++ [nl] := by
  simp [lines]

theorem pieces_lines [DecidableEq α] {nl : α} {L : List (List α)} (hL : ∀ w ∈ L, w ≠ [] ∧ nl ∉ w) :
    pieces (· == nl) (lines nl L) = L := by
  induction L with
  | nil => rw [lines_nil, pieces_nil]
  | cons w L ih =>
    obtain ⟨hne, hnl⟩ := hL w List.mem_cons_self
    have hw : ∀ c ∈ w, (c == nl) = false := fun c hc => by
      rw [beq_eq_false_iff_ne]
      rintro rfl
      exact hnl hc
    rw [lines_cons, pieces_append_delim (d := (· == nl)) w (beq_self_eq_true nl), pieces_single hw hne,
      ih fun v hv => hL v (List.mem_cons_of_mem w hv)]
    rfl

/-- Leading delimiters and the first piece. -/
def firstToken (d : α → Bool) (l : List α) : List α :=
  l.takeWhile d ++ (l.dropWhile d).takeWhile fun c => !d c

theorem firstToken_of_delims {l : List α} (h : ∀ x ∈ l, d x = true) : firstToken d l = l := by
  have hdrop : l.dropWhile d = [] := List.dropWhile_eq_nil_iff.mpr h
  have htake : l.takeWhile d = l := List.takeWhile_eq_self_iff.mpr h
  rw [firstToken, hdrop, htake, List.takeWhile_nil, List.append_nil]

theorem firstToken_run {s w r : List α} (hs : ∀ x ∈ s, d x = true) (hw : ∀ x ∈ w, d x = false)
    (hne : w ≠ []) (hr : r = [] ∨ ∃ c r', r = c :: r' ∧ d c = true) :
    firstToken d (s ++ w ++ r) = s ++ w := by
  obtain ⟨y, ys, rfl⟩ := List.exists_cons_of_ne_nil hne
  have hy : d y = false := hw y List.mem_cons_self
  have hrun : ∀ x ∈ y :: ys, (!d x) = true := fun x hx => by simp [hw x hx]
  have htake : (s ++ (y :: ys) ++ r).takeWhile d = s := by
    rw [List.append_assoc, List.takeWhile_append_of_pos hs, List.cons_append, List.takeWhile_cons_of_neg,
      List.append_nil]
    simp [hy]
  have hdrop : (s ++ (y :: ys) ++ r).dropWhile d = (y :: ys) ++ r := by
    rw [List.append_assoc, List.dropWhile_append_of_pos hs, List.cons_append, List.dropWhile_cons_of_neg]
    simp [hy]
  have hend : r.takeWhile (fun c => !d c) = [] := by
    rcases hr with rfl | ⟨c, r', rfl, hc⟩
    · rfl
    · rw [List.takeWhile_cons_of_neg]
      simp [hc]
  rw [firstToken, htake, hdrop, List.takeWhile_append_of_pos hrun, hend, List.append_nil]

end Pieces

/-! ### `strtok` -/

variable {α : Type*} [Zero α] [DecidableEq α]

/-- The memory being cut: what lies before the saved pointer, and what lies
from it on. -/
structure Strtok (α : Type*) where
  done : List α
  rest : List α
  deriving DecidableEq

/-- `strtok(s, ...)` starts at the beginning of its string. -/
def Strtok.start (m : List α) : Strtok α := ⟨[], m⟩

/-- The memory. -/
def Strtok.mem (t : Strtok α) : List α := t.done ++ t.rest

omit [Zero α] [DecidableEq α] in
@[simp] theorem Strtok.rest_start (m : List α) : (start m).rest = m := rfl

/-- One call: the token, or `none` for NULL. -/
def strtok (d : α → Bool) (t : Strtok α) : Option (List α) × Strtok α :=
  let skipped := t.rest.takeWhile d
  let s := t.rest.dropWhile d
  let tok := s.takeWhile fun c => decide (c ≠ 0) && !d c
  if tok = [] then (none, ⟨t.done ++ skipped, s⟩)
  else
    match s.drop tok.length with
    | [] => (some tok, ⟨t.done ++ skipped ++ tok, []⟩)
    | c :: r =>
      -- the delimiter after the token becomes a NUL; the NUL of the string stays
      if c = 0 then (some tok, ⟨t.done ++ skipped ++ tok, c :: r⟩)
      else (some tok, ⟨t.done ++ skipped ++ tok ++ [0], r⟩)

/-- `while (ptr != NULL) { ...; ptr = strtok(NULL, ...); }`: the tokens up to
the first NULL, and the memory then. -/
def tokens (d : α → Bool) : ℕ → Strtok α → List (List α) × Strtok α
  | 0, t => ([], t)
  | f + 1, t =>
    match strtok d t with
    | (none, t') => ([], t')
    | (some w, t') => (w :: (tokens d f t').1, (tokens d f t').2)

section Strtok

variable {d : α → Bool} (hd : d 0 = false)

include hd

theorem strtok_end (done : List α) {s r : List α} (hs : ∀ x ∈ s, d x = true) :
    strtok d ⟨done, s ++ 0 :: r⟩ = (none, ⟨done ++ s, 0 :: r⟩) := by
  simp [strtok, List.takeWhile_append_of_pos hs, List.dropWhile_append_of_pos hs, hd]

omit hd in
/-- At delimiters and then a run that `c`, a delimiter or the NUL, ends: the
run; a delimiter is overwritten with a NUL. -/
theorem strtok_run (done : List α) {s w r : List α} {c : α} (hs : ∀ x ∈ s, d x = true)
    (hw : ∀ x ∈ w, d x = false) (hw0 : (0 : α) ∉ w) (hne : w ≠ []) (hc : d c = true ∨ c = 0) :
    strtok d ⟨done, s ++ w ++ c :: r⟩ =
      (some w, if c = 0 then ⟨done ++ s ++ w, c :: r⟩ else ⟨done ++ s ++ w ++ [0], r⟩) := by
  obtain ⟨y, ys, rfl⟩ := List.exists_cons_of_ne_nil hne
  have hy : d y = false := hw y (by simp)
  have hrun : ∀ x ∈ y :: ys, (decide (x ≠ 0) && !d x) = true := fun x hx => by
    have : x ≠ 0 := fun h => hw0 (h ▸ hx)
    simp [this, hw x hx]
  have hdrop : (s ++ (y :: ys) ++ c :: r).dropWhile d = (y :: ys) ++ c :: r := by
    rw [List.append_assoc, List.dropWhile_append_of_pos hs, List.cons_append, List.dropWhile_cons_of_neg]
    simp [hy]
  have htake : (s ++ (y :: ys) ++ c :: r).takeWhile d = s := by
    rw [List.append_assoc, List.takeWhile_append_of_pos hs, List.cons_append, List.takeWhile_cons_of_neg,
      List.append_nil]
    simp [hy]
  have htok : ((y :: ys) ++ c :: r).takeWhile (fun c => decide (c ≠ 0) && !d c) = y :: ys := by
    rw [List.takeWhile_append_of_pos hrun, List.takeWhile_cons_of_neg, List.append_nil]
    rcases hc with hc | hc <;> simp [hc]
  simp only [strtok, hdrop, htake, htok]
  by_cases h0 : c = 0 <;> simp [h0]

/-- **One call of `strtok`** on a terminated string returns the first of the
pieces left, or NULL if there is none, and leaves the others. -/
theorem strtok_spec {t : Strtok α} (ht : (0 : α) ∈ t.rest) :
    (strtok d t).1 = (pieces d (cstr t.rest)).head? ∧
    pieces d (cstr (strtok d t).2.rest) = (pieces d (cstr t.rest)).tail ∧
    (0 : α) ∈ (strtok d t).2.rest := by
  obtain ⟨done, rest⟩ := t
  obtain ⟨l, tl, h0, rfl⟩ : ∃ l tl, (0 : α) ∉ l ∧ rest = l ++ 0 :: tl :=
    ⟨_, _, zero_not_mem_cstr rest, eq_cstr_append ht⟩
  simp only [cstr_append_zero h0]
  rcases run_cases d l with hl | ⟨s, w, r, rfl, hs, hw, hne, hr⟩
  · rw [strtok_end hd done hl, pieces_eq_nil_iff.mpr hl]
    simp
  · have hw0 : (0 : α) ∉ w := fun h => h0 (by simp [h])
    have hr0 : (0 : α) ∉ r := fun h => h0 (by simp [h])
    rw [pieces_run hs hw hne hr]
    rcases hr with rfl | ⟨c, r', rfl, hc⟩
    · rw [List.append_nil, strtok_run done hs hw hw0 hne (.inr rfl)]
      simp
    · have hc0 : c ≠ 0 := fun h => hr0 (by simp [h])
      rw [List.append_assoc (s ++ w), List.cons_append, strtok_run done hs hw hw0 hne (.inl hc), if_neg hc0]
      simp only [List.mem_cons, not_or] at hr0
      simp [cstr_append_zero hr0.2, pieces_cons_delim hc]

omit hd in
theorem strtok_length {t t' : Strtok α} {w : List α} (h : strtok d t = (some w, t')) :
    t'.rest.length < t.rest.length := by
  simp only [strtok] at h
  split at h
  · cases h
  · rename_i hne
    have hlen : (t.rest.dropWhile d).length ≤ t.rest.length := (List.dropWhile_sublist _).length_le
    have hpos := List.length_pos_iff.mpr hne
    have htk := (List.takeWhile_sublist (l := t.rest.dropWhile d)
      fun c => decide (c ≠ 0) && !d c).length_le
    split at h
    · cases h; simp; omega
    · rename_i c r hdrop
      have hl := congrArg List.length hdrop
      simp only [List.length_drop, List.length_cons] at hl
      split at h <;> cases h <;> simp only [List.length_cons] <;> omega

/-- **The loop until NULL** collects the pieces of the string. -/
theorem tokens_eq_pieces : ∀ (f : ℕ) {t : Strtok α}, (0 : α) ∈ t.rest → t.rest.length < f →
    (tokens d f t).1 = pieces d (cstr t.rest)
  | 0, _, _, hf => by omega
  | f + 1, t, ht, hf => by
    obtain ⟨h1, h2, h3⟩ := strtok_spec hd ht
    rw [tokens]
    rcases hst : strtok d t with ⟨_ | w, t'⟩
    · rw [hst] at h1
      exact (List.head?_eq_none_iff.mp h1.symm).symm
    · have hlt := strtok_length hst
      rw [hst] at h1 h2 h3
      have ih := tokens_eq_pieces f (t := t') h3 (by omega)
      simp only [ih, h2]
      rcases hp : pieces d (cstr t.rest) with _ | ⟨w', ws⟩
      · rw [hp] at h1; cases h1
      · rw [hp] at h1
        cases h1
        rfl

theorem tokens_buf {n : ℕ} {b : Buf α n} (ht : b.Term) :
    (tokens d (n + 1) (Strtok.start b.chars)).1 = pieces d b.str :=
  tokens_eq_pieces hd (n + 1) (t := Strtok.start b.chars) ht (by simp)

/-! ### A loop that counts -/

/-- `ptr` is what the last call returned; `for (i = 0; i < k; i++) { strdup(ptr);
ptr = strtok(NULL, ...); }` needs a token each time. -/
def takeTokens (d : α → Bool) : ℕ → Option (List α) × Strtok α → Option (List (List α) × Strtok α)
  | 0, (_, t) => some ([], t)
  | _ + 1, (none, _) => none
  | k + 1, (some w, t) => (takeTokens d k (strtok d t)).map fun r => (w :: r.1, r.2)

/-- **The loop that counts** gets the first `k` pieces; there must be that many. -/
theorem takeTokens_eq : ∀ (k : ℕ) {t : Strtok α}, (0 : α) ∈ t.rest →
    (takeTokens d k (strtok d t)).map Prod.fst =
      if k ≤ (pieces d (cstr t.rest)).length then some ((pieces d (cstr t.rest)).take k) else none
  | 0, _, _ => by simp [takeTokens]
  | k + 1, t, ht => by
    obtain ⟨h1, h2, h3⟩ := strtok_spec hd ht
    rcases hst : strtok d t with ⟨_ | w, t'⟩
    · rw [hst] at h1
      rw [List.head?_eq_none_iff.mp h1.symm]
      rfl
    · rw [hst] at h1 h2 h3
      rcases hp : pieces d (cstr t.rest) with _ | ⟨w', ws⟩
      · rw [hp] at h1; cases h1
      · rw [hp] at h1 h2
        cases h1
        have ih := takeTokens_eq k h3
        rw [show pieces d (cstr t'.rest) = ws from h2] at ih
        have hmap : (Prod.fst ∘ fun r : List (List α) × Strtok α => (w :: r.1, r.2)) =
            (w :: ·) ∘ Prod.fst := rfl
        rw [takeTokens, Option.map_map, hmap, ← Option.map_map, ih, List.length_cons]
        by_cases hk : k ≤ ws.length
        · rw [if_pos hk, if_pos (Nat.succ_le_succ hk), Option.map_some, List.take_succ_cons]
        · rw [if_neg hk, if_neg (fun h => hk (Nat.le_of_succ_le_succ h)), Option.map_none]

/-- What such a loop writes to its array from index `i` on, `a[i] = f(i, ptr)`,
and whether it had a token each time. -/
def storeTokens {β : Type*} (f : ℕ → List α → β) (d : α → Bool) :
    ℕ → ℕ → Option (List α) × Strtok α → List (ℕ × β) × Bool
  | 0, _, _ => ([], true)
  | _ + 1, _, (none, _) => ([], false)
  | k + 1, i, (some w, t) =>
    ((i, f i w) :: (storeTokens f d k (i + 1) (strtok d t)).1, (storeTokens f d k (i + 1) (strtok d t)).2)

omit hd in
theorem takeTokens_storeTokens : ∀ (k i : ℕ) (p : Option (List α) × Strtok α),
    (takeTokens d k p).map Prod.fst =
      if (storeTokens (fun _ w => w) d k i p).2 then some ((storeTokens (fun _ w => w) d k i p).1.map Prod.snd)
      else none
  | 0, _, _ => rfl
  | _ + 1, _, (none, _) => rfl
  | k + 1, i, (some w, t) => by
    have ih := takeTokens_storeTokens k (i + 1) (strtok d t)
    have hmap : (Prod.fst ∘ fun r : List (List α) × Strtok α => (w :: r.1, r.2)) = (w :: ·) ∘ Prod.fst := rfl
    rw [takeTokens, Option.map_map, hmap, ← Option.map_map, ih, storeTokens]
    split <;> rfl

/-- **What is written**: the first `k` pieces in order; there must be that
many. -/
theorem storeTokens_eq {β : Type*} (f : ℕ → List α → β) : ∀ (k i : ℕ) {t : Strtok α}, (0 : α) ∈ t.rest →
    storeTokens f d k i (strtok d t) =
      ((((pieces d (cstr t.rest)).take k).zipIdx i).map (fun p => (p.2, f p.2 p.1)),
        decide (k ≤ (pieces d (cstr t.rest)).length))
  | 0, _, _, _ => by simp [storeTokens]
  | k + 1, i, t, ht => by
    obtain ⟨h1, h2, h3⟩ := strtok_spec hd ht
    rcases hst : strtok d t with ⟨_ | w, t'⟩
    · rw [hst] at h1
      rw [List.head?_eq_none_iff.mp h1.symm]
      simp [storeTokens]
    · rw [hst] at h1 h2 h3
      rcases hp : pieces d (cstr t.rest) with _ | ⟨w', ws⟩
      · rw [hp] at h1
        cases h1
      · rw [hp] at h1 h2
        cases h1
        have hws : pieces d (cstr t'.rest) = ws := h2
        rw [storeTokens, storeTokens_eq f k (i + 1) h3, hws, List.take_succ_cons, List.zipIdx_cons,
          List.map_cons]
        simp

/-! ### What the calls leave at the start of the memory -/

omit hd in
theorem strtok_mem_length (t : Strtok α) : (strtok d t).2.mem.length = t.mem.length := by
  have hlen : (t.rest.takeWhile d).length + (t.rest.dropWhile d).length = t.rest.length := by
    rw [← List.length_append, List.takeWhile_append_dropWhile]
  simp only [strtok]
  split
  · simp only [Strtok.mem, List.length_append]
    omega
  · have htk := (List.takeWhile_sublist (l := t.rest.dropWhile d) fun c => decide (c ≠ 0) && !d c).length_le
    split
    · rename_i hdrop
      have hl := congrArg List.length hdrop
      simp only [List.length_drop, List.length_nil] at hl
      simp only [Strtok.mem, List.length_append, List.length_nil]
      omega
    · rename_i c r hdrop
      have hl := congrArg List.length hdrop
      simp only [List.length_drop, List.length_cons] at hl
      split
      · simp only [Strtok.mem, List.length_append, List.length_cons]
        omega
      · simp only [Strtok.mem, List.length_append, List.length_cons, List.length_nil]
        omega

/-- The string at the start of the memory is `e`, and no call changes it: it
ends before the saved pointer, or at it. -/
def Cut (e : List α) (t : Strtok α) : Prop :=
  (0 : α) ∈ t.done ∧ cstr t.done = e ∨ t.done = e ∧ (0 : α) ∉ e ∧ ∃ r, t.rest = 0 :: r

omit hd in
theorem Cut.mem {e : List α} {t : Strtok α} (h : Cut e t) : cstr t.mem = e ∧ (0 : α) ∈ t.mem := by
  rcases h with ⟨h0, he⟩ | ⟨rfl, h0, r, hr⟩
  · exact ⟨by rw [Strtok.mem, cstr_append_of_mem h0, he], List.mem_append_left _ h0⟩
  · rw [Strtok.mem, hr]
    exact ⟨cstr_append_zero h0 r, by simp⟩

omit hd in
theorem strtok_done (t : Strtok α) : t.done <+: (strtok d t).2.done := by
  simp only [strtok]
  split
  · exact List.prefix_append _ _
  · split
    · exact ⟨_, (List.append_assoc _ _ _).symm⟩
    · split
      · exact ⟨_, (List.append_assoc _ _ _).symm⟩
      · refine ⟨t.rest.takeWhile d ++ ((t.rest.dropWhile d).takeWhile fun c => decide (c ≠ 0) && !d c) ++ [0],
          ?_⟩
        simp

theorem Cut.strtok {e : List α} {t : Strtok α} (h : Cut e t) : Cut e (strtok d t).2 := by
  rcases h with ⟨h0, he⟩ | ⟨he, h0, r, hr⟩
  · obtain ⟨x, hx⟩ := strtok_done (d := d) t
    left
    rw [← hx]
    exact ⟨List.mem_append_left _ h0, by rw [cstr_append_of_mem h0, he]⟩
  · obtain ⟨done, rest⟩ := t
    subst hr
    have := strtok_end hd done (s := []) (r := r) (by simp)
    rw [List.nil_append, List.append_nil] at this
    rw [this]
    exact .inr ⟨he, h0, r, rfl⟩

/-- The first call cuts the string behind its first token. -/
theorem cut_first {m : List α} (hm : (0 : α) ∈ m) :
    Cut (firstToken d (cstr m)) (strtok d (Strtok.start m)).2 := by
  obtain ⟨l, tl, h0, rfl⟩ : ∃ l tl, (0 : α) ∉ l ∧ m = l ++ 0 :: tl :=
    ⟨_, _, zero_not_mem_cstr m, eq_cstr_append hm⟩
  rw [cstr_append_zero h0, Strtok.start]
  rcases run_cases d l with hl | ⟨s, w, r, rfl, hs, hw, hne, hr⟩
  · rw [strtok_end hd [] hl, firstToken_of_delims hl]
    exact .inr ⟨List.nil_append l, h0, tl, rfl⟩
  · have hw0 : (0 : α) ∉ w := fun h => h0 (by simp [h])
    have hs0 : (0 : α) ∉ s := fun h => h0 (by simp [h])
    have hsw : (0 : α) ∉ s ++ w := by simp [hs0, hw0]
    rw [firstToken_run hs hw hne hr]
    rcases hr with rfl | ⟨c, r', rfl, hc⟩
    · rw [List.append_nil, strtok_run [] hs hw hw0 hne (.inr rfl), if_pos rfl]
      exact .inr ⟨by simp, hsw, tl, rfl⟩
    · have hc0 : c ≠ 0 := fun h => h0 (by simp [h])
      rw [List.append_assoc (s ++ w), List.cons_append, strtok_run [] hs hw hw0 hne (.inl hc), if_neg hc0]
      refine .inl ⟨by simp, ?_⟩
      rw [List.nil_append]
      exact cstr_append_zero hsw []

omit hd in
theorem takeTokens_length : ∀ (k : ℕ) {p : Option (List α) × Strtok α} {r : List (List α) × Strtok α},
    takeTokens d k p = some r → r.2.mem.length = p.2.mem.length
  | 0, (_, t), r, h => by
    cases h
    rfl
  | _ + 1, (none, _), r, h => by cases h
  | k + 1, (some w, t), r, h => by
    obtain ⟨r', h', rfl⟩ := Option.map_eq_some_iff.mp h
    exact (takeTokens_length k h').trans (strtok_mem_length t)

theorem takeTokens_cut {e : List α} :
    ∀ (k : ℕ) {p : Option (List α) × Strtok α} {r : List (List α) × Strtok α},
    takeTokens d k p = some r → Cut e p.2 → Cut e r.2
  | 0, (_, t), r, h, hc => by
    cases h
    exact hc
  | _ + 1, (none, _), r, h, hc => by cases h
  | k + 1, (some w, t), r, h, hc => by
    obtain ⟨r', h', rfl⟩ := Option.map_eq_some_iff.mp h
    have h2 := takeTokens_cut k h' (hc.strtok hd)
    exact h2

end Strtok

end Autumn
