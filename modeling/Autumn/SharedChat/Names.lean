/-
# The name list of the shared-memory chat (`chat 2/client.c`)

The names of the users are lines of a shared segment. A client that joins
appends its name (`send_name`); one that leaves reads the segment into `buf`,
cuts it into lines, writes those that are not its name to a cleared array, and
these back to the cleared segment (`delete_name`).

The copy is made by `strncat`, and `buf` has not been cleared: the lines that
are cut are those of what `buf` held before, followed by the list. And every
line that is the name goes, not only the one that was appended. So a client
that comes and goes leaves the list as it was exactly if its name was not in
it before and what `buf` held adds nothing (`Harmless`): it is a string with
room behind it, whose lines are all the name; or, if its last line is
unfinished, that line ends up in front of the first name of the list and makes
it the leaving one, while a line before it happens to be the lost one.

The segment is as the server makes it, `size` bytes; an access outside an
array, or a string without its NUL, is `none`.

Key definitions: `send_name`, `delete_name`, `Cancels`, `Harmless`.
Key theorems: `send_name_spec`, `delete_name_eq_some`, `exists_delete_name`,
`cancels_iff_harmless`.
-/
import Autumn.Lib.Lines

namespace Autumn
namespace SharedChat

/-- `'\n'` -/
abbrev newline : UInt8 := 10

/-- `int size = 1024;` in the server's `name_list`. -/
abbrev size : ℕ := 1024

/-- `send_name`, once `name` has been typed. -/
def send_name (addr : Buf UInt8 size) (name : List UInt8) : Option (Buf UInt8 size) :=
  (addr.strcat (name ++ [0])).bind fun addr => addr.strcat [newline, 0]

/-- A turn of the loop of `delete_name`, on the token at `ptr`. -/
def keep_name (name : List UInt8) (name_list : Buf UInt8 4096) (ptr : List UInt8) : Option (Buf UInt8 4096) :=
  if strcmpEq (name ++ [0]) ptr then some name_list
  else (name_list.strncat (ptr ++ [0]) ptr.length).bind fun name_list => name_list.strcat [newline, 0]

/-- `delete_name`; `buf` is what its local array holds when it is called. -/
def delete_name (buf : Buf UInt8 4096) (addr : Buf UInt8 size) (name : List UInt8) : Option (Buf UInt8 size) := do
  guard addr.Term
  let buf ← buf.strncat addr.chars addr.str.length
  let name_list ← (tokens (· == newline) (4096 + 1) (Strtok.start buf.chars)).1.foldlM (keep_name name)
    (Buf.zeros UInt8 4096)
  (Buf.zeros UInt8 size).strncat name_list.chars name_list.str.length

/-- Joining and leaving again stay inside their arrays and leave the list as it
was. -/
def Cancels (buf : Buf UInt8 4096) (addr : Buf UInt8 size) (name : List UInt8) : Prop :=
  ∃ addr', ((send_name addr name).bind fun addr => delete_name buf addr name) = some addr' ∧
    addr'.Term ∧ addr'.str = addr.str

/-- The leaving client has the only entry of that name, and what is in `buf`
before the list adds no line to it. -/
def Harmless (buf : Buf UInt8 4096) (L : List (List UInt8)) (n : List UInt8) : Prop :=
  buf.Term ∧ buf.str.length + (lines newline (L ++ [n])).length < 4096 ∧ n ∉ L ∧
    if unfinished newline buf.str = [] then ∀ w ∈ pieces (· == newline) buf.str, w = n
    else ∃ w ∈ L.head?, unfinished newline buf.str ++ w = n ∧
      (pieces (· == newline) (finished newline buf.str)).filter (fun v => v ≠ n) = [w]

/-- A name of the list: a word of one line. -/
def Name (w : List UInt8) : Prop := w ≠ [] ∧ newline ∉ w ∧ (0 : UInt8) ∉ w

instance (w : List UInt8) : Decidable (Name w) := inferInstanceAs (Decidable (_ ∧ _))

/-! ### Joining and leaving -/

theorem newline_ne_zero : newline ≠ 0 := by decide

/-- **Joining** appends the line of the name. -/
theorem send_name_spec {addr : Buf UInt8 size} (ht : addr.Term) {n : List UInt8} (hn : (0 : UInt8) ∉ n)
    (h : addr.str.length + n.length + 1 < size) :
    ∃ addr', send_name addr n = some addr' ∧ addr'.str = addr.str ++ n ++ [newline] ∧ addr'.Term := by
  have hsrc : cstr (n ++ [0]) = n := cstr_append_zero hn []
  have hone : cstr [newline, 0] = [newline] := by decide
  obtain ⟨b1, h1, hs1, ht1⟩ := addr.strcat_spec (n ++ [0]) ht (by simp) (by rw [hsrc]; omega)
  obtain ⟨b2, h2, hs2, ht2⟩ := b1.strcat_spec [newline, 0] ht1 (by simp)
    (by rw [hs1, hsrc, hone, List.length_append, List.length_singleton]; omega)
  exact ⟨b2, by rw [send_name, h1]; exact h2, by rw [hs2, hs1, hsrc, hone], ht2⟩

/-- The lines that `delete_name` writes back. -/
def kept (buf : Buf UInt8 4096) (addr : Buf UInt8 size) (n : List UInt8) : List (List UInt8) :=
  (pieces (· == newline) (buf.str ++ addr.str)).filter fun w => w ≠ n

theorem kept_spec {buf : Buf UInt8 4096} {addr : Buf UInt8 size} {n w : List UInt8} (hw : w ∈ kept buf addr n) :
    w ≠ [] ∧ newline ∉ w := by
  have hp := (List.mem_filter.mp hw).1
  exact ⟨pieces_ne_nil_mem hp, fun h => by simpa using not_delim_of_mem_pieces hp h⟩

theorem tokens_copy {buf b : Buf UInt8 4096} {addr : Buf UInt8 size} (ht : b.Term)
    (hs : b.str = buf.str ++ addr.str) : (tokens (· == newline) (4096 + 1) (Strtok.start b.chars)).1 =
      pieces (· == newline) (buf.str ++ addr.str) := by
  rw [tokens_buf (by decide) ht, hs]

theorem zero_not_mem_pieces (buf : Buf UInt8 4096) (addr : Buf UInt8 size) :
    ∀ w ∈ pieces (· == newline) (buf.str ++ addr.str), (0 : UInt8) ∉ w := fun w hw h => by
  have := mem_of_mem_pieces hw h
  simp [buf.str_nz, addr.str_nz] at this

/-- What **leaving** does, if it stays inside its arrays. -/
theorem delete_name_eq_some {buf : Buf UInt8 4096} {addr addr' : Buf UInt8 size} {n : List UInt8}
    (hn : (0 : UInt8) ∉ n) (h : delete_name buf addr n = some addr') :
    buf.Term ∧ buf.str.length + addr.str.length < 4096 ∧ addr'.str = lines newline (kept buf addr n) := by
  simp only [delete_name, Option.bind_eq_bind, Option.bind_eq_some_iff] at h
  obtain ⟨-, -, b, hb, m, hm, hadd⟩ := h
  obtain ⟨hlen, hs, ht⟩ := Buf.strncat_eq_some hb
  have hwhole : (cstr addr.chars).take addr.str.length = addr.str := List.take_length
  rw [hwhole] at hlen hs
  have hzero : (Buf.zeros UInt8 4096).Term := Buf.term_zeros (by decide)
  rw [tokens_copy ht hs] at hm
  obtain ⟨hms, hmt⟩ := keepLines_eq_some newline_ne_zero (n ++ [0]) hzero (zero_not_mem_pieces buf addr) hm
  rw [Buf.str_zeros, List.nil_append, cstr_append_zero hn] at hms
  obtain ⟨-, hres, -⟩ := Buf.strncat_eq_some hadd
  refine ⟨Buf.term_of_strncat hb, hlen, ?_⟩
  rw [hres, Buf.str_zeros, List.nil_append, ← Buf.str, List.take_length, hms]
  rfl

theorem exists_delete_name {buf : Buf UInt8 4096} {addr : Buf UInt8 size} {n : List UInt8} (hn : (0 : UInt8) ∉ n)
    (hb : buf.Term) (ha : addr.Term) (hlen : buf.str.length + addr.str.length < 4096)
    (hkept : (lines newline (kept buf addr n)).length < size) :
    ∃ addr', delete_name buf addr n = some addr' ∧ addr'.Term := by
  obtain ⟨b, h1, hs, ht⟩ : ∃ b, buf.strncat addr.chars addr.str.length = some b ∧ _ :=
    buf.strncat_spec _ hb ha hlen
  have hzero : (Buf.zeros UInt8 4096).Term := Buf.term_zeros (by decide)
  have hfilter : (pieces (· == newline) (buf.str ++ addr.str)).filter (fun w => w ≠ cstr (n ++ [0])) =
      kept buf addr n := by rw [cstr_append_zero hn]; rfl
  obtain ⟨m, hm⟩ := exists_keepLines newline_ne_zero (n ++ [0]) hzero (zero_not_mem_pieces buf addr)
    (by rw [hfilter, Buf.str_zeros, List.length_nil]; exact (Nat.zero_add _).trans_lt (hkept.trans (by decide)))
  obtain ⟨hms, hmt⟩ := keepLines_eq_some newline_ne_zero (n ++ [0]) hzero (zero_not_mem_pieces buf addr) hm
  rw [hfilter, Buf.str_zeros, List.nil_append] at hms
  obtain ⟨addr', h2, -, ht'⟩ : ∃ addr', (Buf.zeros UInt8 size).strncat m.chars m.str.length = some addr' ∧ _ :=
    (Buf.zeros UInt8 size).strncat_spec _ (Buf.term_zeros (by decide)) hmt
      (show _ + m.str.length < size by rw [Buf.str_zeros, hms, List.length_nil]; omega)
  refine ⟨addr', ?_, ht'⟩
  have hloop : (tokens (· == newline) (4096 + 1) (Strtok.start b.chars)).1.foldlM (keep_name n)
      (Buf.zeros UInt8 4096) = some m := by
    rw [tokens_copy ht hs]
    exact hm
  simp only [delete_name, guard, ha, if_true, h1, hloop, Option.bind_eq_bind, Option.bind_some, Option.pure_def, h2]

/-! ### When they cancel -/

/-- Cutting `g` and the lines `w :: L ++ [n]`, and leaving out `n`, gives
`w :: L` exactly if the lines of `g` make no difference. -/
theorem filter_pieces_cons_iff {g n w : List UInt8} {L : List (List UInt8)} (hL : ∀ v ∈ w :: (L ++ [n]), Name v)
    (hn : n ∉ w :: L) :
    (pieces (· == newline) (g ++ lines newline (w :: (L ++ [n])))).filter (fun v => v ≠ n) = w :: L ↔
      if unfinished newline g = [] then ∀ v ∈ pieces (· == newline) g, v = n
      else unfinished newline g ++ w = n ∧
        (pieces (· == newline) (finished newline g)).filter (fun v => v ≠ n) = [w] := by
  obtain ⟨hw, hnL⟩ := not_or.mp (mt List.mem_cons.mpr hn)
  have hfin := finished_append_unfinished newline g
  have hkeep : (L ++ [n]).filter (fun v => v ≠ n) = L := by
    rw [List.filter_append, List.filter_eq_self.mpr fun v hv => decide_eq_true (ne_of_mem_of_not_mem hv hnL)]
    simp
  rw [pieces_append_lines g fun v hv => ⟨(hL v hv).1, (hL v hv).2.1⟩, List.filter_append, List.filter_cons, hkeep]
  by_cases hu : unfinished newline g = []
  · rw [hu, List.append_nil] at hfin
    rw [if_pos hu, hu, List.nil_append, hfin, if_pos (decide_eq_true (Ne.symm hw)),
      List.append_left_eq_self, List.filter_eq_nil_iff]
    simp
  · rw [if_neg hu]
    by_cases he : unfinished newline g ++ w = n
    · rw [if_neg (by simpa using he), and_iff_right he]
      show _ ++ L = [w] ++ L ↔ _
      exact List.append_left_inj L
    · rw [if_pos (by simpa using he)]
      refine iff_of_false (fun h => ?_) fun h => he h.1
      -- the line that goes on is kept, and it is not the first name
      rw [← List.singleton_append, ← List.append_assoc, ← List.singleton_append (l := L),
        List.append_left_inj] at h
      have hlast : [unfinished newline g ++ w] = [w] := (List.append_inj' (show _ = [] ++ [w] from h) rfl).2
      simp [hu] at hlast

/-- Cutting `g` and the lines `L ++ [n]`, and leaving out `n`, gives `L`
exactly if `n` is not in `L` and the lines of `g` make no difference. -/
theorem filter_pieces_eq_iff {g n : List UInt8} {L : List (List UInt8)} (hL : ∀ w ∈ L ++ [n], Name w) :
    (pieces (· == newline) (g ++ lines newline (L ++ [n]))).filter (fun w => w ≠ n) = L ↔
      n ∉ L ∧ if unfinished newline g = [] then ∀ w ∈ pieces (· == newline) g, w = n
        else ∃ w ∈ L.head?, unfinished newline g ++ w = n ∧
          (pieces (· == newline) (finished newline g)).filter (fun v => v ≠ n) = [w] := by
  by_cases hn : n ∈ L
  · refine iff_of_false (fun h => ?_) fun h => h.1 hn
    rw [← h] at hn
    simpa using (List.mem_filter.mp hn).2
  rw [and_iff_right hn]
  cases L with
  | cons w L =>
    rw [List.cons_append, filter_pieces_cons_iff hL hn]
    simp
  | nil =>
    have hfin := finished_append_unfinished newline g
    rw [List.nil_append, pieces_append_lines g fun v hv => ⟨(hL v hv).1, (hL v hv).2.1⟩, List.filter_append,
      List.append_eq_nil_iff]
    by_cases hu : unfinished newline g = []
    · rw [hu, List.append_nil] at hfin
      rw [if_pos hu, hu, hfin, List.filter_eq_nil_iff]
      simp
    · rw [if_neg hu]
      refine iff_of_false (fun h => ?_) (by simp)
      simpa [hu] using h.2

theorem cancels_iff_kept (buf : Buf UInt8 4096) {addr : Buf UInt8 size} {L : List (List UInt8)} {n : List UInt8}
    (ht : addr.Term) (hs : addr.str = lines newline L) (hL : ∀ w ∈ L ++ [n], Name w)
    (hfit : (lines newline (L ++ [n])).length < size) : Cancels buf addr n ↔
      buf.Term ∧ buf.str.length + (lines newline (L ++ [n])).length < 4096 ∧
      (pieces (· == newline) (buf.str ++ lines newline (L ++ [n]))).filter (fun w => w ≠ n) = L := by
  have hn : (0 : UInt8) ∉ n := (hL n (by simp)).2.2
  have hlines : lines newline (L ++ [n]) = addr.str ++ n ++ [newline] := by rw [lines_concat, hs]
  obtain ⟨joined, hjoin, hjs, hjt⟩ := send_name_spec ht hn (by simpa [hlines, Nat.add_assoc] using hfit)
  rw [← hlines] at hjs
  rw [Cancels, hjoin, Option.bind_some, ← hjs]
  constructor
  · rintro ⟨addr', h, -, hsame⟩
    obtain ⟨hb, hlen, hleft⟩ := delete_name_eq_some hn h
    rw [hsame, hs] at hleft
    refine ⟨hb, hlen, lines_injective (fun w hw => kept_spec hw) (fun w hw => ?_) hleft.symm⟩
    exact ⟨(hL w (List.mem_append_left _ hw)).1, (hL w (List.mem_append_left _ hw)).2.1⟩
  · rintro ⟨hb, hlen, (hL' : kept buf joined n = L)⟩
    obtain ⟨addr', h, hterm⟩ := exists_delete_name hn hb hjt hlen
      (by rw [hL', ← hs]; exact ht.length_lt)
    exact ⟨addr', h, hterm, by rw [(delete_name_eq_some hn h).2.2, hL', hs]⟩

/-- **Joining and leaving cancel** exactly if the name was not in the list and
what the array of `delete_name` held before does no harm. -/
theorem cancels_iff_harmless (buf : Buf UInt8 4096) {addr : Buf UInt8 size} {L : List (List UInt8)} {n : List UInt8}
    (ht : addr.Term) (hs : addr.str = lines newline L) (hL : ∀ w ∈ L ++ [n], Name w)
    (hfit : (lines newline (L ++ [n])).length < size) : Cancels buf addr n ↔ Harmless buf L n := by
  rw [cancels_iff_kept buf ht hs hL hfit, filter_pieces_eq_iff hL]
  rfl

/-- The segment with the one user `b`. -/
def onlyB : Buf UInt8 size := Buf.padded (lines newline [[98]]) (by decide)

theorem onlyB_term : onlyB.Term := Buf.term_padded (by decide)

theorem onlyB_str : onlyB.str = lines newline [[98]] := Buf.str_padded (by decide) (by decide)

/-- `a` joins `b` and leaves, and the array happens to be clear. -/
theorem cancels_cleared :
    Cancels (Buf.zeros UInt8 4096) onlyB [97] ↔ Harmless (Buf.zeros UInt8 4096) [[98]] [97] :=
  cancels_iff_harmless _ onlyB_term onlyB_str (by decide) (by decide)

/-- **A second `b` takes the first one along**; and what the array of
`delete_name` held, here `x`, is in the list when `b` leaves. -/
theorem namesake_leaves : ¬ Cancels (Buf.zeros UInt8 4096) onlyB [98] ∧
    ¬ Cancels (Buf.padded [120, newline] (by decide)) (Buf.zeros UInt8 size) [98] := by
  constructor
  · rw [cancels_iff_kept _ onlyB_term onlyB_str (by decide) (by decide), Buf.str_zeros]
    exact fun h => absurd h.2.2 (by decide)
  · have hempty : (Buf.zeros UInt8 size).str = lines newline [] := Buf.str_zeros
    rw [cancels_iff_kept _ (Buf.term_zeros (by decide)) hempty (by decide) (by decide),
      Buf.str_padded _ (by decide)]
    exact fun h => absurd h.2.2 (by decide)

end SharedChat
end Autumn
