/-
# The echo over datagrams (`unix_sockets/c1.c` and `s1.c`, `echo_UDP`)

Any number of clients send one datagram each to a server, that answers each of
them in upper case and clears its array. Over a Unix socket nothing is lost; a UDP
datagram that finds a queue full is.

The Unix client sends its line without the newline, and no NUL: what it prints
goes on with what the array it receives in held there, and so does what the server
prints of its first datagram. The UDP client sends its whole array, in which the
newline still is (it takes that off its other array), and gets all of it back: it
prints the line with the newline, whatever its arrays held.

Key definitions: `receive`, `Unix.loop`, `Unix.system`, `Udp.loop`, `Udp.system`.
Key theorems: `read_line_cut`, `Unix.printed_serve`, `Unix.each_answered`,
`Udp.response_eq`, `Udp.each_line_back`.
-/
import Autumn.Lib.Post
import Autumn.Net.Echo

namespace Autumn
namespace Datagram

open Echo (newline read_line recvfrom chars_recvfrom)
open Server (toupper upper)

/-- `printf("%s\n", b)`: nothing that can be told if there is no NUL. -/
def print (b : List UInt8) : Option (List UInt8) := if (0 : UInt8) ∈ b then some (cstr b) else none

/-- `recvfrom` into `buf` returned `numBytes`, and these are made upper case. -/
def receive {n : ℕ} (buf : Buf UInt8 n) (datagram : List UInt8) : Buf UInt8 n :=
  ⟨upper (recvfrom buf datagram).chars (min datagram.length n), by rw [Server.length_upper, Buf.size]⟩

theorem take_receive {n : ℕ} (buf : Buf UInt8 n) (datagram : List UInt8) :
    (receive buf datagram).chars.take (min datagram.length n) = (datagram.take n).map toupper := by
  have hlen : (datagram.take n).length = min datagram.length n := by rw [List.length_take, min_comm]
  show (upper (datagram.take n ++ buf.chars.drop datagram.length) (min datagram.length n)).take _ = _
  rw [← hlen, Server.upper_append, List.take_left' (List.length_map toupper)]

/-! ### What is typed -/

/-- `fgets(s, n, stdin)` -/
def fgets {n : ℕ} (s : Buf UInt8 n) (line : List UInt8) : Option (Buf UInt8 n) :=
  s.put ((line ++ [newline]).take (n - 1))

theorem fgets_spec {n : ℕ} (s : Buf UInt8 n) (hn : 1 < n) {line : List UInt8} (h : (0 : UInt8) ∉ line) :
    ∃ s', fgets s line = some s' ∧ s'.str = (line ++ [newline]).take (n - 1) ∧ s'.Term ∧ s'.str ≠ [] := by
  have hnz : (0 : UInt8) ∉ (line ++ [newline]).take (n - 1) := by
    apply mt List.mem_of_mem_take
    rw [List.mem_append, List.mem_singleton]
    exact not_or.mpr ⟨h, by decide⟩
  obtain ⟨s', hs, hstr, ht⟩ := s.put_spec hnz (by rw [List.length_take]; omega)
  refine ⟨s', hs, hstr, ht, ?_⟩
  rw [hstr]
  apply List.ne_nil_of_length_pos
  rw [List.length_take, List.length_append, List.length_singleton]
  omega

/-- Of a line that is too long the beginning is read, and its last character is
taken for the newline. -/
theorem dropLast_typed {n : ℕ} (hn : 1 < n) (line : List UInt8) :
    ((line ++ [newline]).take (n - 1)).dropLast = line.take (n - 2) := by
  by_cases h : n - 1 ≤ line.length
  · rw [List.dropLast_take (by rw [List.length_append, List.length_singleton]; omega),
      List.take_append_of_le_length (by omega), Nat.sub_sub]
  · rw [List.take_of_length_le (by rw [List.length_append, List.length_singleton]; omega), List.dropLast_concat,
      List.take_of_length_le (by omega)]

/-- **A line of any length**, without its newline. -/
theorem read_line_cut {n : ℕ} (s : Buf UInt8 n) (hn : 1 < n) {line : List UInt8} (h : (0 : UInt8) ∉ line) :
    (read_line s line).map Buf.str = some (line.take (n - 2)) := by
  obtain ⟨a, ha, hstr, ht, hne⟩ := fgets_spec s hn h
  obtain ⟨b, hb, -, hb'⟩ := a.shorten ht hne
  have hput : s.put ((line ++ [newline]).take (n - 1)) = some a := ha
  simp only [read_line, hput, Option.bind_eq_bind, Option.bind_some, guard, hne, ne_eq, not_false_eq_true, if_true,
    Option.pure_def, hb, Option.map_some]
  rw [hb', hstr, dropLast_typed hn]

/-- Two clients' lines. -/
def typed : Bool → List UInt8
  | false => [104, 105]
  | true => [111, 107]

/-! ### Over a Unix socket -/

namespace Unix

/-- `SIZE` -/
abbrev size : ℕ := 100

/-- The server's variables, and the lines it printed. -/
structure Loop where
  buf : Buf UInt8 size
  numBytes : ℕ
  printed : List (Option (List UInt8))

/-- The server's loop: up to `sendto`, and from there on. -/
def loop : Clerk Loop (List UInt8) where
  take s datagram :=
    { buf := receive s.buf datagram
      numBytes := min datagram.length size
      printed := s.printed ++ [print (recvfrom s.buf datagram).chars] }
  put s := (s.buf.chars.take s.numBytes, { s with buf := Buf.zeros UInt8 size })
  answer datagram := (datagram.take size).map toupper
  answers s datagram := take_receive s.buf datagram

/-- What the client sends of a line. -/
def request (buf : Buf UInt8 size) (line : List UInt8) : Option (List UInt8) := (read_line buf line).map Buf.str

/-- What it prints of the reply. -/
def response (resp : Buf UInt8 size) (reply : List UInt8) : Option (List UInt8) := print (recvfrom resp reply).chars

/-- Clients with lines and arrays of their own, and the server, whose array holds
`buf₀`. -/
def system {ι : Type*} [DecidableEq ι] (buf : ι → Buf UInt8 size) (line : ι → List UInt8) (buf₀ : Buf UInt8 size) :
    System (Post ι Loop (List UInt8)) (Post.Action ι) :=
  Post.post loop (fun i => request (buf i) (line i)) false ⟨buf₀, 0, []⟩

/-- What the server prints of the messages that it gets: only the first one meets
what its array held before. -/
def shown (buf₀ : Buf UInt8 size) : List (List UInt8) → List (Option (List UInt8))
  | [] => []
  | m :: ms => print (m ++ buf₀.chars.drop m.length) :: ms.map some

theorem print_clear {m : List UInt8} (hm : m.length < size) (h0 : (0 : UInt8) ∉ m) :
    print (recvfrom (Buf.zeros UInt8 size) m).chars = some m := by
  obtain ⟨k, hk⟩ := Nat.exists_eq_add_of_lt hm
  have hzeros : (Buf.zeros UInt8 size).chars.drop m.length = 0 :: List.replicate k 0 := by
    rw [Buf.chars_zeros, List.drop_replicate, ← List.replicate_succ]
    congr 1
    omega
  rw [chars_recvfrom _ hm.le, hzeros, print, if_pos (by simp), cstr_append_zero h0]

/-- **The lines the server prints**, of messages served one after another. -/
theorem printed_serve (buf₀ : Buf UInt8 size) (ms : List (List UInt8))
    (h : ∀ m ∈ ms, m.length < size ∧ (0 : UInt8) ∉ m) :
    (ms.foldl loop.serve ⟨buf₀, 0, []⟩).printed = shown buf₀ ms ∧
      (ms ≠ [] → (ms.foldl loop.serve ⟨buf₀, 0, []⟩).buf = Buf.zeros UInt8 size) := by
  induction ms using List.reverseRecOn with
  | nil => exact ⟨rfl, fun h => absurd rfl h⟩
  | append_singleton ms m ih =>
    obtain ⟨hprinted, hbuf⟩ := ih fun x hx => h x (List.mem_append_left _ hx)
    obtain ⟨hm, h0⟩ := h m (by simp)
    rw [List.foldl_concat]
    refine ⟨?_, fun _ => rfl⟩
    show (ms.foldl loop.serve ⟨buf₀, 0, []⟩).printed ++
      [print (recvfrom (ms.foldl loop.serve ⟨buf₀, 0, []⟩).buf m).chars] = _
    rw [hprinted]
    cases ms with
    | nil => rw [List.foldl_nil, chars_recvfrom _ hm.le]; rfl
    | cons x xs =>
      rw [hbuf (by simp), print_clear hm h0]
      simp [shown]

theorem response_eq (resp : Buf UInt8 size) {m : List UInt8} (hm : m.length < size) (h0 : (0 : UInt8) ∉ m) :
    response resp (loop.answer m) =
      if (0 : UInt8) ∈ resp.chars.drop m.length then some (m.map toupper ++ cstr (resp.chars.drop m.length))
      else none := by
  have hanswer : loop.answer m = m.map toupper := by
    show (m.take size).map toupper = _
    rw [List.take_of_length_le hm.le]
  have hnz : (0 : UInt8) ∉ m.map toupper := fun h => by
    obtain ⟨c, hc, hz⟩ := List.mem_map.mp h
    exact h0 ((Server.toupper_eq_zero_iff c).mp hz ▸ hc)
  rw [hanswer, response, chars_recvfrom _ (by rw [List.length_map]; exact hm.le), List.length_map, print,
    cstr_append hnz]
  simp only [List.mem_append, hnz, false_or]

/-- The message of a line. -/
def message (line : List UInt8) : List UInt8 := line.take (size - 2)

theorem length_message (line : List UInt8) : (message line).length < size :=
  (List.length_take_le (size - 2) line).trans_lt (by decide)

theorem request_eq (buf : Buf UInt8 size) {line : List UInt8} (h : (0 : UInt8) ∉ line) :
    request buf line = some (message line) := read_line_cut buf (by decide) h

section Run

variable {ι : Type*} [DecidableEq ι] {buf : ι → Buf UInt8 size} {line : ι → List UInt8} {buf₀ : Buf UInt8 size}
  {s : Post ι Loop (List UInt8)}

theorem printed_eq (hline : ∀ i, (0 : UInt8) ∉ line i) (h : (system buf line buf₀).Reachable s) :
    s.server.printed = shown buf₀ (s.taken.map fun p => message (line p.1)) := by
  obtain ⟨-, htaken, hidle, hbusy, -, -⟩ := Post.reachable_desk h
  have hmessages : s.taken.map Prod.snd = s.taken.map fun p => message (line p.1) :=
    List.map_congr_left fun p hp => by
      have hp := htaken p hp
      rw [request_eq (buf p.1) (hline p.1)] at hp
      exact (Option.some.inj hp).symm
  have hserve := (printed_serve buf₀ (s.taken.map Prod.snd) fun m hm => by
    rw [hmessages] at hm
    obtain ⟨p, -, rfl⟩ := List.mem_map.mp hm
    exact ⟨length_message _, fun h0 => hline p.1 (List.mem_of_mem_take h0)⟩).1
  rw [← hmessages, ← hserve]
  cases hs : s.serving with
  | none => rw [hidle hs]
  | some i =>
    obtain ⟨l, m, hl, hserver⟩ := hbusy i hs
    rw [hserver, hl, List.map_append, List.foldl_append]
    rfl

/-- **Each client is answered**: in every state that clients and server can reach,
what a client prints is its own line in upper case and what its array held behind;
who still waits has one datagram on its way, and can get the answer; and the server
has printed the messages that it took, one of each client. -/
theorem each_answered (resp : ι → Buf UInt8 size) (hline : ∀ i, (0 : UInt8) ∉ line i)
    (h : (system buf line buf₀).Reachable s) :
    (∀ i r, s.phase i = .done r → response (resp i) r =
      if (0 : UInt8) ∈ (resp i).chars.drop (message (line i)).length then
        some ((message (line i)).map toupper ++ cstr ((resp i).chars.drop (message (line i)).length))
      else none) ∧
    (∀ i, s.phase i = .waiting → s.way i = 1 ∧
      ∃ as t r, (system buf line buf₀).run s as = some t ∧ t.phase i = .done r) ∧
    (s.taken.map Prod.fst).Nodup ∧ s.server.printed = shown buf₀ (s.taken.map fun p => message (line p.1)) := by
  have hlost := Post.reachable_lost h
  refine ⟨fun i r hr => ?_, fun i hi => ⟨?_, ?_⟩, Post.nodup_taken h, printed_eq hline h⟩
  · have hdone := (Post.reachable_desk h).done i r hr
    rw [request_eq (buf i) (hline i)] at hdone
    rw [← Option.some.inj hdone]
    exact response_eq (resp i) (length_message _) fun h0 => hline i (List.mem_of_mem_take h0)
  · have hway := (Post.reachable_counts h i).way
    rw [hi, hlost] at hway
    exact hway
  · apply (Post.can_read_iff h hi).mpr
    rw [hlost]
    exact List.not_mem_nil

end Run

/-- Two clients, with arrays of zeros. -/
abbrev two : System (Post Bool Loop (List UInt8)) (Post.Action Bool) :=
  system (fun _ => Buf.zeros UInt8 size) typed (Buf.zeros UInt8 size)

/-- Both write, and one of them reads. -/
theorem each_answered_two : ∃ t r, two.run
    ⟨⟨Buf.zeros UInt8 size, 0, []⟩, [], none, [], fun _ => [], fun _ => .ready, []⟩
    [.write false, .write true, .take, .put, .read false] = some t ∧
    t.phase false = .done r ∧ response (Buf.zeros UInt8 size) r = some [72, 73] ∧ t.phase true = .waiting ∧
    ∃ as u q, two.run t as = some u ∧ u.phase true = .done q := by
  have hrun : ∃ t r, two.run ⟨⟨Buf.zeros UInt8 size, 0, []⟩, [], none, [], fun _ => [], fun _ => .ready, []⟩
      [.write false, .write true, .take, .put, .read false] = some t ∧
      t.phase false = .done r ∧ t.phase true = .waiting := ⟨_, _, rfl, rfl, rfl⟩
  obtain ⟨t, r, ht, hr, hw⟩ := hrun
  obtain ⟨hshows, hwait, -⟩ := each_answered (fun _ : Bool => Buf.zeros UInt8 size)
    (fun i => by cases i <;> decide) (System.Reachable.of_run rfl ht)
  refine ⟨t, r, ht, hr, ?_, hw, (hwait true hw).2⟩
  rw [hshows false r hr]
  decide

end Unix

/-! ### Over UDP -/

namespace Udp

/-- `SIZE` -/
abbrev size : ℕ := 128

/-- The server's variables. -/
structure Loop where
  buf : Buf UInt8 size
  numBytes : ℕ

/-- The server's loop: up to `sendto`, and from there on. -/
def loop : Clerk Loop (List UInt8) where
  take s datagram :=
    { buf := receive s.buf datagram
      numBytes := min datagram.length size }
  put s := (s.buf.chars.take s.numBytes, { s with buf := Buf.zeros UInt8 size })
  answer datagram := (datagram.take size).map toupper
  answers s datagram := take_receive s.buf datagram

/-- A client's arrays. -/
structure Arrays where
  string : Buf UInt8 size
  buf : Buf UInt8 size

/-- `fgets(string, SIZE, stdin); buf[strlen(string) - 1] = 0;` -/
def type (a : Arrays) (line : List UInt8) : Option Arrays := do
  let string ← fgets a.string line
  guard (string.str ≠ [])
  let buf ← a.buf.store (string.str.length - 1) [0]
  return ⟨string, buf⟩

/-- What the client sends: the whole array. -/
def request (a : Arrays) (line : List UInt8) : Option (List UInt8) := (type a line).map fun a => a.string.chars

/-- What it prints of the reply. -/
def response (a : Arrays) (line reply : List UInt8) : Option (List UInt8) :=
  (type a line).bind fun a => print (recvfrom a.buf reply).chars

/-- Clients with lines and arrays of their own, and the server, whose array holds
`buf₀`. -/
def system {ι : Type*} [DecidableEq ι] (a : ι → Arrays) (line : ι → List UInt8) (buf₀ : Buf UInt8 size) :
    System (Post ι Loop (List UInt8)) (Post.Action ι) :=
  Post.post loop (fun i => request (a i) (line i)) true ⟨buf₀, 0⟩

theorem type_spec (a : Arrays) {line : List UInt8} (h : (0 : UInt8) ∉ line) : ∃ a', type a line = some a' ∧
    a'.string.str = (line ++ [newline]).take (size - 1) ∧ a'.string.Term := by
  obtain ⟨s, hs, hstr, ht, hne⟩ := fgets_spec a.string (by decide) h
  obtain ⟨b, hb, -⟩ := a.buf.exists_store (s.str.length - 1) [0] (by
    have := ht.length_lt
    rw [List.length_singleton]
    omega)
  refine ⟨⟨s, b⟩, ?_, hstr, ht⟩
  simp only [type, hs, Option.bind_eq_bind, Option.bind_some, guard, hne, ne_eq, not_false_eq_true, if_true,
    Option.pure_def, hb]

/-- **All of the array comes back**: the client prints the line, and the newline if
it was read. -/
theorem response_eq (a : Arrays) {line : List UInt8} (h : (0 : UInt8) ∉ line) :
    ∃ m, request a line = some m ∧
      response a line (loop.answer m) = some (((line ++ [newline]).take (size - 1)).map toupper) := by
  obtain ⟨a', ha, hstr, ht⟩ := type_spec a h
  have hlen : (a'.string.chars.map toupper).length = size := by rw [List.length_map, Buf.size]
  have hanswer : loop.answer a'.string.chars = a'.string.chars.map toupper := by
    show (a'.string.chars.take size).map toupper = _
    rw [List.take_of_length_le a'.string.size.le]
  have hbuf : (recvfrom a'.buf (a'.string.chars.map toupper)).chars = a'.string.chars.map toupper := by
    rw [chars_recvfrom _ hlen.le, hlen, List.drop_of_length_le a'.buf.size.le, List.append_nil]
  have hmem : (0 : UInt8) ∈ a'.string.chars.map toupper := List.mem_map.mpr ⟨0, ht, rfl⟩
  refine ⟨a'.string.chars, by rw [request, ha]; rfl, ?_⟩
  rw [response, ha, Option.bind_some, hanswer, hbuf, print, if_pos hmem, cstr_map Server.toupper_eq_zero_iff,
    ← Buf.str, hstr]

/-- **Each line comes back**: in every state that clients and server can reach,
whatever was lost, what a client prints is its own line in upper case, with the
newline if it was read; no client is answered twice; and who waits can get the
answer exactly if nothing of its was lost. -/
theorem each_line_back {ι : Type*} [DecidableEq ι] (a : ι → Arrays) (line : ι → List UInt8) (buf₀ : Buf UInt8 size)
    (hline : ∀ i, (0 : UInt8) ∉ line i) (s : Post ι Loop (List UInt8)) (h : (system a line buf₀).Reachable s) :
    (∀ i r, s.phase i = .done r →
      response (a i) (line i) r = some (((line i ++ [newline]).take (size - 1)).map toupper)) ∧
    (s.taken.map Prod.fst).Nodup ∧
    ∀ i, s.phase i = .waiting → s.way i + s.lost.count i = 1 ∧
      ((∃ as t r, (system a line buf₀).run s as = some t ∧ t.phase i = .done r) ↔ i ∉ s.lost) := by
  refine ⟨fun i r hr => ?_, Post.nodup_taken h, fun i hi => ⟨?_, Post.can_read_iff h hi⟩⟩
  · obtain ⟨m, hm, hresponse⟩ := response_eq (a i) (hline i)
    have hdone := (Post.reachable_desk h).done i r hr
    rw [hm] at hdone
    rw [← Option.some.inj hdone, hresponse]
  · have hway := (Post.reachable_counts h i).way
    rwa [hi] at hway

/-- Two clients, with arrays of zeros. -/
abbrev two : System (Post Bool Loop (List UInt8)) (Post.Action Bool) :=
  system (fun _ => ⟨Buf.zeros UInt8 size, Buf.zeros UInt8 size⟩) typed (Buf.zeros UInt8 size)

/-- Both write, and a datagram is lost. -/
theorem each_line_back_lost : ∃ t r, two.run
    ⟨⟨Buf.zeros UInt8 size, 0⟩, [], none, [], fun _ => [], fun _ => .ready, []⟩
    [.write false, .write true, .loseLetter 1, .take, .put, .read false] = some t ∧
    t.phase false = .done r ∧
    response ⟨Buf.zeros UInt8 size, Buf.zeros UInt8 size⟩ (typed false) r = some [72, 73, 10] ∧
    ¬ ∃ as u q, two.run t as = some u ∧ u.phase true = .done q := by
  have hrun : ∃ t r, two.run ⟨⟨Buf.zeros UInt8 size, 0⟩, [], none, [], fun _ => [], fun _ => .ready, []⟩
      [.write false, .write true, .loseLetter 1, .take, .put, .read false] = some t ∧
      t.phase false = .done r ∧ t.phase true = .waiting ∧ t.lost = [true] := ⟨_, _, rfl, rfl, rfl, rfl⟩
  obtain ⟨t, r, ht, hr, hw, hlost⟩ := hrun
  obtain ⟨hback, -, hwait⟩ := each_line_back (fun _ : Bool => ⟨Buf.zeros UInt8 size, Buf.zeros UInt8 size⟩) typed
    (Buf.zeros UInt8 size) (fun i => by cases i <;> decide) t (System.Reachable.of_run rfl ht)
  refine ⟨t, r, ht, hr, ?_, fun hmore => ?_⟩
  · rw [hback false r hr]
    decide
  · apply (hwait true hw).2.mp hmore
    rw [hlost]
    exact List.mem_singleton_self true

end Udp
end Datagram
end Autumn
