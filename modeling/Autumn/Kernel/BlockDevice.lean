/-
# The block device's requests (`block_device/main.c`)

A request is a position and segments, and `do_simple_request` goes through
the segments with one `pos` that it never moves: every accepted segment of a
write is stored at the start of the request, over the ones before it. What is
stored in the end is the overlay of the segments, so a write is stored whole
exactly if its overlay, with the device's old bytes behind it, happens to be
the bytes of the request (`stores_whole_iff`).

`do_simple_request` always returns `SUCCESS`, and `_queue_rq` then ends the
request with `BLK_STS_OK`. A segment is the memory from its buffer on to the
end of its page: `memcmp` and `sprintf` look at five bytes of it, whatever
`bv_len` is. `memcpy` outside the page or the device's data is `none`.

Key definitions: `Segment`, `Request`, `do_simple_request`, `overlay`,
`StoresWhole`.
Key theorems: `do_segments_write`, `stores_whole_iff`, `overlaid_replicate`.
-/
import Autumn.Lib.CString

namespace Autumn
namespace BlockDevice

/-! ### The program -/

/-- `"hello"` -/
def hello : List UInt8 := [104, 101, 108, 108, 111]

/-- `"Hi!\n"`, with its NUL. -/
def answer : List UInt8 := [72, 105, 33, 10, 0]

/-- One `struct bio_vec`: the memory of its page from the buffer on, and its
length. -/
structure Segment where
  mem : List UInt8
  bv_len : ℕ
  len_le : bv_len ≤ mem.length
  five_le : 5 ≤ mem.length

/-- The bytes of a segment. -/
def Segment.bytes (seg : Segment) : List UInt8 := seg.mem.take seg.bv_len

/-- `memcmp(b_buf, "hello", 5) == 0` -/
def Segment.greets (seg : Segment) : Bool := seg.mem.take 5 = hello

/-- `rq_data_dir` -/
inductive Dir
  | read
  | write
  deriving DecidableEq, Repr

/-- A request; `sector` is its `blk_rq_pos`. -/
structure Request where
  dir : Dir
  sector : ℕ
  segments : List Segment

/-- `blk_rq_pos(rq) << SECTOR_SHIFT` -/
def Request.pos (rq : Request) : ℕ := rq.sector * 512 % 2 ^ 64

/-- The device and the counter; it has `n` bytes, a page in whole sectors. -/
structure Device (n : ℕ) where
  data : Buf UInt8 n
  device_write_counter : UInt16
  small : n < 2 ^ 63

/-- What has been done about a segment: a greeting was stored, a write was not
a greeting, a read got the answer, which leaves its memory as `mem`, or a read
was left alone. -/
inductive Outcome
  | accepted
  | refused
  | answered (mem : List UInt8)
  | unanswered
  deriving DecidableEq, Repr

variable {n : ℕ}

/-- `b_len` after the comparison with `dev_size`; all of it is `unsigned long`. -/
def clamp (n pos b_len : ℕ) : ℕ :=
  if (pos + b_len) % 2 ^ 64 > n then (n + 2 ^ 64 - pos) % 2 ^ 64 else b_len

/-- The body of `rq_for_each_segment`. -/
def do_segment (dir : Dir) (pos : ℕ) (dev : Device n) (seg : Segment) : Option (Device n × Outcome) :=
  let b_len := clamp n pos seg.bv_len
  match dir with
  | .write =>
    if seg.greets then
      if b_len ≤ seg.mem.length then
        (dev.data.store pos (seg.mem.take b_len)).map fun data =>
          ({ dev with data, device_write_counter := dev.device_write_counter + 1 }, .accepted)
      else none
    else some (dev, .refused)
  | .read =>
    if dev.device_write_counter ≠ 0 then
      some ({ dev with device_write_counter := dev.device_write_counter - 1 }, .answered (answer ++ seg.mem.drop 5))
    else some (dev, .unanswered)

/-- The loop over the segments. -/
def do_segments (dir : Dir) (pos : ℕ) : Device n → List Segment → Option (Device n × List Outcome)
  | dev, [] => some (dev, [])
  | dev, seg :: segs => do
    let (dev, o) ← do_segment dir pos dev seg
    let (dev, os) ← do_segments dir pos dev segs
    some (dev, o :: os)

def do_simple_request (dev : Device n) (rq : Request) : Option (Device n × List Outcome) :=
  do_segments rq.dir rq.pos dev rq.segments

/-- The bytes of all segments, in order. -/
def Request.bytes (rq : Request) : List UInt8 := rq.segments.flatMap Segment.bytes

/-- The request lies inside the capacity. -/
def Request.Inside (n : ℕ) (rq : Request) : Prop := rq.sector * 512 + rq.bytes.length ≤ n

/-! ### One segment -/

theorem Segment.length_bytes (seg : Segment) : seg.bytes.length = seg.bv_len := by
  rw [bytes, List.length_take]
  exact Nat.min_eq_left seg.len_le

theorem Segment.greets_of_bytes {seg : Segment} (h : hello <+: seg.bytes) : seg.greets = true := by
  have hmem : hello <+: seg.mem := h.trans (List.take_prefix _ _)
  exact decide_eq_true (List.prefix_iff_eq_take.mp hmem).symm

theorem clamp_of_inside {pos b_len : ℕ} (hn : n < 2 ^ 63) (h : pos + b_len ≤ n) : clamp n pos b_len = b_len := by
  have hmod : (pos + b_len) % 2 ^ 64 = pos + b_len := Nat.mod_eq_of_lt (by omega)
  rw [clamp, if_neg (by omega)]

theorem Request.pos_of_inside {rq : Request} (hn : n < 2 ^ 63) (h : rq.Inside n) : rq.pos = rq.sector * 512 :=
  Nat.mod_eq_of_lt (by unfold Inside at h; omega)

theorem do_segment_write (dev : Device n) (pos : ℕ) {seg : Segment} (hg : seg.greets = true)
    (h : pos + seg.bytes.length ≤ n) : ∃ dev', do_segment .write pos dev seg = some (dev', .accepted) ∧
      dev.data.store pos seg.bytes = some dev'.data := by
  rw [seg.length_bytes] at h
  obtain ⟨data, hd, -⟩ := dev.data.exists_store pos seg.bytes (by rw [seg.length_bytes]; exact h)
  refine ⟨{ dev with data, device_write_counter := dev.device_write_counter + 1 }, ?_, hd⟩
  have hlen : clamp n pos seg.bv_len = seg.bv_len := clamp_of_inside dev.small h
  simp only [do_segment, hg, hlen, if_pos seg.len_le, if_true]
  rw [show seg.mem.take seg.bv_len = seg.bytes from rfl, hd, Option.map_some]

/-! ### A whole write -/

/-- Byte `i` of the last of the segments that is longer than `i`. -/
def overlay : List Segment → ℕ → Option UInt8
  | [], _ => none
  | seg :: segs, i => (overlay segs i).or seg.bytes[i]?

theorem overlay_eq_none {segs : List Segment} {i : ℕ} (h : (segs.flatMap Segment.bytes).length ≤ i) :
    overlay segs i = none := by
  induction segs with
  | nil => rfl
  | cons seg segs ih =>
    rw [List.flatMap_cons, List.length_append] at h
    rw [overlay, ih (by omega), Option.none_or]
    exact List.getElem?_eq_none (by omega)

/-- **What a write leaves**: the overlay of its segments, at its position. -/
theorem do_segments_write (pos : ℕ) : ∀ {segs : List Segment} (dev : Device n), (∀ seg ∈ segs, seg.greets = true) →
    pos + (segs.flatMap Segment.bytes).length ≤ n → ∃ dev' os, do_segments .write pos dev segs = some (dev', os) ∧
      ∀ j, dev'.data.chars[j]? = if pos ≤ j then (overlay segs (j - pos)).or dev.data.chars[j]?
        else dev.data.chars[j]?
  | [], dev, _, _ => ⟨dev, [], rfl, fun j => by simp [overlay]⟩
  | seg :: segs, dev, hg, h => by
    rw [List.flatMap_cons, List.length_append] at h
    obtain ⟨dev1, h1, hs⟩ := do_segment_write dev pos (hg seg List.mem_cons_self) (by omega)
    obtain ⟨dev2, os, h2, hj⟩ := do_segments_write pos dev1
      (fun s hs => hg s (List.mem_cons_of_mem seg hs)) (by omega)
    refine ⟨dev2, .accepted :: os, by simp [do_segments, h1, h2], fun j => ?_⟩
    rw [hj, Buf.store_getElem? hs]
    by_cases hpos : pos ≤ j
    · rw [if_pos hpos, if_pos hpos, overlay, Option.or_assoc]
      congr 1
      by_cases hlt : j < pos + seg.bytes.length
      · rw [if_pos ⟨hpos, hlt⟩, List.getElem?_eq_getElem (by omega : j - pos < seg.bytes.length), Option.some_or]
      · rw [if_neg (by omega), List.getElem?_eq_none (by omega : seg.bytes.length ≤ j - pos), Option.none_or]
    · rw [if_neg hpos, if_neg hpos, if_neg (by omega)]

/-- After the write the device holds the bytes of the request from its position
on, and every other byte as before. -/
def StoresWhole (dev : Device n) (rq : Request) : Prop :=
  ∃ dev' os, do_simple_request dev rq = some (dev', os) ∧
    dev'.data.chars = dev.data.chars.take rq.pos ++ rq.bytes ++ dev.data.chars.drop (rq.pos + rq.bytes.length)

/-- The bytes of the request are those of its overlay and, where no segment is
long enough, those the device has already. -/
def Overlaid (dev : Device n) (rq : Request) : Prop :=
  ∀ i < rq.bytes.length, rq.bytes[i]? = (overlay rq.segments i).or dev.data.chars[rq.pos + i]?

section Whole

variable {dev : Device n} {rq : Request} (hdir : rq.dir = .write) (hin : rq.Inside n)
  (hg : ∀ seg ∈ rq.segments, hello <+: seg.bytes)
include hdir hin hg

variable (dev) in
theorem do_simple_request_write : rq.pos + rq.bytes.length ≤ n ∧
    ∃ dev' os, do_simple_request dev rq = some (dev', os) ∧
      ∀ j, dev'.data.chars[j]? = if rq.pos ≤ j then (overlay rq.segments (j - rq.pos)).or dev.data.chars[j]?
        else dev.data.chars[j]? := by
  have hle : rq.pos + rq.bytes.length ≤ n := by
    rw [Request.pos_of_inside dev.small hin]
    exact hin
  rw [do_simple_request, hdir]
  exact ⟨hle, do_segments_write rq.pos dev (fun s hs => Segment.greets_of_bytes (hg s hs)) hle⟩

theorem StoresWhole.overlaid (h : StoresWhole dev rq) : Overlaid dev rq := by
  obtain ⟨hle, dev', os, hrun, hj⟩ := do_simple_request_write dev hdir hin hg
  obtain ⟨d, o, hd, hc⟩ := h
  rw [hrun] at hd
  cases hd
  intro i hi
  have hstore : dev.data.store rq.pos rq.bytes = some dev'.data := Buf.store_spec.mpr ⟨hle, hc⟩
  have hi' := hj (rq.pos + i)
  rw [Buf.store_getElem? hstore, if_pos ⟨by omega, by omega⟩, if_pos (by omega), Nat.add_sub_cancel_left] at hi'
  exact hi'

theorem Overlaid.storesWhole (h : Overlaid dev rq) : StoresWhole dev rq := by
  obtain ⟨hle, dev', os, hrun, hj⟩ := do_simple_request_write dev hdir hin hg
  obtain ⟨want, hwant, hchars⟩ := dev.data.exists_store rq.pos rq.bytes hle
  refine ⟨dev', os, hrun, ?_⟩
  rw [← hchars]
  apply List.ext_getElem?
  intro j
  rw [hj, Buf.store_getElem? hwant]
  by_cases h1 : rq.pos ≤ j
  · rw [if_pos h1]
    by_cases h2 : j < rq.pos + rq.bytes.length
    · rw [if_pos ⟨h1, h2⟩, h (j - rq.pos) (by omega), Nat.add_sub_cancel' h1]
    · rw [if_neg (by omega), overlay_eq_none (by unfold Request.bytes at h2; omega), Option.none_or]
  · rw [if_neg h1, if_neg (by omega)]

end Whole

theorem overlay_replicate (seg : Segment) (k i : ℕ) : overlay (List.replicate (k + 1) seg) i = seg.bytes[i]? := by
  induction k with
  | zero => rfl
  | succ k ih => rw [List.replicate_succ, overlay, ih, Option.or_self]

/-- A repeated segment is the overlay if the device has the repetitions already. -/
theorem overlaid_replicate (dev : Device n) {rq : Request} {seg : Segment} {k : ℕ}
    (h : rq.segments = List.replicate (k + 1) seg) : Overlaid dev rq ↔
      ∀ i < rq.bytes.length, seg.bytes.length ≤ i → rq.bytes[i]? = dev.data.chars[rq.pos + i]? := by
  have hbytes : rq.bytes = seg.bytes ++ (List.replicate k seg).flatMap Segment.bytes := by
    rw [Request.bytes, h, List.replicate_succ, List.flatMap_cons]
  have hover : ∀ i, overlay rq.segments i = seg.bytes[i]? := fun i => by rw [h, overlay_replicate]
  apply forall_congr'
  intro i
  apply forall_congr'
  intro hi
  rw [hover]
  by_cases hlt : i < seg.bytes.length
  · rw [hbytes, List.getElem?_append_left hlt, List.getElem?_eq_getElem hlt, Option.some_or]
    exact iff_of_true rfl fun hle => absurd hlt (Nat.not_lt.mpr hle)
  · rw [List.getElem?_eq_none (Nat.le_of_not_lt hlt), Option.none_or]
    exact ⟨fun heq _ => heq, fun heq => heq (Nat.le_of_not_lt hlt)⟩

/-- **A write of greetings inside the capacity is stored whole exactly if each
of its bytes is the one at the same place in the last segment long enough, or is
on the device already.** -/
theorem stores_whole_iff (dev : Device n) (rq : Request) (hdir : rq.dir = .write) (hin : rq.Inside n)
    (hg : ∀ seg ∈ rq.segments, hello <+: seg.bytes) : StoresWhole dev rq ↔ Overlaid dev rq :=
  ⟨StoresWhole.overlaid hdir hin hg, Overlaid.storesWhole hdir hin hg⟩

/-- A sector: the greeting, and then `c`. -/
def sector (c : UInt8) : Segment where
  mem := hello ++ List.replicate 507 c
  bv_len := 512
  len_le := by rw [List.length_append, List.length_replicate]; decide
  five_le := by rw [List.length_append, List.length_replicate]; decide

theorem length_sector (c : UInt8) : (sector c).bytes.length = 512 := Segment.length_bytes _

theorem bytes_sector (c : UInt8) : (sector c).bytes = hello ++ List.replicate 507 c :=
  List.take_of_length_le (by
    show (hello ++ List.replicate 507 c).length ≤ 512
    rw [List.length_append, List.length_replicate]
    decide)

theorem hello_sector (c : UInt8) : hello <+: (sector c).bytes := by
  rw [bytes_sector]
  exact List.prefix_append _ _

/-- The device after it was loaded, when its page is all zeros. -/
def blank : Device 4096 := ⟨Buf.zeros UInt8 4096, 0, by decide⟩

/-- Two sectors from the start of the device on. -/
def twoSectors : Request := ⟨.write, 0, [sector 65, sector 66]⟩

theorem bytes_twoSectors : twoSectors.bytes = (sector 65).bytes ++ (sector 66).bytes := by
  simp only [twoSectors, Request.bytes, List.flatMap_cons, List.flatMap_nil, List.append_nil]

theorem inside_twoSectors : twoSectors.Inside 4096 := by
  rw [Request.Inside, bytes_twoSectors, List.length_append, length_sector, length_sector]
  decide

/-- Only the second of two sectors is stored. -/
theorem second_over_first : ¬ ∀ (dev : Device 4096) (rq : Request), rq.dir = .write → rq.Inside 4096 →
    (∀ seg ∈ rq.segments, hello <+: seg.bytes) → StoresWhole dev rq := by
  intro h
  have hg : ∀ seg ∈ twoSectors.segments, hello <+: seg.bytes := by simp [twoSectors, hello_sector]
  have hwhole := (h blank twoSectors rfl inside_twoSectors hg).overlaid rfl inside_twoSectors hg
  -- byte 512 is the first one of the second sector, and the device holds a zero there
  have h512 := hwhole 512 (by rw [bytes_twoSectors, List.length_append, length_sector, length_sector]; decide)
  have hover : overlay twoSectors.segments 512 = none := by
    simp [twoSectors, overlay, length_sector]
  have hold : blank.data.chars[twoSectors.pos + 512]? = some 0 := by
    rw [show twoSectors.pos + 512 = 512 from rfl, blank, Buf.chars_zeros, List.getElem?_replicate]
    rfl
  have hnew : twoSectors.bytes[512]? = some 104 := by
    rw [bytes_twoSectors, List.getElem?_append_right (length_sector 65).le, length_sector, bytes_sector]
    rfl
  rw [hover, hold, hnew] at h512
  exact absurd h512 (by decide)

/-- A device whose second sector holds a greeting already. -/
def secondHeld : Device 4096 :=
  ⟨Buf.padded (List.replicate 512 0 ++ (sector 65).bytes)
    (by rw [List.length_append, List.length_replicate, length_sector]; decide), 0, by decide⟩

/-- The same sector twice, from the start of the device on. -/
def sameTwice : Request := ⟨.write, 0, List.replicate 2 (sector 65)⟩

theorem bytes_sameTwice : sameTwice.bytes = (sector 65).bytes ++ (sector 65).bytes := by
  simp only [sameTwice, Request.bytes, List.replicate, List.flatMap_cons, List.flatMap_nil, List.append_nil]

theorem overlaid_sameTwice : Overlaid secondHeld sameTwice := by
  have hsegs : sameTwice.segments = List.replicate (1 + 1) (sector 65) := rfl
  apply (overlaid_replicate secondHeld hsegs).mpr
  intro i hi hle
  rw [bytes_sameTwice, List.length_append] at hi
  rw [length_sector] at hi hle
  have hchars : secondHeld.data.chars = List.replicate 512 0 ++ (sector 65).bytes ++
      List.replicate (4096 - (List.replicate 512 0 ++ (sector 65).bytes).length) 0 := rfl
  have hpos : sameTwice.pos = 0 := rfl
  rw [hchars, hpos, Nat.zero_add, bytes_sameTwice, List.getElem?_append_right (by rw [length_sector]; exact hle),
    List.getElem?_append_left (by rw [List.length_append, List.length_replicate, length_sector]; exact hi),
    List.getElem?_append_right (by rw [List.length_replicate]; exact hle), List.length_replicate, length_sector]

/-- Two sectors are stored whole where the second is on the device already. -/
theorem stores_whole_sameTwice : StoresWhole secondHeld sameTwice :=
  (stores_whole_iff secondHeld sameTwice rfl
    (by rw [Request.Inside, bytes_sameTwice, List.length_append, length_sector]; decide)
    (by simp [sameTwice, hello_sector])).mpr overlaid_sameTwice

end BlockDevice
end Autumn
