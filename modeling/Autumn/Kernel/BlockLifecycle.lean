/-
# Loading and unloading the block device (`block_device/main.c`)

`blkdev_init` takes a number, a structure, a buffer, a tag set, a queue and a
disk, and each of these calls may fail. What has been taken by then is given back
by `blkdev_remove_device`, which the exit function uses too: it looks at the
pointers of the structure, which are null for what has not been taken. Nothing is
given back that is not held or that something held still needs, and whenever the
module is not loaded, it holds nothing (`held_iff_loaded`).

A pointer is given as whether it is not null; what `blkdev_remove_device` writes
to the structure before it frees it is left out. `add_disk` does not fail in these
kernels. A module that has failed to load is gone, with its variables.

Key definitions: `needs`, `blkdev_add_device`, `blkdev_remove_device`, `blkdev_init`,
`blkdev_exit`, `blkdev`, `Holds`.
Key theorems: `remove_spec`, `add_parts_spec`, `init_spec`, `held_iff_loaded`.
-/
import Mathlib.Data.Fintype.Defs
import Autumn.Lib.Resources

namespace Autumn
namespace BlockDevice

open Resources

/-! ### What is taken -/

/-- The major number, the structure, its buffer, tag set, queue and disk, and the
disk as one that can be opened. -/
inductive Resource
  | number
  | device
  | data
  | tags
  | queue
  | disk
  | added
  deriving DecidableEq, Repr

instance : Fintype Resource where
  elems := {.number, .device, .data, .tags, .queue, .disk, .added}
  complete r := by cases r <;> decide

/-- What is in use as long as the resource is held: buffer and tag set lie in the
structure, and requests come from the disk that can be opened. -/
def needs : Resource → Finset Resource
  | .data => {.device}
  | .tags => {.device}
  | .queue => {.device, .tags}
  | .added => {.number, .device, .data, .queue, .disk}
  | _ => ∅

/-- An error of the kernel. -/
structure Errno where
  val : ℤ
  neg : val < 0

def ENOMEM : Errno := ⟨-12, by decide⟩

def EBUSY : Errno := ⟨-16, by decide⟩

/-- What the calls of `blkdev_init` answer: an error, or a null pointer. -/
structure Answers where
  register_blkdev : Except Errno ℕ
  positive : ∀ m, register_blkdev = .ok m → 0 < m
  kzalloc : Bool
  kmalloc : Bool
  blk_mq_alloc_tag_set : Option Errno
  blk_mq_init_queue : Option Errno
  alloc_disk : Bool

/-! ### The program -/

/-- `blkdev_device_t` -/
structure Dev where
  capacity : ℕ
  data : Bool
  tags : Bool
  queue : Bool
  disk : Bool
  deriving DecidableEq, Repr

/-- The module's variables. -/
structure Vars where
  major : ℤ
  _blkdev_device : Option Dev

def _blkdev_buffer_size : ℕ := 4096

/-- `blkdev_allocate_buffer(dev)`: what it returns, what is held then, and `dev`. -/
def blkdev_allocate_buffer (c : Answers) (held : Finset Resource) (dev : Dev) :
    Option (Option Errno × Finset Resource × Dev) :=
  let dev := { dev with capacity := _blkdev_buffer_size / 512 }
  if c.kmalloc then (take needs held .data).map fun held => (none, held, { dev with data := true })
  else some (ENOMEM, held, dev)

/-- `blkdev_remove_device()`: `kfree(dev)` comes last. -/
def blkdev_remove_device (held : Finset Resource) : Option Dev → Option (Finset Resource)
  | none => some held
  | some dev => giveAll needs held
    [(.added, dev.disk), (.queue, dev.queue), (.tags, dev.tags), (.disk, dev.disk), (.data, dev.data), (.device, true)]

/-- The body of `do { ... } while(false)`. -/
def add_parts (c : Answers) (held : Finset Resource) (dev : Dev) : Option (Option Errno × Finset Resource × Dev) := do
  let (ret, held, dev) ← blkdev_allocate_buffer c held dev
  if ret.isSome then some (ret, held, dev)
  else match c.blk_mq_alloc_tag_set with
    | some e => some (some e, held, dev)
    | none =>
      let held ← take needs held .tags
      let dev := { dev with tags := true }
      match c.blk_mq_init_queue with
      | some e => some (some e, held, dev)
      | none =>
        let held ← take needs held .queue
        let dev := { dev with queue := true }
        if c.alloc_disk then
          let held ← take needs held .disk
          let held ← take needs held .added
          some (none, held, { dev with disk := true })
        else some (ENOMEM, held, dev)

/-- `blkdev_add_device()`: what it returns, what is held then, and `_blkdev_device`. -/
def blkdev_add_device (c : Answers) (held : Finset Resource) : Option (Option Errno × Finset Resource × Option Dev) :=
  if c.kzalloc then do
    let held ← take needs held .device
    let (ret, held, dev) ← add_parts c held ⟨0, false, false, false, false⟩
    if ret.isSome then
      let held ← blkdev_remove_device held dev
      some (ret, held, none)
    else some (none, held, dev)
  else some (ENOMEM, held, none)

/-- `blkdev_init()`; `register_blkdev` is asked for any free number, since `major`
is 0 when the module is loaded. -/
def blkdev_init (c : Answers) (held : Finset Resource) : Option (Except Errno Vars × Finset Resource) :=
  match c.register_blkdev with
  | .error _ => some (.error EBUSY, held)
  | .ok major => do
    let held ← take needs held .number
    let (ret, held, _blkdev_device) ← blkdev_add_device c held
    match ret with
    | some e =>
      let held ← give needs held .number
      some (.error e, held)
    | none => some (.ok ⟨major, _blkdev_device⟩, held)

/-- `blkdev_exit()` -/
def blkdev_exit (v : Vars) (held : Finset Resource) : Option (Finset Resource) := do
  let held ← blkdev_remove_device held v._blkdev_device
  if v.major > 0 then give needs held .number else some held

def blkdev : Loadable Resource Answers Vars where
  init c held := (blkdev_init c held).map fun p => (p.1.toOption, p.2)
  exit := blkdev_exit

/-! ### What is held -/

/-- The resources that the pointers stand for. -/
def Dev.has (dev : Dev) : Resource → Bool
  | .number => true
  | .device => true
  | .data => dev.data
  | .tags => dev.tags
  | .queue => dev.queue
  | .disk => dev.disk
  | .added => dev.disk

/-- The number and what the pointers stand for are held. -/
def Tracks (held : Finset Resource) (dev : Dev) : Prop := ∀ r, r ∈ held ↔ dev.has r = true

instance (held : Finset Resource) (dev : Dev) : Decidable (Tracks held dev) := inferInstanceAs (Decidable (∀ _, _))

/-- A device with all its parts, and its eight sectors. -/
def complete : Dev := ⟨8, true, true, true, true⟩

/-- None of the calls fails. -/
def Answers.Succeed (c : Answers) : Prop :=
  (∃ m, c.register_blkdev = .ok m) ∧ c.kzalloc = true ∧ c.kmalloc = true ∧ c.blk_mq_alloc_tag_set = none ∧
    c.blk_mq_init_queue = none ∧ c.alloc_disk = true

/-- **Removing** leaves the number, whatever parts the device has. -/
theorem remove_spec {held : Finset Resource} {dev : Dev} (h : Tracks held dev) :
    blkdev_remove_device held (some dev) = some {.number} := by
  have hrest : held \ {.added, .queue, .tags, .disk, .data, .device} = {Resource.number} := by
    ext r
    rw [Finset.mem_sdiff, h r]
    cases r <;> simp [Dev.has]
  rw [blkdev_remove_device, giveAll_eq]
  · simpa using hrest
  · simp
  · simp only [List.forall_mem_cons, h _]
    simp [Dev.has]
  · simp [needs]
  · simp [needs]
  · intro x hx hmem p hp
    cases x <;> simp_all [needs]

theorem add_parts_spec (c : Answers) : ∃ ret held dev,
    add_parts c {.device, .number} ⟨0, false, false, false, false⟩ = some (ret, held, dev) ∧ Tracks held dev ∧
      (ret = none → dev = complete) ∧ (ret = none ↔ c.kmalloc = true ∧ c.blk_mq_alloc_tag_set = none ∧
        c.blk_mq_init_queue = none ∧ c.alloc_disk = true) := by
  obtain ⟨register_blkdev, positive, kzalloc, kmalloc, tag_set, init_queue, alloc_disk⟩ := c
  cases kmalloc with
  | false => exact ⟨_, _, _, rfl, by decide, nofun, by simp⟩
  | true =>
    cases tag_set with
    | some e => exact ⟨_, _, _, rfl, by decide, nofun, by simp⟩
    | none =>
      cases init_queue with
      | some e => exact ⟨_, _, _, rfl, by decide, nofun, by simp⟩
      | none =>
        cases alloc_disk with
        | false => exact ⟨_, _, _, rfl, by decide, nofun, by simp⟩
        | true => exact ⟨_, _, _, rfl, by decide, fun _ => rfl, by simp⟩

/-- What a loaded module has. -/
def Holds (v : Vars) (held : Finset Resource) : Prop :=
  0 < v.major ∧ v._blkdev_device = some complete ∧ held = Finset.univ

theorem add_device_spec (c : Answers) : ∃ ret held dev, blkdev_add_device c {.number} = some (ret, held, dev) ∧
    (ret = none ↔ c.kzalloc = true ∧ c.kmalloc = true ∧ c.blk_mq_alloc_tag_set = none ∧
      c.blk_mq_init_queue = none ∧ c.alloc_disk = true) ∧
    (ret ≠ none → held = {.number}) ∧ (ret = none → dev = some complete ∧ held = Finset.univ) := by
  rw [blkdev_add_device]
  by_cases hdev : c.kzalloc = true
  · obtain ⟨ret, held, dev, hparts, htracks, hcomplete, hret⟩ := add_parts_spec c
    rw [if_pos hdev, take_eq (by decide) (by decide)]
    simp only [Option.bind_eq_bind, Option.bind_some, hparts]
    cases ret with
    | some e =>
      refine ⟨some e, {.number}, none, ?_, ?_, fun _ => rfl, nofun⟩
      · rw [if_pos (by rfl), remove_spec htracks, Option.bind_some]
      · rw [hret, and_iff_right hdev]
    | none =>
      obtain rfl := hcomplete rfl
      refine ⟨none, held, some complete, rfl, ?_, fun h => absurd rfl h, fun _ => ⟨rfl, ?_⟩⟩
      · rw [hret, and_iff_right hdev]
      · ext r
        rw [htracks r]
        cases r <;> decide
  · rw [if_neg hdev]
    exact ⟨some ENOMEM, _, none, rfl, by simp [hdev], fun _ => rfl, nofun⟩

/-- **Loading**, when nothing is held. -/
theorem init_spec (c : Answers) : ∃ ret held, blkdev_init c ∅ = some (ret, held) ∧
    ((∃ v, ret = .ok v ∧ Holds v held) ∧ c.Succeed ∨ (∃ e, ret = .error e ∧ held = ∅) ∧ ¬ c.Succeed) := by
  rw [blkdev_init]
  cases hnum : c.register_blkdev with
  | error e => exact ⟨.error EBUSY, ∅, rfl, .inr ⟨⟨EBUSY, rfl, rfl⟩, fun h => by simp [Answers.Succeed, hnum] at h⟩⟩
  | ok major =>
    obtain ⟨ret, held, dev, hadd, hret, hfail, hdone⟩ := add_device_spec c
    have hnumber : take needs ∅ .number = some {.number} := take_eq (by decide) (by decide)
    simp only [hnumber, Option.bind_eq_bind, Option.bind_some, hadd]
    have hsucceed : c.Succeed ↔ ret = none := by rw [hret, Answers.Succeed, and_iff_right ⟨major, hnum⟩]
    cases ret with
    | some e =>
      obtain rfl := hfail nofun
      have hgive : give needs {.number} .number = some ∅ := give_eq (by decide) (by decide)
      rw [hgive]
      exact ⟨.error e, ∅, rfl, .inr ⟨⟨e, rfl, rfl⟩, fun h => nomatch hsucceed.mp h⟩⟩
    | none =>
      obtain ⟨rfl, rfl⟩ := hdone rfl
      have hpos : (0 : ℤ) < major := by exact_mod_cast c.positive major hnum
      exact ⟨_, _, rfl, .inl ⟨⟨_, rfl, hpos, rfl, rfl⟩, hsucceed.mpr rfl⟩⟩

/-- **Unloading** gives everything back. -/
theorem exit_spec {v : Vars} {held : Finset Resource} (h : Holds v held) : blkdev_exit v held = some ∅ := by
  obtain ⟨hpos, hdev, rfl⟩ := h
  have htracks : Tracks Finset.univ complete := by decide
  have hgive : give needs {.number} .number = some ∅ := give_eq (by decide) (by decide)
  rw [blkdev_exit, hdev, remove_spec htracks, Option.bind_eq_bind, Option.bind_some, if_pos hpos, hgive]

/-- **The module holds everything when it is loaded, and nothing when it is not**,
whatever has failed in any of the loads so far; no load or unload goes wrong, and
a load succeeds exactly if all its calls do. -/
theorem held_iff_loaded (s : State Resource Vars) (h : blkdev.lifecycle.Reachable s) :
    (s.vars = none → s.held = ∅) ∧ (∀ v, s.vars = some v → v._blkdev_device = some complete ∧ s.held = Finset.univ) ∧
    (s.vars = none → ∀ c, ∃ t, blkdev.step s (.load c) = some t ∧ (t.vars ≠ none ↔ c.Succeed)) ∧
    (s.vars ≠ none → ∃ t, blkdev.step s .unload = some t) := by
  have hinit : ∀ c, ∃ vars held, blkdev.init c ∅ = some (vars, held) ∧ Loadable.Clean Holds ⟨vars, held⟩ ∧
      (vars ≠ none ↔ c.Succeed) := by
    intro c
    obtain ⟨ret, held, heq, ⟨⟨v, rfl, hv⟩, hc⟩ | ⟨⟨e, rfl, rfl⟩, hc⟩⟩ := init_spec c
    · exact ⟨some v, held, by simp [blkdev, heq, Except.toOption], hv, by simp [hc]⟩
    · exact ⟨none, ∅, by simp [blkdev, heq, Except.toOption], rfl, by simp [hc]⟩
  obtain ⟨hclean, -, hunload⟩ := Loadable.reachable_clean (fun c => by
    obtain ⟨vars, held, heq, hcl, -⟩ := hinit c
    exact ⟨vars, held, heq, hcl⟩) (fun _ _ => exit_spec) h
  obtain ⟨vars, held⟩ := s
  refine ⟨?_, ?_, ?_, hunload⟩
  · rintro rfl
    exact hclean
  · rintro v rfl
    exact hclean.2
  · rintro rfl c
    obtain rfl : held = ∅ := hclean
    obtain ⟨vars, held, heq, -, hc⟩ := hinit c
    exact ⟨⟨vars, held⟩, by simp [Loadable.step, heq], hc⟩

/-- No disk can be had. -/
def noDisk : Answers := ⟨.ok 259, by simp, true, true, none, none, false⟩

/-- Everything can. -/
def allWell : Answers := { noDisk with alloc_disk := true }

/-- A load that fails at the disk, and one that does not. -/
theorem held_iff_loaded_noDisk : ∃ s, blkdev.lifecycle.run ⟨none, ∅⟩ [.load noDisk, .load allWell] = some s ∧
    s.held = Finset.univ := by
  have hrun : ∃ s, blkdev.lifecycle.run ⟨none, ∅⟩ [.load noDisk, .load allWell] = some s ∧ s.vars.isSome := ⟨_, rfl, rfl⟩
  obtain ⟨s, hs, hv⟩ := hrun
  obtain ⟨v, hv⟩ := Option.isSome_iff_exists.mp hv
  exact ⟨s, hs, ((held_iff_loaded s (.of_run rfl hs)).2.1 v hv).2⟩

end BlockDevice
end Autumn
