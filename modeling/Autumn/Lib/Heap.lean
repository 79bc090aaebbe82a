/-
# A heap of blocks

The blocks that are allocated, each with its address and contents, no two at one
address. Where a new block lies is the allocator's choice among the addresses that
are free; what `free` and the accesses do at an address without a block is `none`.

Freeing addresses takes away their blocks and no others (`frees_eq`), so a list of
blocks that is allocated and freed again leaves the heap as it was
(`frees_allocs`).

Key definitions: `Heap`, `Allocator`, `Heap.alloc`, `Heap.read`, `Heap.write`,
`Heap.free`, `Heap.allocs`, `Heap.frees`, `Heap.sizes`.
Key theorems: `allocs_blocks`, `reads_allocs`, `frees_eq`, `frees_allocs`,
`write_front`.
-/
import Mathlib.Data.List.Nodup
import Mathlib.Data.List.Zip
import Mathlib.Order.Basic

namespace Autumn

/-- The allocated blocks, the last one first. -/
@[ext]
structure Heap (α : Type*) where
  blocks : List (ℕ × List α)
  nodup : (blocks.map Prod.fst).Nodup

/-- An address for a new block: one that is not in use. -/
structure Allocator where
  next : List ℕ → ℕ
  fresh : ∀ used, next used ∉ used

/-- The address behind the highest one. -/
def Allocator.highest : Allocator where
  next used := used.max?.getD 0 + 1
  fresh _ h := Nat.not_succ_le_self _ (List.le_max?_getD_of_mem h)

namespace Heap

variable {α : Type*}

/-- The addresses in use. -/
def addrs (h : Heap α) : List ℕ := h.blocks.map Prod.fst

/-- A new block with the contents `c`, and its address. -/
def alloc (A : Allocator) (h : Heap α) (c : List α) : ℕ × Heap α :=
  (A.next h.addrs, ⟨(A.next h.addrs, c) :: h.blocks, List.nodup_cons.mpr ⟨A.fresh h.addrs, h.nodup⟩⟩)

/-- The contents of the block at `p`. -/
def read (h : Heap α) (p : ℕ) : Option (List α) := h.blocks.lookup p

/-- The block at `p` gets the contents `c`, of the same size. -/
def write (h : Heap α) (p : ℕ) (c : List α) : Option (Heap α) :=
  if (h.read p).map List.length = some c.length then
    some ⟨h.blocks.map fun b => if b.1 = p then (p, c) else b, by
      have hfst : (Prod.fst ∘ fun b : ℕ × List α => if b.1 = p then (p, c) else b) = Prod.fst := by
        funext b
        by_cases hb : b.1 = p <;> simp [hb]
      rw [List.map_map, hfst]
      exact h.nodup⟩
  else none

/-- `free(p)` -/
def free (h : Heap α) (p : ℕ) : Option (Heap α) :=
  if p ∈ h.addrs then some ⟨h.blocks.filter fun b => b.1 ≠ p, h.nodup.sublist (List.filter_sublist.map _)⟩ else none

/-- Several blocks, one after another. -/
def allocs (A : Allocator) : Heap α → List (List α) → List ℕ × Heap α
  | h, [] => ([], h)
  | h, c :: cs => ((h.alloc A c).1 :: (allocs A (h.alloc A c).2 cs).1, (allocs A (h.alloc A c).2 cs).2)

/-- Several blocks are freed. -/
def frees (h : Heap α) (ps : List ℕ) : Option (Heap α) := ps.foldlM free h

variable {A : Allocator}

/-! ### Allocating -/

theorem allocs_blocks : ∀ (h : Heap α) (cs : List (List α)),
    (allocs A h cs).2.blocks = ((allocs A h cs).1.zip cs).reverse ++ h.blocks ∧ (allocs A h cs).1.length = cs.length
  | h, [] => ⟨rfl, rfl⟩
  | h, c :: cs => by
    obtain ⟨hb, hlen⟩ := allocs_blocks (h.alloc A c).2 cs
    refine ⟨?_, congrArg (· + 1) hlen⟩
    rw [allocs, hb]
    simp [alloc]

theorem allocs_addrs (h : Heap α) (cs : List (List α)) :
    (allocs A h cs).2.addrs = (allocs A h cs).1.reverse ++ h.addrs := by
  obtain ⟨hb, hlen⟩ := allocs_blocks (A := A) h cs
  rw [addrs, hb, List.map_append, List.map_reverse, List.map_fst_zip hlen.le]
  rfl

theorem allocs_fresh (h : Heap α) (cs : List (List α)) :
    (allocs A h cs).1.Nodup ∧ ∀ p ∈ (allocs A h cs).1, p ∉ h.addrs := by
  have hnodup : (allocs A h cs).2.addrs.Nodup := (allocs A h cs).2.nodup
  rw [allocs_addrs, List.nodup_append] at hnodup
  obtain ⟨hps, -, hdisj⟩ := hnodup
  refine ⟨List.nodup_reverse.mp hps, fun p hp hmem => ?_⟩
  exact hdisj p (List.mem_reverse.mpr hp) p hmem rfl

/-! ### Reading and writing -/

theorem read_eq_some {h : Heap α} {p : ℕ} {c : List α} : h.read p = some c ↔ (p, c) ∈ h.blocks := by
  rw [read, List.lookup_eq_some_iff]
  constructor
  · rintro ⟨l, r, hb, -⟩
    rw [hb]
    exact List.mem_append_right l List.mem_cons_self
  · intro hmem
    obtain ⟨l, r, hb⟩ := List.append_of_mem hmem
    refine ⟨l, r, hb, fun b hbl => ?_⟩
    have hnodup := h.nodup
    rw [hb, List.map_append, List.map_cons, List.nodup_append] at hnodup
    have hne : b.1 ≠ p := hnodup.2.2 b.1 (List.mem_map_of_mem hbl) p List.mem_cons_self
    simpa using hne.symm

theorem read_allocs {h : Heap α} {cs : List (List α)} {k p : ℕ} {c : List α} (hp : (allocs A h cs).1[k]? = some p)
    (hc : cs[k]? = some c) : (allocs A h cs).2.read p = some c := by
  rw [read_eq_some, (allocs_blocks h cs).1, List.mem_append, List.mem_reverse]
  exact .inl (List.mem_of_getElem? (List.getElem?_zip_eq_some.mpr ⟨hp, hc⟩))

theorem reads_allocs : ∀ (h : Heap α) (cs : List (List α)), (allocs A h cs).1.mapM (allocs A h cs).2.read = some cs
  | h, [] => rfl
  | h, c :: cs => by
    have hc : (allocs A h (c :: cs)).2.read (h.alloc A c).1 = some c := read_allocs (k := 0) rfl rfl
    have hcs : (allocs A (h.alloc A c).2 cs).1.mapM (allocs A h (c :: cs)).2.read = some cs :=
      reads_allocs (h.alloc A c).2 cs
    have hps : (allocs A h (c :: cs)).1 = (h.alloc A c).1 :: (allocs A (h.alloc A c).2 cs).1 := rfl
    rw [hps, List.mapM_cons, hc, hcs]
    rfl

theorem exists_write {h : Heap α} {p : ℕ} {c c' : List α} (hp : h.read p = some c) (hlen : c'.length = c.length) :
    ∃ h', h.write p c' = some h' := by
  rw [write, if_pos (by rw [hp, Option.map_some, hlen])]
  exact ⟨_, rfl⟩

theorem write_eq_some {h h' : Heap α} {p : ℕ} {c : List α} (hw : h.write p c = some h') :
    (h.read p).map List.length = some c.length ∧ h'.blocks = h.blocks.map (fun b => if b.1 = p then (p, c) else b) := by
  rw [write] at hw
  split at hw
  · rename_i hlen
    obtain rfl := Option.some.inj hw
    exact ⟨hlen, rfl⟩
  · cases hw

/-- The addresses and sizes of blocks. -/
def sizes (bs : List (ℕ × List α)) : List (ℕ × ℕ) := bs.map fun b => (b.1, b.2.length)

/-- A write to one of the blocks in front: those behind stay as they are, and all
sizes too. -/
theorem write_front {h h' : Heap α} {p : ℕ} {c : List α} {front rest : List (ℕ × List α)}
    (hb : h.blocks = front ++ rest) (hp : p ∈ front.map Prod.fst) (hw : h.write p c = some h') :
    ∃ front', h'.blocks = front' ++ rest ∧ sizes front' = sizes front := by
  obtain ⟨hlen, hb'⟩ := write_eq_some hw
  have hnodup := h.nodup
  rw [hb, List.map_append, List.nodup_append] at hnodup
  refine ⟨front.map fun b => if b.1 = p then (p, c) else b, ?_, ?_⟩
  · have hrest : rest.map (fun b => if b.1 = p then (p, c) else b) = rest.map id := by
      refine List.map_congr_left fun b hbm => if_neg fun he => ?_
      exact hnodup.2.2 p hp b.1 (List.mem_map_of_mem hbm) he.symm
    rw [hb', hb, List.map_append, hrest, List.map_id]
  · rw [sizes, sizes, List.map_map]
    refine List.map_congr_left fun b hbm => ?_
    by_cases he : b.1 = p
    · have hread : h.read p = some b.2 := by
        rw [read_eq_some, hb, ← he]
        exact List.mem_append_left _ hbm
      rw [hread, Option.map_some, Option.some.injEq] at hlen
      simp [he, hlen]
    · simp [he]

theorem read_write_ne {h h' : Heap α} {p q : ℕ} {c d : List α} (hw : h.write p c = some h') (hne : q ≠ p)
    (hq : h.read q = some d) : h'.read q = some d := by
  rw [read_eq_some] at hq ⊢
  rw [(write_eq_some hw).2]
  exact List.mem_map.mpr ⟨(q, d), hq, if_neg hne⟩

/-! ### Freeing -/

/-- **Freeing** takes away the blocks at these addresses. -/
theorem frees_eq : ∀ {ps : List ℕ} {h : Heap α}, ps.Nodup → (∀ p ∈ ps, p ∈ h.addrs) →
    ∃ h', h.frees ps = some h' ∧ h'.blocks = h.blocks.filter fun b => b.1 ∉ ps
  | [], h, _, _ => ⟨h, rfl, by simp⟩
  | p :: ps, h, hnodup, hmem => by
    obtain ⟨hp, hps⟩ := List.nodup_cons.mp hnodup
    obtain ⟨hpm, hpsm⟩ := List.forall_mem_cons.mp hmem
    let h1 : Heap α := ⟨h.blocks.filter fun b => b.1 ≠ p, h.nodup.sublist (List.filter_sublist.map _)⟩
    have hfree : h.free p = some h1 := if_pos hpm
    have hmem1 : ∀ q ∈ ps, q ∈ h1.addrs := by
      intro q hq
      obtain ⟨b, hb, rfl⟩ := List.mem_map.mp (hpsm q hq)
      have hne : b.1 ≠ p := fun he => hp (he ▸ hq)
      exact List.mem_map_of_mem (List.mem_filter.mpr ⟨hb, by simpa using hne⟩)
    obtain ⟨h', hrest, hblocks⟩ := frees_eq hps hmem1
    refine ⟨h', by rw [frees, List.foldlM_cons, hfree]; exact hrest, ?_⟩
    rw [hblocks, List.filter_filter]
    congr 1
    funext b
    simp [not_or, Bool.and_comm]

/-- **What is allocated and freed again** leaves the heap as it was. -/
theorem frees_allocs (h : Heap α) (cs : List (List α)) : (allocs A h cs).2.frees (allocs A h cs).1 = some h := by
  obtain ⟨hb, hlen⟩ := allocs_blocks (A := A) h cs
  obtain ⟨hnodup, hfresh⟩ := allocs_fresh (A := A) h cs
  obtain ⟨h', hfree, hblocks⟩ := frees_eq (h := (allocs A h cs).2) hnodup fun p hp => by
    rw [allocs_addrs]
    exact List.mem_append_left _ (List.mem_reverse.mpr hp)
  rw [hfree]
  congr 1
  ext1
  have hnew : (((allocs A h cs).1.zip cs).reverse.filter fun b => b.1 ∉ (allocs A h cs).1) = [] := by
    rw [List.filter_eq_nil_iff]
    intro b hbm
    have hmem := (List.of_mem_zip (List.mem_reverse.mp hbm)).1
    simpa using hmem
  have hold : (h.blocks.filter fun b => b.1 ∉ (allocs A h cs).1) = h.blocks := by
    rw [List.filter_eq_self]
    intro b hbm
    have hno : b.1 ∉ (allocs A h cs).1 := fun hp => hfresh b.1 hp (List.mem_map_of_mem hbm)
    simpa using hno
  rw [hblocks, hb, List.filter_append, hnew, hold, List.nil_append]

theorem free_alloc (h : Heap α) (c : List α) : (h.alloc A c).2.free (h.alloc A c).1 = some h := by
  have hone := frees_allocs (A := A) h [c]
  rw [frees, allocs, allocs, List.foldlM_cons] at hone
  obtain ⟨h', hfree, hnil⟩ := Option.bind_eq_some_iff.mp hone
  rw [hfree]
  exact hnil

theorem read_alloc (h : Heap α) (c : List α) : (h.alloc A c).2.read (h.alloc A c).1 = some c :=
  read_eq_some.mpr List.mem_cons_self

end Heap
end Autumn
