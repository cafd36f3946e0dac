/-
  Subject:   The kernel heap: `malloc`, `calloc`, `realloc` and `free` of threads/malloc.c, in a
             memory of bytes.

  * Everything the functions use lies in one memory: the descriptors (`struct desc`, 48 bytes each,
    from `descs` on), the arena headers at the start of pages, and the free lists, whose elements
    are the free blocks themselves. A user's block is the same bytes, so a wrong size or a wrong
    pointer really overwrites them.
  * A failed `ASSERT` is `none`, and a null pointer is 0. `size_t` arithmetic is taken modulo 2^32.
  * The page allocator answers with any page-aligned range that is not in use, or with null; the
    locks of the descriptors, each held for the length of one call, are left out.
  * `Layout` says where the arenas lie. From it follow the distances between blocks, headers and
    descriptors.
-/
import Pintos.Klib.ListMem
import Mathlib.Data.Finset.Card

namespace Pintos

open Lib

/-! ## 1. The code -/

/-- `ARENA_MAGIC`. -/
def arenaMagic : ℕ := 0x9a548eed

/-- `sizeof (struct arena)`. -/
def arenaSize : ℕ := 12

/-- `sizeof (struct desc)`. -/
def descSize : ℕ := 48

/-- The descriptor's `free_list`. -/
def freeList (d : ℕ) : ℕ := d + 8

/-- **The heap**: the memory, the page ranges that `palloc` has handed out, and `desc_cnt`. -/
structure Heap where
  mem : ℕ → UInt8
  owned : List (ℕ × ℕ)
  descCnt : ℕ

/-- The loop of `malloc_init`. -/
def initLoop (descs : ℕ) : ℕ → (ℕ → UInt8) → ℕ → ℕ → Option ((ℕ → UInt8) × ℕ)
  | 0, _, _, _ => none
  | fuel + 1, m, descCnt, blockSize =>
    if blockSize < 4096 / 2 then
      let d := descs + descSize * descCnt
      let descCnt := descCnt + 1
      if descCnt ≤ 10 then
        let m := setWord m d blockSize
        let m := setWord m (d + 4) ((4096 - arenaSize) / blockSize)
        initLoop descs fuel (memInit m (freeList d)) descCnt (blockSize * 2)
      else none
    else some (m, descCnt)

variable (descs : ℕ)

/-- `malloc_init`. -/
def mallocInit (m : ℕ → UInt8) : Option Heap :=
  (initLoop descs 11 m 0 16).map fun r => ⟨r.1, [], r.2⟩

/-- A range of pages that `palloc_get_multiple` may hand out: it is above `PHYS_BASE`, where the kernel
    pool is, in use by nobody, and not the static data of the kernel. -/
def Vacant (owned : List (ℕ × ℕ)) (a cnt : ℕ) : Prop :=
  a % 4096 = 0 ∧ 0xc0000000 ≤ a ∧ a + 4096 * cnt ≤ 2 ^ 32 ∧
    (descs + descSize * 10 ≤ a ∨ a + 4096 * cnt ≤ descs) ∧
    ∀ r ∈ owned, r.1 + 4096 * r.2 ≤ a ∨ a + 4096 * cnt ≤ r.1

instance (descs : ℕ) (owned : List (ℕ × ℕ)) (a cnt : ℕ) : Decidable (Vacant descs owned a cnt) := by
  unfold Vacant
  infer_instance

/-- `palloc_get_multiple`: the answer is not determined, except that it is a vacant range. -/
def pallocGet (h : Heap) (cnt : ℕ) (grant : Option ℕ) : Option ℕ :=
  if cnt = 0 then none else grant.filter fun a => decide (Vacant descs h.owned a cnt)

/-- `palloc_free_multiple`: it clears the pages, and asserts that they are in use. -/
def pallocFree (h : Heap) (pages cnt : ℕ) : Option Heap :=
  if pages % 4096 ≠ 0 then none
  else if pages = 0 ∨ cnt = 0 then some h
  else if (pages, cnt) ∈ h.owned then
    some { h with mem := fill h.mem pages 0xcc (4096 * cnt), owned := h.owned.erase (pages, cnt) }
  else none

/-- `block_to_arena`. -/
def blockToArena (m : ℕ → UInt8) (b : ℕ) : Option ℕ :=
  let a := b - b % 4096
  let desc := word m (a + 4)
  if a ≠ 0 ∧ word m a = arenaMagic ∧
      (desc = 0 ∨ (b % 4096 + 2 ^ 32 - arenaSize) % 2 ^ 32 % word m desc = 0) ∧
      (desc ≠ 0 ∨ b % 4096 = arenaSize) then some a
  else none

/-- `arena_to_block`. -/
def arenaToBlock (m : ℕ → UInt8) (a idx : ℕ) : Option ℕ :=
  let desc := word m (a + 4)
  if a ≠ 0 ∧ word m a = arenaMagic ∧ idx < word m (desc + 4) then
    some (a + arenaSize + idx * word m desc)
  else none

/-- The loop of `malloc` over the descriptors. -/
def findDesc (m : ℕ → UInt8) (size : ℕ) : ℕ → ℕ → ℕ
  | 0, d => d
  | n + 1, d => if size ≤ word m d then d else findDesc m size n (d + descSize)

/-- `page_cnt` of a big block: `DIV_ROUND_UP (size + sizeof *a, PGSIZE)`. -/
def pageCnt (size : ℕ) : ℕ := ((size + arenaSize) % 2 ^ 32 + 4096 - 1) % 2 ^ 32 / 4096

/-- A block bigger than every descriptor's. -/
def mallocBig (h : Heap) (size : ℕ) (grant : Option ℕ) : Heap × ℕ :=
  match pallocGet descs h (pageCnt size) grant with
  | none => (h, 0)
  | some a =>
    let m := setWord h.mem a arenaMagic
    let m := setWord m (a + 4) 0
    let m := setWord m (a + 8) (pageCnt size)
    ({ h with mem := m, owned := (a, pageCnt size) :: h.owned }, a + arenaSize)

/-- The loop that puts the blocks of a new arena on the free list. -/
def pushLoop (a d : ℕ) : ℕ → ℕ → (ℕ → UInt8) → Option (ℕ → UInt8)
  | 0, _, m => some m
  | n + 1, i, m => do
      let b ← arenaToBlock m a i
      let m ← memPushBack m (freeList d) b
      pushLoop a d n (i + 1) m

/-- A block is taken off the free list. -/
def takeBlock (h : Heap) (d : ℕ) : Option (Heap × ℕ) := do
  let (m, b) ← memPopFront h.mem (freeList d)
  let a ← blockToArena m b
  some ({ h with mem := setWord m (a + 8) ((word m (a + 8) + 2 ^ 32 - 1) % 2 ^ 32) }, b)

/-- A new arena of the descriptor, at the page `a`. -/
def newArena (h : Heap) (d a : ℕ) : Option Heap := do
  let m := setWord h.mem a arenaMagic
  let m := setWord m (a + 4) d
  let m := setWord m (a + 8) (word m (d + 4))
  let m ← pushLoop a d (word m (d + 4)) 0 m
  some { h with mem := m, owned := (a, 1) :: h.owned }

/-- A block of a descriptor. -/
def mallocSmall (h : Heap) (d : ℕ) (grant : Option ℕ) : Option (Heap × ℕ) :=
  if memEmpty h.mem (freeList d) then
    match pallocGet descs h 1 grant with
    | none => some (h, 0)
    | some a => (newArena h d a).bind fun h => takeBlock h d
  else takeBlock h d

/-- `malloc`. -/
def Heap.malloc (h : Heap) (size : ℕ) (grant : Option ℕ) : Option (Heap × ℕ) :=
  if size = 0 then some (h, 0)
  else
    let d := findDesc h.mem size h.descCnt descs
    if d = descs + descSize * h.descCnt then some (mallocBig descs h size grant)
    else mallocSmall descs h d grant

/-- `calloc`. -/
def Heap.calloc (h : Heap) (a b : ℕ) (grant : Option ℕ) : Option (Heap × ℕ) :=
  let size := a * b % 2 ^ 32
  if size < a ∨ size < b then some (h, 0)
  else do
    let (h, p) ← Heap.malloc descs h size grant
    some (if p ≠ 0 then ({ h with mem := fill h.mem p 0 size }, p) else (h, p))

/-- `block_size`. -/
def blockSize (m : ℕ → UInt8) (block : ℕ) : Option ℕ := do
  let a ← blockToArena m block
  let d := word m (a + 4)
  some (if d ≠ 0 then word m d else (4096 * word m (a + 8) + 2 ^ 32 - block % 4096) % 2 ^ 32)

/-- The loop that takes the blocks of an unused arena off the free list. -/
def removeLoop (a : ℕ) : ℕ → ℕ → (ℕ → UInt8) → Option (ℕ → UInt8)
  | 0, _, m => some m
  | n + 1, i, m => do
      let b ← arenaToBlock m a i
      let m ← memRemove m b
      removeLoop a n (i + 1) m

/-- The part of `free` after the block is on the free list: the arena is given back if it is now
    unused. -/
def freeArena (h : Heap) (a d : ℕ) : Option Heap :=
  let freeCnt := (word h.mem (a + 8) + 1) % 2 ^ 32
  let m := setWord h.mem (a + 8) freeCnt
  if word m (d + 4) ≤ freeCnt then
    if freeCnt = word m (d + 4) then do
      let m ← removeLoop a (word m (d + 4)) 0 m
      pallocFree { h with mem := m } a 1
    else none
  else some { h with mem := m }

/-- `free`. -/
def Heap.free (h : Heap) (p : ℕ) : Option Heap :=
  if p ≠ 0 then do
    let a ← blockToArena h.mem p
    let d := word h.mem (a + 4)
    if d ≠ 0 then do
      let m ← memPushFront (fill h.mem p 0xcc (word h.mem d)) (freeList d) p
      freeArena { h with mem := m } a d
    else pallocFree h a (word h.mem (a + 8))
  else some h

/-- `realloc`. -/
def Heap.realloc (h : Heap) (oldBlock newSize : ℕ) (grant : Option ℕ) : Option (Heap × ℕ) :=
  if newSize = 0 then (Heap.free h oldBlock).map fun h => (h, 0)
  else do
    let (h, newBlock) ← Heap.malloc descs h newSize grant
    if oldBlock ≠ 0 ∧ newBlock ≠ 0 then do
      let oldSize ← blockSize h.mem oldBlock
      let minSize := if newSize < oldSize then newSize else oldSize
      let h ← Heap.free { h with mem := copy h.mem newBlock oldBlock minSize } oldBlock
      some (h, newBlock)
    else some (h, newBlock)

/-! ## 2. Where things lie -/

/-- The block size of descriptor `i`. -/
def blockBytes (i : Fin 7) : ℕ := 16 * 2 ^ (i : ℕ)

/-- `blocks_per_arena` of descriptor `i`. -/
def arenaBlocks (i : Fin 7) : ℕ := (4096 - arenaSize) / blockBytes i

/-- Descriptor `i`. -/
def descAt (i : Fin 7) : ℕ := descs + descSize * i

/-- Block `k` of an arena of descriptor `i`. -/
def blockAt (a : ℕ) (i : Fin 7) (k : ℕ) : ℕ := a + arenaSize + k * blockBytes i

theorem blockBytes_bounds (i : Fin 7) : 16 ≤ blockBytes i ∧ blockBytes i ≤ 1024 := by
  revert i
  decide

theorem arenaBlocks_bounds (i : Fin 7) :
    3 ≤ arenaBlocks i ∧ arenaBlocks i ≤ 255 ∧ arenaBlocks i * blockBytes i ≤ 4084 := by
  revert i
  decide

variable {i j : Fin 7} {a k l n n' x y : ℕ} {r r' : ℕ × ℕ}

theorem blockAt_bounds (a : ℕ) (hk : k < arenaBlocks i) :
    a + 12 ≤ blockAt a i k ∧ blockAt a i k + blockBytes i ≤ a + 4096 := by
  have hle := Nat.mul_le_mul_right (blockBytes i) (Nat.succ_le_of_lt hk)
  rw [Nat.succ_mul] at hle
  have hb := (arenaBlocks_bounds i).2.2
  unfold blockAt arenaSize
  omega

theorem blockAt_apart (a : ℕ) (h : k ≠ l) : blockAt a i k + blockBytes i ≤ blockAt a i l ∨
      blockAt a i l + blockBytes i ≤ blockAt a i k := by
  unfold blockAt
  rcases Nat.lt_or_gt_of_ne h with h | h
  · have hle := Nat.mul_le_mul_right (blockBytes i) (Nat.succ_le_of_lt h)
    rw [Nat.succ_mul] at hle
    omega
  · have hle := Nat.mul_le_mul_right (blockBytes i) (Nat.succ_le_of_lt h)
    rw [Nat.succ_mul] at hle
    omega

theorem blockAt_inj (h : blockAt a i k = blockAt a i l) : k = l := by
  have hb := (blockBytes_bounds i).1
  rcases Nat.decEq k l with hne | he
  · have hapart := blockAt_apart a (i := i) hne
    omega
  · exact he

theorem descAt_apart (h : i ≠ j) :
    descAt descs i + 48 ≤ descAt descs j ∨ descAt descs j + 48 ≤ descAt descs i := by
  unfold descAt descSize
  omega

theorem descAt_bounds (i : Fin 7) : descs ≤ descAt descs i ∧ descAt descs i + 48 ≤ descs + 480 := by
  unfold descAt descSize
  omega

/-- **Where the arenas lie**: page ranges that overlap neither each other nor the descriptors.
    `kind` gives the descriptor of a small-block arena, and nothing for a big block. -/
structure Layout (owned : List (ℕ × ℕ)) (kind : ℕ → Option (Fin 7)) : Prop where
  base : 0 < descs ∧ descs + 480 ≤ 2 ^ 32
  page : ∀ r ∈ owned, r.1 % 4096 = 0 ∧ 0xc0000000 ≤ r.1 ∧ 0 < r.2 ∧ r.1 + 4096 * r.2 ≤ 2 ^ 32
  static : ∀ r ∈ owned, descs + 480 ≤ r.1 ∨ r.1 + 4096 * r.2 ≤ descs
  distinct : owned.Nodup
  apart : ∀ r ∈ owned, ∀ r' ∈ owned, r ≠ r' →
    r.1 + 4096 * r.2 ≤ r'.1 ∨ r'.1 + 4096 * r'.2 ≤ r.1
  single : ∀ r ∈ owned, ∀ i, kind r.1 = some i → r.2 = 1

/-- `x` is a block of a small-block arena of descriptor `i`. -/
def SmallBlock (owned : List (ℕ × ℕ)) (kind : ℕ → Option (Fin 7)) (i : Fin 7) (x : ℕ) : Prop :=
  ∃ r ∈ owned, kind r.1 = some i ∧ ∃ k < arenaBlocks i, x = blockAt r.1 i k

/-- `x` is the block of a big-block arena of `cnt` pages. -/
def BigBlock (owned : List (ℕ × ℕ)) (kind : ℕ → Option (Fin 7)) (x cnt : ℕ) : Prop :=
  ∃ r ∈ owned, kind r.1 = none ∧ x = r.1 + arenaSize ∧ cnt = r.2

/-- **A block of the heap with its capacity.** -/
def HeapBlock (owned : List (ℕ × ℕ)) (kind : ℕ → Option (Fin 7)) (x n : ℕ) : Prop :=
  (∃ i, SmallBlock owned kind i x ∧ n = blockBytes i) ∨
    ∃ cnt, BigBlock owned kind x cnt ∧ n = 4096 * cnt - arenaSize

/-- The places of list elements: the sentinels in the descriptors, and the small blocks. -/
def Place (owned : List (ℕ × ℕ)) (kind : ℕ → Option (Fin 7)) (x : ℕ) : Prop :=
  (∃ i, x = (listAt (freeList (descAt descs i))).head ∨
    x = (listAt (freeList (descAt descs i))).tail) ∨ ∃ i, SmallBlock owned kind i x

namespace Layout

variable {descs : ℕ} {owned : List (ℕ × ℕ)} {kind : ℕ → Option (Fin 7)}

section

variable (hl : Layout descs owned kind)

include hl

theorem eq_of_common (hr : r ∈ owned) (hr' : r' ∈ owned) (h1 : r.1 ≤ y) (h2 : y < r.1 + 4096 * r.2)
    (h3 : r'.1 ≤ y) (h4 : y < r'.1 + 4096 * r'.2) : r = r' := by
  by_contra hne
  rcases hl.apart r hr r' hr' hne with h | h <;> omega

theorem eq_of_addr (hr : r ∈ owned) (hr' : r' ∈ owned) (h : r.1 = r'.1) : r = r' := by
  have hp := (hl.page r hr).2.2.1
  have hp' := (hl.page r' hr').2.2.1
  exact hl.eq_of_common hr hr' (y := r.1) (by omega) (by omega) (by omega) (by omega)

theorem small_bounds (hr : r ∈ owned) (hi : kind r.1 = some i) (hk : k < arenaBlocks i) :
    r.1 + 12 ≤ blockAt r.1 i k ∧ blockAt r.1 i k + blockBytes i ≤ r.1 + 4096 * r.2 := by
  have hb := blockAt_bounds r.1 hk
  have hone := hl.single r hr i hi
  omega

/-- **A block lies in its arena, after the header.** -/
theorem block_bounds (hx : HeapBlock owned kind x n) :
    ∃ r ∈ owned, r.1 + 12 ≤ x ∧ x + n ≤ r.1 + 4096 * r.2 ∧ 16 ≤ n := by
  rcases hx with ⟨i, ⟨r, hr, hi, k, hk, rfl⟩, rfl⟩ | ⟨cnt, ⟨r, hr, -, rfl, rfl⟩, rfl⟩
  · have hb := hl.small_bounds hr hi hk
    exact ⟨r, hr, hb.1, hb.2, (blockBytes_bounds i).1⟩
  · have hp := hl.page r hr
    refine ⟨r, hr, ?_, ?_, ?_⟩ <;> unfold arenaSize <;> omega

/-- **The blocks of one arena are of its kind.** -/
theorem block_in (hx : HeapBlock owned kind x n) (hr : r ∈ owned) (h1 : r.1 ≤ x)
    (h2 : x < r.1 + 4096 * r.2) :
    (∃ i k, kind r.1 = some i ∧ k < arenaBlocks i ∧ x = blockAt r.1 i k ∧ n = blockBytes i) ∨
      (kind r.1 = none ∧ x = r.1 + arenaSize ∧ n = 4096 * r.2 - arenaSize) := by
  rcases hx with ⟨i, ⟨s, hs, hi, k, hk, hxk⟩, hn⟩ | ⟨cnt, ⟨s, hs, hi, hxs, hcnt⟩, hn⟩
  · have hb := hl.small_bounds hs hi hk
    have hbytes := (blockBytes_bounds i).1
    obtain rfl := hl.eq_of_common hr hs (y := x) h1 h2 (by omega) (by omega)
    exact .inl ⟨i, k, hi, hk, hxk, hn⟩
  · have hp := hl.page s hs
    have hsize : s.1 ≤ x ∧ x < s.1 + 4096 * s.2 := by
      unfold arenaSize at hxs
      omega
    obtain rfl := hl.eq_of_common hr hs (y := x) h1 h2 hsize.1 hsize.2
    exact .inr ⟨hi, hxs, hcnt ▸ hn⟩

theorem block_header (hx : HeapBlock owned kind x n) (hr : r ∈ owned) :
    x + n ≤ r.1 ∨ r.1 + 12 ≤ x := by
  obtain ⟨r', hr', h1, h2, h3⟩ := hl.block_bounds hx
  by_cases he : r = r'
  · subst he
    exact .inr h1
  · rcases hl.apart r hr r' hr' he with h | h <;> omega

theorem block_static (hx : HeapBlock owned kind x n) : x + n ≤ descs ∨ descs + 480 ≤ x := by
  obtain ⟨r, hr, h1, h2, -⟩ := hl.block_bounds hx
  rcases hl.static r hr with h | h <;> omega

/-- **Two blocks do not overlap.** -/
theorem block_apart (hx : HeapBlock owned kind x n) (hy : HeapBlock owned kind y n') (hne : x ≠ y) :
    x + n ≤ y ∨ y + n' ≤ x := by
  obtain ⟨r, hr, hx1, hx2, hx3⟩ := hl.block_bounds hx
  obtain ⟨r', hr', hy1, hy2, hy3⟩ := hl.block_bounds hy
  by_cases he : r = r'
  · subst he
    rcases hl.block_in hx hr (by omega) (by omega) with ⟨i, k, hi, -, rfl, rfl⟩ | ⟨hi, rfl, -⟩
    · rcases hl.block_in hy hr (by omega) (by omega) with ⟨j, l, hj, -, rfl, rfl⟩ | ⟨hj, -, -⟩
      · rw [hi] at hj
        obtain rfl := Option.some.inj hj
        exact blockAt_apart r.1 fun e => hne (by rw [e])
      · rw [hi] at hj
        exact nomatch hj
    · rcases hl.block_in hy hr (by omega) (by omega) with ⟨j, l, hj, -⟩ | ⟨-, rfl, -⟩
      · rw [hi] at hj
        exact nomatch hj
      · exact absurd rfl hne
  · rcases hl.apart r hr r' hr' he with h | h <;> omega

end

end Layout

end Pintos
