/-
  Subject:   The invariant of the kernel heap, and what each function of threads/malloc.c does to
  it.

  * `Meta`: the words that the functions trust, in the descriptors and in the arena headers. The
    assertions of `block_to_arena` and `arena_to_block` hold because of them.
  * `HeapShape`: the arenas, the free lists and the live blocks fit together. `Counts`: the
    `free_cnt` of every small-block arena is the number of its blocks on the free list.
  * One lemma for each way memory changes hands, with what the live blocks contain left as it was.
-/
import Pintos.Threads.Malloc

namespace Pintos

open Lib Function List

variable {descs : ℕ} {owned : List (ℕ × ℕ)} {kind : ℕ → Option (Fin 7)} {m m' : ℕ → UInt8}
variable {q : Fin 7 → List ℕ} {live : List ℕ} {h : Heap} {i : Fin 7}

/-! ## 1. Places of list elements -/

variable {b c k n n' x y : ℕ} {j : Fin 7} {S l l' : List ℕ} {r' : ℕ × ℕ}

theorem SmallBlock.block (hx : SmallBlock owned kind i x) :
    HeapBlock owned kind x (blockBytes i) := .inl ⟨i, hx, rfl⟩

/-- A place is a sentinel of a descriptor, or a block of 16 bytes or more. -/
theorem Place.cases (hx : Place descs owned kind x) :
    (∃ i, (x = descAt descs i + 8 ∨ x = descAt descs i + 16)) ∨
      ∃ n, HeapBlock owned kind x n ∧ 16 ≤ n := by
  rcases hx with ⟨i, hx⟩ | ⟨i, hx⟩
  · exact .inl ⟨i, hx⟩
  · exact .inr ⟨_, hx.block, (blockBytes_bounds i).1⟩

variable {a : ℕ} {r : ℕ × ℕ}

/-- The elements of a list are its sentinels and its free blocks. -/
theorem freeNode_cases (ha : a ∈ nodes (listAt (freeList (descAt descs j))).head (q j)
      (listAt (freeList (descAt descs j))).tail) :
    (a = descAt descs j + 8 ∨ a = descAt descs j + 16) ∨ a ∈ q j := by
  have hcases : a = descAt descs j + 8 ∨ a ∈ q j ∨ a = descAt descs j + 16 := by
    simpa [nodes, listAt, freeList] using ha
  tauto

namespace Layout

section

variable (hl : Layout descs owned kind)

include hl

/-- **The places do not overlap.** -/
theorem spaced : Spaced (Place descs owned kind) where
  pos x hx := by
    rcases Place.cases hx with ⟨i, hx⟩ | ⟨n, hx, -⟩
    · have hb := descAt_bounds descs i
      omega
    · obtain ⟨r, -, h1, -, -⟩ := hl.block_bounds hx
      omega
  fits x hx := by
    rcases Place.cases hx with ⟨i, hx⟩ | ⟨n, hx, hn⟩
    · have hb := descAt_bounds descs i
      have hfit := hl.base.2
      omega
    · obtain ⟨r, hr, -, h2, -⟩ := hl.block_bounds hx
      have hp := (hl.page r hr).2.2.2
      omega
  apart x y hx hy hne := by
    rcases Place.cases hx with ⟨i, hx'⟩ | ⟨n, hx', hn⟩
    · rcases Place.cases hy with ⟨j, hy'⟩ | ⟨n', hy', hn'⟩
      · by_cases hij : i = j
        · subst hij
          omega
        · rcases descAt_apart descs hij with h | h <;> omega
      · have hb := descAt_bounds descs i
        rcases hl.block_static hy' with h | h <;> omega
    · rcases Place.cases hy with ⟨j, hy'⟩ | ⟨n', hy', hn'⟩
      · have hb := descAt_bounds descs j
        rcases hl.block_static hx' with h | h <;> omega
      · rcases hl.block_apart hx' hy' hne with h | h <;> omega

theorem place_header (hx : Place descs owned kind x) (hr : r ∈ owned) :
    x + 8 ≤ r.1 ∨ r.1 + 12 ≤ x := by
  rcases Place.cases hx with ⟨i, hx'⟩ | ⟨n, hx', hn⟩
  · have hb := descAt_bounds descs i
    have hp := (hl.page r hr).2.2.1
    rcases hl.static r hr with h | h <;> omega
  · rcases hl.block_header hx' hr with h | h <;> omega

theorem place_desc (hx : Place descs owned kind x) (i : Fin 7) :
    x + 8 ≤ descAt descs i ∨ descAt descs i + 8 ≤ x := by
  have hb := descAt_bounds descs i
  rcases Place.cases hx with ⟨j, hx'⟩ | ⟨n, hx', hn⟩
  · by_cases hij : i = j
    · subst hij
      omega
    · rcases descAt_apart descs hij with h | h <;> omega
  · rcases hl.block_static hx' with h | h <;> omega

theorem block_unique (hx : HeapBlock owned kind x n) (hx' : HeapBlock owned kind x n') :
    n = n' := by
  obtain ⟨r, hr, h1, h2, h3⟩ := hl.block_bounds hx
  rcases hl.block_in hx hr (by omega) (by omega) with ⟨i, k, hi, -, -, hn⟩ | ⟨hi, -, hn⟩
  · rcases hl.block_in hx' hr (by omega) (by omega) with ⟨j, l, hj, -, -, hn'⟩ | ⟨hj, -, -⟩
    · rw [hi] at hj
      rw [hn, hn', Option.some.inj hj]
    · rw [hi] at hj
      exact nomatch hj
  · rcases hl.block_in hx' hr (by omega) (by omega) with ⟨j, l, hj, -⟩ | ⟨-, -, hn'⟩
    · rw [hi] at hj
      exact nomatch hj
    · rw [hn, hn']

theorem small_in {i : Fin 7} (hx : SmallBlock owned kind i x) (hr : r ∈ owned) (h1 : r.1 ≤ x)
    (h2 : x < r.1 + 4096 * r.2) : kind r.1 = some i ∧ ∃ k < arenaBlocks i, x = blockAt r.1 i k := by
  obtain ⟨s, hs, hi, k, hk, rfl⟩ := hx
  have hb := hl.small_bounds hs hi hk
  have hbytes := (blockBytes_bounds i).1
  obtain rfl := hl.eq_of_common hr hs (y := blockAt s.1 i k) h1 h2 (by omega) (by omega)
  exact ⟨hi, k, hk, rfl⟩

theorem small_unique {i : Fin 7} (hx : SmallBlock owned kind i x)
    (hx' : SmallBlock owned kind j x) : i = j := by
  obtain ⟨r, hr, h1, h2, h3⟩ := hl.block_bounds hx.block
  have hi := (hl.small_in hx hr (by omega) (by omega)).1
  rw [(hl.small_in hx' hr (by omega) (by omega)).1] at hi
  exact (Option.some.inj hi).symm

end

end Layout

theorem Layout.not_node (hl : Layout descs owned kind) (hx : SmallBlock owned kind i x)
    (hout : x ∉ q j) : x ∉ nodes (listAt (freeList (descAt descs j))).head (q j)
      (listAt (freeList (descAt descs j))).tail := by
  intro hmem
  rcases freeNode_cases hmem with he | he
  · have hb := descAt_bounds descs j
    rcases hl.block_static hx.block with h | h <;> omega
  · exact hout he

/-! ## 2. The words that are trusted -/

/-- **The descriptors and the arena headers**, without the free counts of small-block arenas. -/
structure Meta (descs : ℕ) (owned : List (ℕ × ℕ)) (kind : ℕ → Option (Fin 7)) (m : ℕ → UInt8) :
    Prop where
  desc : ∀ i, word m (descAt descs i) = blockBytes i ∧ word m (descAt descs i + 4) = arenaBlocks i
  magic : ∀ r ∈ owned, word m r.1 = arenaMagic
  small : ∀ r ∈ owned, ∀ i, kind r.1 = some i → word m (r.1 + 4) = descAt descs i
  big : ∀ r ∈ owned, kind r.1 = none → word m (r.1 + 4) = 0 ∧ word m (r.1 + 8) = r.2

namespace Meta

theorem congr (hm : Meta descs owned kind m)
    (hdesc : ∀ i, ∀ y, descAt descs i ≤ y → y < descAt descs i + 8 → m' y = m y)
    (hhead : ∀ r ∈ owned, ∀ y, r.1 ≤ y → y < r.1 + 8 → m' y = m y)
    (hbig : ∀ r ∈ owned, kind r.1 = none → ∀ y, r.1 + 8 ≤ y → y < r.1 + 12 → m' y = m y) :
    Meta descs owned kind m' where
  desc i := by
    obtain ⟨h1, h2⟩ := hm.desc i
    rw [word_congr fun y hy hy' => hdesc i y hy (by omega),
      word_congr fun y hy hy' => hdesc i y (by omega) (by omega)]
    exact ⟨h1, h2⟩
  magic r hr := by
    rw [word_congr fun y hy hy' => hhead r hr y hy (by omega)]
    exact hm.magic r hr
  small r hr i hi := by
    rw [word_congr fun y hy hy' => hhead r hr y (by omega) (by omega)]
    exact hm.small r hr i hi
  big r hr hi := by
    obtain ⟨h1, h2⟩ := hm.big r hr hi
    rw [word_congr fun y hy hy' => hhead r hr y (by omega) (by omega),
      word_congr fun y hy hy' => hbig r hr hi y hy (by omega)]
    exact ⟨h1, h2⟩

theorem of_places (hm : Meta descs owned kind m) (hl : Layout descs owned kind)
    (hs : ∀ y, (∀ a, Place descs owned kind a → y < a ∨ a + 8 ≤ y) → m' y = m y) :
    Meta descs owned kind m' := by
  refine hm.congr (fun i y h1 h2 => hs y fun a ha => ?_) (fun r hr y h1 h2 => hs y fun a ha => ?_)
    fun r hr _ y h1 h2 => hs y fun a ha => ?_
  · rcases hl.place_desc ha i with h | h <;> omega
  · rcases hl.place_header ha hr with h | h <;> omega
  · rcases hl.place_header ha hr with h | h <;> omega

variable (hm : Meta descs owned kind m) (hl : Layout descs owned kind) {r : ℕ × ℕ} (hr : r ∈ owned)

include hm hl hr

theorem blockToArena_small (hi : kind r.1 = some i) (hk : k < arenaBlocks i) :
    blockToArena m (blockAt r.1 i k) = some r.1 := by
  have hb := blockAt_bounds r.1 hk
  have hbytes := blockBytes_bounds i
  have hp := hl.page r hr
  have hofs : blockAt r.1 i k % 4096 = arenaSize + k * blockBytes i := by
    have heq : blockAt r.1 i k = r.1 + (arenaSize + k * blockBytes i) := by
      unfold blockAt
      omega
    omega
  have ha : blockAt r.1 i k - (arenaSize + k * blockBytes i) = r.1 := by
    unfold blockAt
    omega
  unfold blockToArena
  simp only [hofs, ha]
  refine if_pos ⟨by omega, hm.magic r hr, .inr ?_, .inl ?_⟩
  · rw [hm.small r hr i hi, (hm.desc i).1]
    have hmod : (arenaSize + k * blockBytes i + 2 ^ 32 - arenaSize) % 2 ^ 32 =
        k * blockBytes i := by
      unfold blockAt at hb
      unfold arenaSize at *
      omega
    rw [hmod]
    exact Nat.mul_mod_left k (blockBytes i)
  · rw [hm.small r hr i hi]
    have hpos := hl.base.1
    have hd := (descAt_bounds descs i).1
    omega

theorem blockToArena_big (hi : kind r.1 = none) : blockToArena m (r.1 + arenaSize) = some r.1 := by
  have hp := hl.page r hr
  have hofs : (r.1 + arenaSize) % 4096 = arenaSize := by
    unfold arenaSize
    omega
  have ha : r.1 + arenaSize - arenaSize = r.1 := Nat.add_sub_cancel r.1 arenaSize
  unfold blockToArena
  simp only [hofs, ha]
  exact if_pos ⟨by omega, hm.magic r hr, .inl (hm.big r hr hi).1, .inr trivial⟩

theorem arenaToBlock_eq (hi : kind r.1 = some i) (hk : k < arenaBlocks i) :
    arenaToBlock m r.1 k = some (blockAt r.1 i k) := by
  have hp := hl.page r hr
  unfold arenaToBlock
  simp only [hm.small r hr i hi, (hm.desc i).1, (hm.desc i).2]
  rw [if_pos ⟨by omega, hm.magic r hr, hk⟩]
  rfl

end Meta

/-! ## 3. The shape of the heap -/

/-- The free blocks of an arena. -/
def freeCount (l : List ℕ) (a : ℕ) (i : Fin 7) : ℕ :=
  ((Finset.range (arenaBlocks i)).filter fun k => blockAt a i k ∈ l).card

/-- **The arenas, the free lists and the live blocks fit together.** -/
structure HeapShape (descs : ℕ) (h : Heap) (kind : ℕ → Option (Fin 7)) (q : Fin 7 → List ℕ)
    (live : List ℕ) : Prop where
  layout : Layout descs h.owned kind
  cnt : h.descCnt = 7
  data : Meta descs h.owned kind h.mem
  lists : MemLists h.mem (Place descs h.owned kind) (fun i => freeList (descAt descs i)) q
  free : ∀ i x, x ∈ q i ↔ SmallBlock h.owned kind i x ∧ x ∉ live
  isBlock : ∀ x ∈ live, ∃ n, HeapBlock h.owned kind x n
  bigLive : ∀ x cnt, BigBlock h.owned kind x cnt → x ∈ live
  distinct : live.Nodup

/-- **The free counts are right.** -/
def Counts (owned : List (ℕ × ℕ)) (kind : ℕ → Option (Fin 7)) (q : Fin 7 → List ℕ)
    (m : ℕ → UInt8) : Prop :=
  ∀ r ∈ owned, ∀ i, kind r.1 = some i → word m (r.1 + 8) = freeCount (q i) r.1 i

/-- The live blocks contain what they contained. -/
def KeepsLive (owned : List (ℕ × ℕ)) (kind : ℕ → Option (Fin 7)) (live : List ℕ)
    (m m' : ℕ → UInt8) : Prop :=
  ∀ x ∈ live, ∀ n, HeapBlock owned kind x n → ∀ y, x ≤ y → y < x + n → m' y = m y

theorem KeepsLive.trans {m₁ m₂ m₃ : ℕ → UInt8} (h1 : KeepsLive owned kind live m₁ m₂)
    (h2 : KeepsLive owned kind live m₂ m₃) : KeepsLive owned kind live m₁ m₃ :=
  fun x hx n hn y hy hy' => (h2 x hx n hn y hy hy').trans (h1 x hx n hn y hy hy')

namespace HeapShape

variable (hs : HeapShape descs h kind q live)

include hs

/-- **The list elements do not overlap the live blocks.** -/
theorem node_live (ha : a ∈ nodes (listAt (freeList (descAt descs j))).head
    (q j) (listAt (freeList (descAt descs j))).tail) (hx : x ∈ live)
    (hn : HeapBlock h.owned kind x n) : a + 8 ≤ x ∨ x + n ≤ a := by
  rcases freeNode_cases ha with ha | ha
  · have hb := descAt_bounds descs j
    rcases hs.layout.block_static hn with h | h <;> omega
  · obtain ⟨hsmall, hout⟩ := (hs.free j a).mp ha
    have hne : a ≠ x := fun e => hout (e ▸ hx)
    have hbytes := (blockBytes_bounds j).1
    rcases hs.layout.block_apart hsmall.block hn hne with h | h <;> omega

/-- A change of list elements only is not seen in the live blocks. -/
theorem keepsLive_of_untouched (hu : Untouched (fun i => freeList (descAt descs i)) q h.mem m') :
    KeepsLive h.owned kind live h.mem m' := by
  intro x hx n hn y h1 h2
  refine hu y fun j a ha => ?_
  rcases hs.node_live ha hx hn with h | h <;> omega

theorem meta_of_untouched (hu : Untouched (fun i => freeList (descAt descs i)) q h.mem m') :
    Meta descs h.owned kind m' :=
  hs.data.of_places hs.layout fun y hy => hu y fun j a ha => hy a (hs.lists.place j a ha)

theorem count_of_untouched (hu : Untouched (fun i => freeList (descAt descs i)) q h.mem m')
    (hr : r ∈ h.owned) : word m' (r.1 + 8) = word h.mem (r.1 + 8) := by
  refine word_congr fun y h1 h2 => hu y fun j a ha => ?_
  rcases hs.layout.place_header (hs.lists.place j a ha) hr with h | h <;> omega

/-- **Frame**: what is written into live blocks does not disturb the heap. -/
theorem write (hS : ∀ x ∈ S, x ∈ live)
    (hm : ∀ y, (∀ x ∈ S, ∀ n, HeapBlock h.owned kind x n → y < x ∨ x + n ≤ y) → m' y = h.mem y) :
    HeapShape descs { h with mem := m' } kind q live where
  __ := hs
  data := by
    refine hs.data.congr (fun i y h1 h2 => hm y fun x hx n hn => ?_)
      (fun r hr y h1 h2 => hm y fun x hx n hn => ?_) fun r hr _ y h1 h2 => hm y fun x hx n hn => ?_
    · have hb := descAt_bounds descs i
      rcases hs.layout.block_static hn with h | h <;> omega
    · rcases hs.layout.block_header hn hr with h | h <;> omega
    · rcases hs.layout.block_header hn hr with h | h <;> omega
  lists := by
    refine hs.lists.congr fun j a ha y h1 h2 => hm y fun x hx n hn => ?_
    rcases hs.node_live ha (hS x hx) hn with h | h <;> omega

theorem write_counts (hc : Counts h.owned kind q h.mem)
    (hm : ∀ y, (∀ x ∈ S, ∀ n, HeapBlock h.owned kind x n → y < x ∨ x + n ≤ y) → m' y = h.mem y) :
    Counts h.owned kind q m' := by
  intro r hr i hi
  rw [← hc r hr i hi]
  refine word_congr fun y h1 h2 => hm y fun x hx n hn => ?_
  rcases hs.layout.block_header hn hr with h | h <;> omega

/-- A write of a free count of a small-block arena changes nothing else that is trusted. -/
theorem setCount (hr : r ∈ h.owned) (hi : kind r.1 = some i) (v : ℕ) :
    HeapShape descs { h with mem := setWord h.mem (r.1 + 8) v } kind q live where
  __ := hs
  data := by
    have hp := hs.layout.page r hr
    refine hs.data.congr (fun i y h1 h2 => setWord_apart ?_)
      (fun r' hr' y h1 h2 => setWord_apart ?_) fun r' hr' hb y h1 h2 => setWord_apart ?_
    · have hb := descAt_bounds descs i
      rcases hs.layout.static r hr with h | h <;> omega
    · by_cases he : r' = r
      · subst he
        omega
      · have hp' := hs.layout.page r' hr'
        rcases hs.layout.apart r' hr' r hr he with h | h <;> omega
    · by_cases he : r' = r
      · subst he
        rw [hi] at hb
        exact nomatch hb
      · have hp' := hs.layout.page r' hr'
        rcases hs.layout.apart r' hr' r hr he with h | h <;> omega
  lists := by
    refine hs.lists.congr fun j a ha y h1 h2 => setWord_apart ?_
    rcases hs.layout.place_header (hs.lists.place j a ha) hr with h | h <;> omega

theorem setCount_keepsLive (hr : r ∈ h.owned) (v : ℕ) :
    KeepsLive h.owned kind live h.mem (setWord h.mem (r.1 + 8) v) := by
  intro x hx n hn y h1 h2
  refine setWord_apart ?_
  rcases hs.layout.block_header hn hr with h | h <;> omega

end HeapShape

/-! ## 4. Free counts -/

theorem mem_freeCount_congr (h : ∀ k < arenaBlocks i, blockAt a i k ∈ l ↔ blockAt a i k ∈ l') :
    freeCount l a i = freeCount l' a i := by
  unfold freeCount
  congr 1
  refine Finset.filter_congr fun k hk => h k (Finset.mem_range.mp hk)

theorem freeCount_cons (hk : k < arenaBlocks i) (hout : blockAt a i k ∉ l) :
    freeCount (blockAt a i k :: l) a i = freeCount l a i + 1 := by
  unfold freeCount
  rw [← Finset.card_insert_of_notMem (s := (Finset.range (arenaBlocks i)).filter
    fun k => blockAt a i k ∈ l) (a := k) (by simp [hout])]
  congr 1
  ext j
  simp only [Finset.mem_filter, Finset.mem_range, mem_cons, Finset.mem_insert]
  constructor
  · intro hj
    rcases hj.2 with he | hmem
    · exact .inl (blockAt_inj he)
    · exact .inr ⟨hj.1, hmem⟩
  · intro hj
    rcases hj with rfl | hj
    · exact ⟨hk, .inl rfl⟩
    · exact ⟨hj.1, .inr hj.2⟩

theorem freeCount_le (l : List ℕ) (a : ℕ) (i : Fin 7) : freeCount l a i ≤ arenaBlocks i := by
  unfold freeCount
  exact (Finset.card_filter_le _ _).trans (Finset.card_range _).le

theorem freeCount_full (h : freeCount l a i = arenaBlocks i) (hk : k < arenaBlocks i) :
    blockAt a i k ∈ l := by
  have hall := Finset.card_filter_eq_iff.mp
    (show ((Finset.range (arenaBlocks i)).filter fun k => blockAt a i k ∈ l).card =
      (Finset.range (arenaBlocks i)).card by rw [Finset.card_range]; exact h)
  exact hall k (Finset.mem_range.mpr hk)

theorem Layout.freeCount_other (hl : Layout descs owned kind) (hr : r ∈ owned) (hr' : r' ∈ owned)
    (hne : r' ≠ r) (hi : kind r.1 = some i) (hi' : kind r'.1 = some i) (hk : k < arenaBlocks i)
    (l : List ℕ) : freeCount (blockAt r.1 i k :: l) r'.1 i = freeCount l r'.1 i := by
  refine mem_freeCount_congr fun k' hk' => ?_
  rw [mem_cons]
  refine ⟨fun h => h.resolve_left fun he => hne ?_, .inr⟩
  have hb := hl.small_bounds hr hi hk
  have hb' := hl.small_bounds hr' hi' hk'
  have hbytes := (blockBytes_bounds i).1
  exact hl.eq_of_common hr' hr (y := blockAt r.1 i k) (by omega) (by omega) (by omega) (by omega)

/-! ## 5. A block is taken -/

theorem HeapShape.taken (hs : HeapShape descs h kind q live) (hq : q i = b :: l)
    (hlists : MemLists m' (Place descs h.owned kind) (fun i => freeList (descAt descs i))
      (update q i l)) (hdata : Meta descs h.owned kind m') :
    HeapShape descs { h with mem := m' } kind (update q i l) (b :: live) where
  __ := hs
  data := hdata
  lists := hlists
  free j x := by
    have hd := (hs.lists.lists.list i).distinct
    rw [hq] at hd
    have hbl : b ∉ l := by
      intro hmem
      simp [nodes, hmem] at hd
    by_cases hj : j = i
    · subst hj
      rw [update_self, mem_cons, not_or]
      have hfree := hs.free j x
      rw [hq, mem_cons] at hfree
      constructor
      · intro hx
        have hx' := hfree.mp (.inr hx)
        exact ⟨hx'.1, fun e => hbl (e ▸ hx), hx'.2⟩
      · intro hx
        exact (hfree.mpr ⟨hx.1, hx.2.2⟩).resolve_left hx.2.1
    · rw [update_of_ne hj, hs.free j x, mem_cons, not_or]
      refine ⟨fun hx => ⟨hx.1, fun e => hj ?_, hx.2⟩, fun hx => ⟨hx.1, hx.2.2⟩⟩
      have hb := ((hs.free i b).mp (hq ▸ mem_cons_self)).1
      rw [e] at hx
      exact hs.layout.small_unique hx.1 hb
  isBlock x hx := by
    rcases mem_cons.mp hx with rfl | hx
    · exact ⟨_, ((hs.free i x).mp (hq ▸ mem_cons_self)).1.block⟩
    · exact hs.isBlock x hx
  bigLive x cnt hx := mem_cons_of_mem b (hs.bigLive x cnt hx)
  distinct := nodup_cons.mpr ⟨((hs.free i b).mp (hq ▸ mem_cons_self)).2, hs.distinct⟩

/-- **`malloc` takes the first free block**: the assertions hold, the counts stay right, and
    nobody's block changes. -/
theorem takeBlock_spec (hs : HeapShape descs h kind q live) (hc : Counts h.owned kind q h.mem)
    (hq : q i = b :: l) : ∃ m', takeBlock h (descAt descs i) = some ({ h with mem := m' }, b) ∧
      HeapShape descs { h with mem := m' } kind (update q i l) (b :: live) ∧
      Counts h.owned kind (update q i l) m' ∧ KeepsLive h.owned kind live h.mem m' := by
  obtain ⟨⟨r, hr, hi, k, hk, hbk⟩, hout⟩ := (hs.free i b).mp (hq ▸ mem_cons_self)
  obtain ⟨m₁, hrun, hlists, hu⟩ := hs.lists.remove (i := i) (A := []) (x := b) (B := l) hq
  rw [nil_append] at hlists
  have hs1 := hs.taken hq hlists (hs.meta_of_untouched hu)
  have harena := hs1.data.blockToArena_small hs.layout hr hi hk
  rw [← hbk] at harena
  have hcount : word m₁ (r.1 + 8) = freeCount l r.1 i + 1 := by
    have hd := (hs.lists.lists.list i).distinct
    rw [hq] at hd
    have hbl : blockAt r.1 i k ∉ l := by
      intro hmem
      rw [← hbk] at hmem
      simp [nodes, hmem] at hd
    rw [hs.count_of_untouched hu hr, hc r hr i hi, hq, hbk, freeCount_cons hk hbl]
  have hle := freeCount_le l r.1 i
  have hmax := (arenaBlocks_bounds i).2.1
  have hdec : (word m₁ (r.1 + 8) + 2 ^ 32 - 1) % 2 ^ 32 = freeCount l r.1 i := by
    rw [hcount]
    omega
  refine ⟨setWord m₁ (r.1 + 8) (freeCount l r.1 i), ?_, hs1.setCount hr hi _, ?_, ?_⟩
  · have hbegin : memBegin h.mem (freeList (descAt descs i)) = b := by
      rw [hs.lists.begin_eq i, hq]
      rfl
    have hne : ¬memEmpty h.mem (freeList (descAt descs i)) = true := by
      rw [hs.lists.empty_iff i, hq]
      exact cons_ne_nil b l
    unfold takeBlock memPopFront
    rw [if_neg hne, hbegin]
    simp only [hrun, Option.map_some, Option.bind_eq_bind, Option.bind_some, harena, hdec]
  · intro r' hr' j hj
    have hp := hs.layout.page r hr
    have hp' := hs.layout.page r' hr'
    by_cases he : r' = r
    · subst he
      rw [hi] at hj
      obtain rfl := Option.some.inj hj
      rw [word_setWord (by omega), update_self]
    · rw [word_setWord_apart, hs.count_of_untouched hu hr', hc r' hr' j hj]
      · by_cases hji : j = i
        · subst hji
          rw [update_self, hq, hbk]
          exact hs.layout.freeCount_other hr hr' he hi hj hk l
        · rw [update_of_ne hji]
      · rcases hs.layout.apart r' hr' r hr he with h | h <;> omega
  · refine (hs.keepsLive_of_untouched hu).trans fun x hx n hn => ?_
    exact hs1.setCount_keepsLive hr _ x (mem_cons_of_mem b hx) n hn

/-! ## 6. A new arena -/

section Grow

variable {a cnt : ℕ} {v : Option (Fin 7)}

section

variable (hl : Layout descs owned kind)

include hl

theorem Vacant.ne (hv : Vacant descs owned a cnt) (hcnt : 0 < cnt) (hr : r ∈ owned) : r.1 ≠ a := by
  have hp := hl.page r hr
  rcases hv.2.2.2.2 r hr with h | h <;> omega

theorem Vacant.layout (hv : Vacant descs owned a cnt)
    (hcnt : 0 < cnt) (hone : ∀ i, v = some i → cnt = 1) :
    Layout descs ((a, cnt) :: owned) (update kind a v) where
  base := hl.base
  page r hr := by
    rcases mem_cons.mp hr with rfl | hr
    · exact ⟨hv.1, hv.2.1, hcnt, hv.2.2.1⟩
    · exact hl.page r hr
  static r hr := by
    rcases mem_cons.mp hr with rfl | hr
    · exact hv.2.2.2.1
    · exact hl.static r hr
  distinct := nodup_cons.mpr ⟨fun hmem => hv.ne hl hcnt hmem rfl, hl.distinct⟩
  apart r hr r' hr' hne := by
    rcases mem_cons.mp hr with rfl | hr
    · rcases mem_cons.mp hr' with rfl | hr'
      · exact absurd rfl hne
      · exact (hv.2.2.2.2 r' hr').symm
    · rcases mem_cons.mp hr' with rfl | hr'
      · exact hv.2.2.2.2 r hr
      · exact hl.apart r hr r' hr' hne
  single r hr i hi := by
    rcases mem_cons.mp hr with rfl | hr
    · rw [update_self] at hi
      exact hone i hi
    · rw [update_of_ne (hv.ne hl hcnt hr)] at hi
      exact hl.single r hr i hi

/-- Something holds of an arena of one kind if it does of an old one, or of the new one. -/
theorem Vacant.arena_iff (hv : Vacant descs owned a cnt)
    (hcnt : 0 < cnt) {w : Option (Fin 7)} {Q : ℕ × ℕ → Prop} :
    (∃ r ∈ (a, cnt) :: owned, update kind a v r.1 = w ∧ Q r) ↔
      (∃ r ∈ owned, kind r.1 = w ∧ Q r) ∨ (v = w ∧ Q (a, cnt)) := by
  constructor
  · intro hx
    obtain ⟨r, hr, hj, hk⟩ := hx
    rcases mem_cons.mp hr with rfl | hr
    · rw [update_self] at hj
      exact .inr ⟨hj, hk⟩
    · rw [update_of_ne (hv.ne hl hcnt hr)] at hj
      exact .inl ⟨r, hr, hj, hk⟩
  · intro hx
    rcases hx with ⟨r, hr, hj, hk⟩ | ⟨hj, hk⟩
    · refine ⟨r, mem_cons_of_mem _ hr, ?_, hk⟩
      rw [update_of_ne (hv.ne hl hcnt hr)]
      exact hj
    · refine ⟨(a, cnt), mem_cons_self, ?_, hk⟩
      rw [update_self]
      exact hj

/-- The small blocks are the old ones and those of the new arena. -/
theorem Vacant.small_iff (hv : Vacant descs owned a cnt) (hcnt : 0 < cnt) :
    SmallBlock ((a, cnt) :: owned) (update kind a v) j x ↔
      SmallBlock owned kind j x ∨ (v = some j ∧ ∃ k < arenaBlocks j, x = blockAt a j k) :=
  hv.arena_iff hl hcnt

theorem Vacant.big_iff (hv : Vacant descs owned a cnt) (hcnt : 0 < cnt) :
    BigBlock ((a, cnt) :: owned) (update kind a v) x c ↔
      BigBlock owned kind x c ∨ (v = none ∧ x = a + arenaSize ∧ c = cnt) :=
  hv.arena_iff hl hcnt

theorem Vacant.block (hv : Vacant descs owned a cnt) (hcnt : 0 < cnt)
    (hx : HeapBlock owned kind x n) : HeapBlock ((a, cnt) :: owned) (update kind a v) x n := by
  rcases hx with ⟨i, hx, hn⟩ | ⟨c, hx, hn⟩
  · exact .inl ⟨i, (hv.small_iff hl hcnt).mpr (.inl hx), hn⟩
  · exact .inr ⟨c, (hv.big_iff hl hcnt).mpr (.inl hx), hn⟩

/-- An old block is not in the new pages. -/
theorem Vacant.block_apart (hv : Vacant descs owned a cnt) (hx : HeapBlock owned kind x n) :
    x + n ≤ a ∨ a + 4096 * cnt ≤ x := by
  obtain ⟨r, hr, h1, h2, h3⟩ := hl.block_bounds hx
  rcases hv.2.2.2.2 r hr with h | h <;> omega

theorem Vacant.place_apart (hv : Vacant descs owned a cnt) (hx : Place descs owned kind x) :
    x + 8 ≤ a ∨ a + 4096 * cnt ≤ x := by
  rcases Place.cases hx with ⟨i, hx⟩ | ⟨n, hx, hn⟩
  · have hb := descAt_bounds descs i
    have hstatic := hv.2.2.2.1
    unfold descSize at hstatic
    omega
  · rcases hv.block_apart hl hx with h | h <;> omega

end

/-- **The header of a new arena is written**: the trusted words, the lists, the counts and the live
    blocks of the old ones stay. -/
theorem HeapShape.grow (hs : HeapShape descs h kind q live) (hv : Vacant descs h.owned a cnt)
    (hcnt : 0 < cnt) (hone : ∀ i, v = some i → cnt = 1)
    (hout : ∀ y, (y < a ∨ a + 4096 * cnt ≤ y) → m' y = h.mem y)
    (hmagic : word m' a = arenaMagic) (hsmall : ∀ i, v = some i → word m' (a + 4) = descAt descs i)
    (hbig : v = none → word m' (a + 4) = 0 ∧ word m' (a + 8) = cnt) :
    Meta descs ((a, cnt) :: h.owned) (update kind a v) m' ∧
      MemLists m' (Place descs ((a, cnt) :: h.owned) (update kind a v))
        (fun i => freeList (descAt descs i)) q ∧
      KeepsLive h.owned kind live h.mem m' ∧
      ∀ r ∈ h.owned, word m' (r.1 + 8) = word h.mem (r.1 + 8) := by
  have hl := hs.layout
  have hhead : ∀ r ∈ h.owned, ∀ y, r.1 ≤ y → y < r.1 + 12 → m' y = h.mem y := by
    intro r hr y h1 h2
    have hp := hl.page r hr
    refine hout y ?_
    rcases hv.2.2.2.2 r hr with h | h <;> omega
  have hold : Meta descs h.owned kind m' := by
    refine hs.data.congr (fun i y h1 h2 => hout y ?_)
      (fun r hr y h1 h2 => hhead r hr y h1 (by omega))
      fun r hr _ y h1 h2 => hhead r hr y (by omega) h2
    have hb := descAt_bounds descs i
    have hstatic := hv.2.2.2.1
    unfold descSize at hstatic
    omega
  refine ⟨⟨hold.desc, ?_, ?_, ?_⟩, ?_, ?_, ?_⟩
  · intro r hr
    rcases mem_cons.mp hr with rfl | hr
    · exact hmagic
    · exact hold.magic r hr
  · intro r hr i hi
    rcases mem_cons.mp hr with rfl | hr
    · rw [update_self] at hi
      exact hsmall i hi
    · rw [update_of_ne (hv.ne hl hcnt hr)] at hi
      exact hold.small r hr i hi
  · intro r hr hi
    rcases mem_cons.mp hr with rfl | hr
    · rw [update_self] at hi
      exact hbig hi
    · rw [update_of_ne (hv.ne hl hcnt hr)] at hi
      exact hold.big r hr hi
  · have hlists := hs.lists.congr (n := m') fun j x hx y h1 h2 => by
      refine hout y ?_
      rcases hv.place_apart hl (hs.lists.place j x hx) with h | h <;> omega
    refine hlists.mono (hv.layout hl hcnt hone).spaced fun x hx => ?_
    rcases hx with hx | ⟨i, hx⟩
    · exact .inl hx
    · exact .inr ⟨i, (hv.small_iff hl hcnt).mpr (.inl hx)⟩
  · intro x hx n hn y h1 h2
    refine hout y ?_
    rcases hv.block_apart hl hn with h | h <;> omega
  · intro r hr
    exact word_congr fun y h1 h2 => hhead r hr y (by omega) (by omega)

end Grow

/-- The blocks of an arena, in the order of their addresses. -/
def blocksFrom (a : ℕ) (i : Fin 7) (k n : ℕ) : List ℕ := (List.range' k n).map (blockAt a i)

theorem mem_blocksFrom : x ∈ blocksFrom a i k n ↔ ∃ l, k ≤ l ∧ l < k + n ∧ x = blockAt a i l := by
  unfold blocksFrom
  rw [mem_map]
  constructor
  · intro hx
    obtain ⟨l, hlt, rfl⟩ := hx
    exact ⟨l, (mem_range'_1.mp hlt).1, (mem_range'_1.mp hlt).2, rfl⟩
  · intro hx
    obtain ⟨l, h1, h2, rfl⟩ := hx
    exact ⟨l, mem_range'_1.mpr ⟨h1, h2⟩, rfl⟩

/-- **The loop that fills the free list.** The invariant: the blocks before `k` are at the end of
    the list, those from `k` on are in no list. -/
theorem pushLoop_spec (hl : Layout descs owned kind) (hr : r ∈ owned) (hi : kind r.1 = some i)
    (n k : ℕ) (hkn : k + n = arenaBlocks i) (hm : Meta descs owned kind m)
    (hlists : MemLists m (Place descs owned kind) (fun i => freeList (descAt descs i)) q)
    (hout : ∀ l, k ≤ l → l < arenaBlocks i → ∀ j, blockAt r.1 i l ∉ q j) :
    ∃ m', pushLoop r.1 (descAt descs i) n k m = some m' ∧ Meta descs owned kind m' ∧
      MemLists m' (Place descs owned kind) (fun i => freeList (descAt descs i))
        (update q i (q i ++ blocksFrom r.1 i k n)) ∧
      ∀ y, (y < r.1 + 12 ∨ r.1 + 4096 ≤ y) →
        (∀ j, ∀ a ∈ nodes (listAt (freeList (descAt descs j))).head (q j)
          (listAt (freeList (descAt descs j))).tail, y < a ∨ a + 8 ≤ y) → m' y = m y := by
  induction n generalizing k m q with
  | zero =>
    refine ⟨m, rfl, hm, ?_, fun _ _ _ => rfl⟩
    rw [show blocksFrom r.1 i k 0 = [] from rfl, append_nil, update_eq_self]
    exact hlists
  | succ n ih =>
    have hk : k < arenaBlocks i := by omega
    have hb := blockAt_bounds r.1 hk
    have hbytes := (blockBytes_bounds i).1
    have hsmall : SmallBlock owned kind i (blockAt r.1 i k) := ⟨r, hr, hi, k, hk, rfl⟩
    obtain ⟨m₁, hrun, hlists1, hframe⟩ := hlists.insert (i := i) (A := q i) (B := [])
      (x := blockAt r.1 i k) (append_nil _).symm (.inr ⟨i, hsmall⟩)
      fun j => hl.not_node hsmall (hout k le_rfl hk j)
    have hm1 : Meta descs owned kind m₁ := hm.of_places hl fun y hy =>
      hframe y (hy _ (.inr ⟨i, hsmall⟩)) fun j a ha => hy a (hlists.place j a ha)
    obtain ⟨m₂, hrun2, hm2, hlists2, hframe2⟩ := ih (k + 1) (by omega) hm1 hlists1 (by
      intro l hkl hlt j hmem
      by_cases hj : j = i
      · subst hj
        rw [update_self, mem_append, mem_singleton] at hmem
        rcases hmem with hmem | he
        · exact hout l (by omega) hlt j hmem
        · have := blockAt_inj he
          omega
      · rw [update_of_ne hj] at hmem
        exact hout l (by omega) hlt j hmem)
    refine ⟨m₂, ?_, hm2, ?_, ?_⟩
    · unfold pushLoop memPushBack
      rw [hm.arenaToBlock_eq hl hr hi hk]
      rw [headD_nil] at hrun
      simp only [Option.bind_eq_bind, Option.bind_some, hrun, hrun2]
    · rw [update_self, update_idem] at hlists2
      have hcons : blocksFrom r.1 i k (n + 1) =
          blockAt r.1 i k :: blocksFrom r.1 i (k + 1) n := rfl
      rw [hcons, append_cons]
      exact hlists2
    · intro y hy hnodes
      rw [hframe2 y hy, hframe y (by omega) hnodes]
      intro j a ha
      by_cases hj : j = i
      · subst hj
        rw [update_self] at ha
        by_cases hax : a = blockAt r.1 j k
        · omega
        · refine hnodes j a ?_
          simp only [nodes, mem_cons, mem_append, not_mem_nil, or_false] at ha ⊢
          tauto
      · rw [update_of_ne hj] at ha
        exact hnodes j a ha

/-! ## 7. An arena is given back -/

section Shrink

variable {r : ℕ × ℕ}

theorem Layout.mem_erase (hl : Layout descs owned kind) :
    r' ∈ owned.erase r ↔ r' ≠ r ∧ r' ∈ owned := hl.distinct.mem_erase_iff

theorem Layout.erase (hl : Layout descs owned kind) (r : ℕ × ℕ) :
    Layout descs (owned.erase r) kind where
  base := hl.base
  page r' hr' := hl.page r' (mem_of_mem_erase hr')
  static r' hr' := hl.static r' (mem_of_mem_erase hr')
  distinct := hl.distinct.erase r
  apart r₁ h1 r₂ h2 := hl.apart r₁ (mem_of_mem_erase h1) r₂ (mem_of_mem_erase h2)
  single r' hr' := hl.single r' (mem_of_mem_erase hr')

theorem Layout.erase_block_apart (hl : Layout descs owned kind) (hr : r ∈ owned)
    (hx : HeapBlock (owned.erase r) kind x n) : x + n ≤ r.1 ∨ r.1 + 4096 * r.2 ≤ x := by
  obtain ⟨s, hs, h1, h2, h3⟩ := (hl.erase r).block_bounds hx
  obtain ⟨hne, hs⟩ := hl.mem_erase.mp hs
  rcases hl.apart s hs r hr hne with h | h <;> omega

theorem Layout.small_erase (hl : Layout descs owned kind) (hr : r ∈ owned) :
    SmallBlock (owned.erase r) kind j x ↔
      SmallBlock owned kind j x ∧ (x < r.1 ∨ r.1 + 4096 * r.2 ≤ x) := by
  constructor
  · intro hx
    have hbytes := (blockBytes_bounds j).1
    have hapart := hl.erase_block_apart hr hx.block
    obtain ⟨s, hs, hrest⟩ := hx
    exact ⟨⟨s, mem_of_mem_erase hs, hrest⟩, by omega⟩
  · intro hx
    obtain ⟨⟨s, hs, hj, k, hk, rfl⟩, hapart⟩ := hx
    refine ⟨s, hl.mem_erase.mpr ⟨?_, hs⟩, hj, k, hk, rfl⟩
    intro he
    subst he
    have hb := hl.small_bounds hs hj hk
    have hbytes := (blockBytes_bounds j).1
    omega

/-- **The pages are cleared and given back**, once no block of the arena is free or live. -/
theorem HeapShape.shrink (hl : Layout descs h.owned kind) (hcnt : h.descCnt = 7)
    (hm : Meta descs h.owned kind h.mem) (hr : r ∈ h.owned)
    (hlists : MemLists h.mem (Place descs h.owned kind) (fun i => freeList (descAt descs i)) q)
    (hfree : ∀ j x, x ∈ q j ↔ SmallBlock (h.owned.erase r) kind j x ∧ x ∉ live)
    (hlive : ∀ x ∈ live, ∃ n, HeapBlock (h.owned.erase r) kind x n)
    (hbig : ∀ x c, BigBlock (h.owned.erase r) kind x c → x ∈ live) (hd : live.Nodup) :
    HeapShape descs { h with mem := fill h.mem r.1 0xcc (4096 * r.2), owned := h.owned.erase r }
      kind q live where
  layout := hl.erase r
  cnt := hcnt
  data := by
    have hhead : ∀ r' ∈ h.owned.erase r, ∀ y, r'.1 ≤ y → y < r'.1 + 12 →
        fill h.mem r.1 0xcc (4096 * r.2) y = h.mem y := by
      intro r' hr' y h1 h2
      obtain ⟨hne, hr'⟩ := hl.mem_erase.mp hr'
      have hp := hl.page r' hr'
      refine fill_apart ?_
      rcases hl.apart r' hr' r hr hne with h | h <;> omega
    have hsub : Meta descs (h.owned.erase r) kind h.mem :=
      ⟨hm.desc, fun r' hr' => hm.magic r' (mem_of_mem_erase hr'),
        fun r' hr' => hm.small r' (mem_of_mem_erase hr'),
        fun r' hr' => hm.big r' (mem_of_mem_erase hr')⟩
    refine hsub.congr (fun i y h1 h2 => fill_apart ?_)
      (fun r' hr' y h1 h2 => hhead r' hr' y h1 (by omega))
      fun r' hr' _ y h1 h2 => hhead r' hr' y (by omega) h2
    have hb := descAt_bounds descs i
    rcases hl.static r hr with h | h <;> omega
  lists := by
    have hplace : ∀ j, ∀ a ∈ nodes (listAt (freeList (descAt descs j))).head (q j)
        (listAt (freeList (descAt descs j))).tail, Place descs (h.owned.erase r) kind a := by
      intro j a ha
      rcases freeNode_cases ha with he | he
      · exact .inl ⟨j, he⟩
      · exact .inr ⟨j, ((hfree j a).mp he).1⟩
    have hsub : MemLists h.mem (Place descs (h.owned.erase r) kind)
        (fun i => freeList (descAt descs i)) q := ⟨(hl.erase r).spaced, hlists.lists, hplace⟩
    refine hsub.congr fun j a ha y h1 h2 => fill_apart ?_
    rcases Place.cases (hplace j a ha) with ⟨i, hi⟩ | ⟨n, hn, hn'⟩
    · have hb := descAt_bounds descs i
      rcases hl.static r hr with h | h <;> omega
    · rcases hl.erase_block_apart hr hn with h | h <;> omega
  free := hfree
  isBlock := hlive
  bigLive := hbig
  distinct := hd

theorem Layout.fill_block (hl : Layout descs owned kind) (hr : r ∈ owned)
    (hx : HeapBlock (owned.erase r) kind x n) (h1 : x ≤ y) (h2 : y < x + n) :
    fill m r.1 0xcc (4096 * r.2) y = m y := by
  refine fill_apart ?_
  rcases hl.erase_block_apart hr hx with h | h <;> omega

end Shrink

/-- **The loop that empties the free list** of the blocks of one arena. The invariant: the blocks
    from `k` on are still in the list. -/
theorem removeLoop_spec (hl : Layout descs owned kind) (hr : r ∈ owned) (hi : kind r.1 = some i)
    (n k : ℕ) (hkn : k + n = arenaBlocks i) (hm : Meta descs owned kind m)
    (hlists : MemLists m (Place descs owned kind) (fun i => freeList (descAt descs i)) q)
    (hin : ∀ l, k ≤ l → l < arenaBlocks i → blockAt r.1 i l ∈ q i) :
    ∃ m', removeLoop r.1 n k m = some m' ∧ Meta descs owned kind m' ∧
      MemLists m' (Place descs owned kind) (fun i => freeList (descAt descs i))
        (update q i ((q i).diff (blocksFrom r.1 i k n))) ∧
      Untouched (fun i => freeList (descAt descs i)) q m m' := by
  induction n generalizing k m q with
  | zero =>
    refine ⟨m, rfl, hm, ?_, fun _ _ => rfl⟩
    rw [show blocksFrom r.1 i k 0 = [] from rfl, diff_nil, update_eq_self]
    exact hlists
  | succ n ih =>
    have hk : k < arenaBlocks i := by omega
    have hmem := hin k le_rfl hk
    obtain ⟨A, B, hq⟩ := append_of_mem hmem
    have hd := (hlists.lists.list i).distinct
    rw [hq] at hd
    have hA : blockAt r.1 i k ∉ A := by
      intro hmem
      have hcount := nodup_iff_count_le_one.mp hd (blockAt r.1 i k)
      have hpos := count_pos_iff.mpr hmem
      simp only [nodes, count_cons, count_append, beq_self_eq_true, if_true] at hcount
      omega
    have herase : (q i).erase (blockAt r.1 i k) = A ++ B := by
      rw [hq, erase_append_right _ hA, erase_cons_head]
    obtain ⟨m₁, hrun, hlists1, hu⟩ := hlists.remove hq
    rw [← herase] at hlists1
    have hm1 : Meta descs owned kind m₁ := hm.of_places hl fun y hy =>
      hu y fun j a ha => hy a (hlists.place j a ha)
    obtain ⟨m₂, hrun2, hm2, hlists2, hu2⟩ := ih (k + 1) (by omega) hm1 hlists1 (by
      intro l h1 h2
      rw [update_self]
      refine (mem_erase_of_ne fun he => ?_).mpr (hin l (by omega) h2)
      have := blockAt_inj he
      omega)
    refine ⟨m₂, ?_, hm2, ?_, ?_⟩
    · unfold removeLoop
      rw [hm.arenaToBlock_eq hl hr hi hk]
      simp only [Option.bind_eq_bind, Option.bind_some, hrun, hrun2]
    · rw [update_self, update_idem] at hlists2
      have hcons : blocksFrom r.1 i k (n + 1) =
          blockAt r.1 i k :: blocksFrom r.1 i (k + 1) n := rfl
      rw [hcons, diff_cons]
      exact hlists2
    · intro y hy
      rw [hu2 y fun j a ha => ?_, hu y hy]
      by_cases hj : j = i
      · subst hj
        rw [update_self] at ha
        refine hy j a ?_
        have hsub : ∀ b, b ∈ (q j).erase (blockAt r.1 j k) → b ∈ q j := fun b =>
          mem_of_mem_erase
        simp only [nodes, mem_cons, mem_append] at ha ⊢
        have := hsub a
        tauto
      · rw [update_of_ne hj] at ha
        exact hy j a ha

end Pintos
