/-
  Subject:   What `malloc`, `calloc`, `realloc` and `free` do to the kernel heap.

  * `HeapInv`: the shape of the heap, right free counts, and no arena without a live block. A user's
    writes into live blocks keep it.
  * `malloc`: the request is refused and nothing changes, or a block joins the live blocks; it has room
    for `size` bytes unless `size + 12` overflows.
  * `free`: a live block leaves; its arena goes with it if it was the last.
-/
import Pintos.Threads.HeapInv

namespace Pintos

open Lib Function List Option

variable {descs : ℕ} {owned : List (ℕ × ℕ)} {kind : ℕ → Option (Fin 7)} {m m' : ℕ → UInt8}
variable {q : Fin 7 → List ℕ} {live : List ℕ} {h : Heap} {i : Fin 7}

/-! ## 1. The invariant -/

/-- **The heap between calls.** -/
structure HeapInv (descs : ℕ) (h : Heap) (kind : ℕ → Option (Fin 7)) (q : Fin 7 → List ℕ)
    (live : List ℕ) : Prop where
  shape : HeapShape descs h kind q live
  counts : Counts h.owned kind q h.mem
  used : ∀ r ∈ h.owned, ∀ i, kind r.1 = some i → freeCount (q i) r.1 i < arenaBlocks i

theorem HeapInv.write (hi : HeapInv descs h kind q live) {S : List ℕ} (hS : ∀ x ∈ S, x ∈ live)
    (hm : ∀ y, (∀ x ∈ S, ∀ n, HeapBlock h.owned kind x n → y < x ∨ x + n ≤ y) → m' y = h.mem y) :
    HeapInv descs { h with mem := m' } kind q live where
  shape := hi.shape.write hS hm
  counts := hi.shape.write_counts hi.counts hm
  used := hi.used

/-! ## 2. `malloc` -/

/-- **The header of an arena**: its three words, and nothing else. -/
theorem header_words (m : ℕ → UInt8) (a : ℕ) {d c : ℕ} (hd : d < 2 ^ 32) (hc : c < 2 ^ 32) :
    (∀ y, (y < a ∨ a + 12 ≤ y) →
      setWord (setWord (setWord m a arenaMagic) (a + 4) d) (a + 8) c y = m y) ∧
    word (setWord (setWord (setWord m a arenaMagic) (a + 4) d) (a + 8) c) a = arenaMagic ∧
    word (setWord (setWord (setWord m a arenaMagic) (a + 4) d) (a + 8) c) (a + 4) = d ∧
    word (setWord (setWord (setWord m a arenaMagic) (a + 4) d) (a + 8) c) (a + 8) = c := by
  refine ⟨fun y hy => ?_, ?_, ?_, word_setWord hc⟩
  · rw [setWord_apart (by omega), setWord_apart (by omega), setWord_apart (by omega)]
  · rw [word_setWord_apart (by omega), word_setWord_apart (by omega), word_setWord (by decide)]
  · rw [word_setWord_apart (by omega), word_setWord hd]

variable {a b cnt k n old p size x : ℕ} {h' : Heap} {kind' : ℕ → Option (Fin 7)}
  {q' : Fin 7 → List ℕ} {l l' : List ℕ} {r : ℕ × ℕ}

/-- **A new arena**: all its blocks are free, in the order of their addresses. -/
theorem newArena_spec (hs : HeapShape descs h kind q live) (hc : Counts h.owned kind q h.mem)
    (hv : Vacant descs h.owned a 1) (hq : q i = []) :
    ∃ m', newArena h (descAt descs i) a = some { h with mem := m', owned := (a, 1) :: h.owned } ∧
      HeapShape descs { h with mem := m', owned := (a, 1) :: h.owned }
        (update kind a (some i)) (update q i (blocksFrom a i 0 (arenaBlocks i)))
        live ∧
      Counts ((a, 1) :: h.owned) (update kind a (some i))
        (update q i (blocksFrom a i 0 (arenaBlocks i))) m' ∧
      KeepsLive h.owned kind live h.mem m' := by
  have hl := hs.layout
  have hl' : Layout descs ((a, 1) :: h.owned) (update kind a (some i)) :=
    hv.layout hl Nat.one_pos fun _ _ => rfl
  have hb := descAt_bounds descs i
  have hbase := hl.base
  have hstatic : descs + 480 ≤ a ∨ a + 4096 * 1 ≤ descs := hv.2.2.2.1
  have hmax := arenaBlocks_bounds i
  have hmem : (a, 1) ∈ (a, 1) :: h.owned := mem_cons_self
  -- the header
  have hbpa : word (setWord (setWord h.mem a arenaMagic) (a + 4) (descAt descs i))
      (descAt descs i + 4) = arenaBlocks i := by
    rw [word_setWord_apart (by omega), word_setWord_apart (by omega)]
    exact (hs.data.desc i).2
  obtain ⟨hframe0, hmagic, hdesc, hcnt⟩ := header_words h.mem a (d := descAt descs i)
    (c := arenaBlocks i) (by omega) (by omega)
  generalize hm0 : setWord (setWord (setWord h.mem a arenaMagic) (a + 4) (descAt descs i)) (a + 8)
    (arenaBlocks i) = m₀ at hframe0 hmagic hdesc hcnt
  obtain ⟨hmeta, hlists, hkeep, hcounts⟩ := hs.grow (v := some i) hv Nat.one_pos
    (fun _ _ => rfl) (fun y hy => hframe0 y (by omega)) hmagic
    (fun j hj => Option.some.inj hj ▸ hdesc) (fun hn => nomatch hn)
  -- the blocks join the list
  obtain ⟨m₁, hrun, hmeta1, hlists1, hframe1⟩ := pushLoop_spec hl' (r := (a, 1)) hmem
    (update_self a (some i) kind) (arenaBlocks i) 0 (Nat.zero_add _) hmeta hlists (by
      intro l _ hlt j hx
      have hx' : blockAt a i l ∈ q j := hx
      have hbl := blockAt_bounds a hlt
      have hbytes := (blockBytes_bounds j).1
      have hbytes' := (blockBytes_bounds i).1
      rcases hv.block_apart hl ((hs.free j _).mp hx').1.block with h | h <;> omega)
  rw [hq, nil_append] at hlists1
  have hhead : ∀ r ∈ (a, 1) :: h.owned, ∀ y, r.1 ≤ y → y < r.1 + 12 → m₁ y = m₀ y := by
    intro r hr y h1 h2
    refine hframe1 y ?_ fun j b hbn => ?_
    · by_cases he : r = (a, 1)
      · subst he
        exact .inl h2
      · rcases hl'.apart r hr (a, 1) hmem he with h | h <;> omega
    · rcases hl'.place_header (hlists.place j b hbn) hr with h | h <;> omega
  have hblocks : ∀ x, x ∈ blocksFrom a i 0 (arenaBlocks i) ↔
      ∃ k < arenaBlocks i, x = blockAt a i k := by
    intro x
    rw [mem_blocksFrom]
    exact ⟨fun ⟨l, _, h2, h3⟩ => ⟨l, by omega, h3⟩, fun ⟨l, h2, h3⟩ => ⟨l, by omega, by omega, h3⟩⟩
  refine ⟨m₁, ?_, ⟨hl', hs.cnt, hmeta1, hlists1, ?_, ?_, ?_, hs.distinct⟩, ?_, ?_⟩
  · unfold newArena
    simp only [hbpa, hm0, (hmeta.desc i).2, hrun, bind_eq_bind, bind_some]
  · intro j x
    rw [hv.small_iff hl Nat.one_pos]
    have hnew : ∀ x ∈ live, x ∉ blocksFrom a i 0 (arenaBlocks i) := by
      intro x hx hmem
      obtain ⟨k, hk, rfl⟩ := (hblocks x).mp hmem
      obtain ⟨n, hn⟩ := hs.isBlock _ hx
      have hbl := blockAt_bounds a hk
      have hbytes := (blockBytes_bounds i).1
      obtain ⟨-, -, -, -, hn'⟩ := hl.block_bounds hn
      rcases hv.block_apart hl hn with h | h <;> omega
    by_cases hj : j = i
    · subst hj
      rw [update_self]
      constructor
      · intro hx
        exact ⟨.inr ⟨rfl, (hblocks x).mp hx⟩, fun hlive => hnew x hlive hx⟩
      · intro hx
        rcases hx.1 with hold | ⟨-, hnew'⟩
        · have hfree := (hs.free j x).mpr ⟨hold, hx.2⟩
          rw [hq] at hfree
          exact absurd hfree not_mem_nil
        · exact (hblocks x).mpr hnew'
    · rw [update_of_ne hj, hs.free j x]
      refine ⟨fun hx => ⟨.inl hx.1, hx.2⟩, fun hx => ⟨hx.1.resolve_right fun hn => ?_, hx.2⟩⟩
      exact hj (Option.some.inj hn.1).symm
  · intro x hx
    obtain ⟨n, hn⟩ := hs.isBlock x hx
    exact ⟨n, hv.block hl Nat.one_pos hn⟩
  · intro x c hx
    rcases (hv.big_iff hl Nat.one_pos).mp hx with hx | hx
    · exact hs.bigLive x c hx
    · exact nomatch hx.1
  · intro r hr j hj
    rw [word_congr fun y h1 h2 => hhead r hr y (by omega) (by omega)]
    rcases mem_cons.mp hr with rfl | hr'
    · rw [update_self] at hj
      obtain rfl := Option.some.inj hj
      rw [update_self, hcnt]
      unfold freeCount
      rw [Finset.filter_true_of_mem, Finset.card_range]
      intro k hk
      exact (hblocks _).mpr ⟨k, Finset.mem_range.mp hk, rfl⟩
    · have hne := hv.ne hl Nat.one_pos hr'
      rw [update_of_ne hne] at hj
      rw [hcounts r hr', hc r hr' j hj]
      by_cases hji : j = i
      · subst hji
        rw [update_self]
        refine mem_freeCount_congr fun k hk => ?_
        rw [hq]
        refine ⟨fun hx => absurd hx not_mem_nil, fun hx => ?_⟩
        obtain ⟨l, hlt, he⟩ := (hblocks _).mp hx
        have hb1 := hl.small_bounds hr' hj hk
        have hb2 := blockAt_bounds a hlt
        rcases hv.2.2.2.2 r hr' with h | h <;> omega
      · rw [update_of_ne hji]
  · refine hkeep.trans fun x hx n hn y h1 h2 => hframe1 y ?_ fun j b hbn => ?_
    · rcases hv.block_apart hl hn with h | h <;> omega
    · rcases hs.node_live hbn hx hn with h | h <;> omega

/-- What a block of capacity `n` must be to answer a request of `size` bytes. -/
def Provides (size n : ℕ) : Prop :=
  (∃ i, n = blockBytes i ∧ size ≤ n) ∨ (0 < pageCnt size ∧ n = 4096 * pageCnt size - arenaSize)

/-- **The block is large enough** if the size of the arena does not overflow. -/
theorem Provides.le (hp : Provides size n) (hsize : size + 12 ≤ 2 ^ 32) : size ≤ n := by
  rcases hp with ⟨i, -, hle⟩ | ⟨hpos, rfl⟩
  · exact hle
  · unfold pageCnt arenaSize at *
    omega

/-- **A successful `malloc`**: the new block, and what stays. -/
structure Malloced (descs : ℕ) (h : Heap) (kind : ℕ → Option (Fin 7)) (live : List ℕ) (size : ℕ)
    (h' : Heap) (p : ℕ) (kind' : ℕ → Option (Fin 7)) (q' : Fin 7 → List ℕ) (n : ℕ) : Prop where
  inv : HeapInv descs h' kind' q' (p :: live)
  keeps : KeepsLive h.owned kind live h.mem h'.mem
  blocks : ∀ x n, HeapBlock h.owned kind x n → HeapBlock h'.owned kind' x n
  block : HeapBlock h'.owned kind' p n
  provides : Provides size n

theorem Malloced.fresh (hm : Malloced descs h kind live size h' p kind' q' n) : p ∉ live :=
  (List.nodup_cons.mp hm.inv.shape.distinct).1

theorem Malloced.pos (hm : Malloced descs h kind live size h' p kind' q' n) : p ≠ 0 := by
  obtain ⟨r, -, h1, -, -⟩ := hm.inv.shape.layout.block_bounds hm.block
  omega

theorem pallocGet_some {grant : Option ℕ} (hg : pallocGet descs h cnt grant = some a) :
    0 < cnt ∧ Vacant descs h.owned a cnt := by
  unfold pallocGet at hg
  split at hg
  · cases hg
  · rw [filter_eq_some_iff] at hg
    exact ⟨by omega, of_decide_eq_true hg.2⟩

theorem mallocBig_spec (hi : HeapInv descs h kind q live) (size : ℕ) (grant : Option ℕ) :
    (mallocBig descs h size grant = (h, 0) ∧ pallocGet descs h (pageCnt size) grant = none) ∨
      ∃ h' p kind' n, mallocBig descs h size grant = (h', p) ∧
        Malloced descs h kind live size h' p kind' q n := by
  unfold mallocBig
  cases hg : pallocGet descs h (pageCnt size) grant with
  | none => exact .inl ⟨rfl, rfl⟩
  | some a =>
    obtain ⟨hcnt, hv⟩ := pallocGet_some hg
    have hl := hi.shape.layout
    have hlt : pageCnt size < 2 ^ 32 := by
      unfold pageCnt
      omega
    obtain ⟨hframe0, hmagic, hdesc, hcount⟩ := header_words h.mem a (d := 0) (by decide) hlt
    generalize hm0 : setWord (setWord (setWord h.mem a arenaMagic) (a + 4) 0) (a + 8)
      (pageCnt size) = m₀ at hframe0 hmagic hdesc hcount
    obtain ⟨hmeta, hlists, hkeep, hcounts⟩ := hi.shape.grow (v := none) hv hcnt
      (fun _ hn => nomatch hn) (fun y hy => hframe0 y (by omega)) hmagic (fun _ hn => nomatch hn)
      fun _ => ⟨hdesc, hcount⟩
    have hblock : HeapBlock ((a, pageCnt size) :: h.owned) (update kind a none)
        (a + arenaSize) (4096 * pageCnt size - arenaSize) :=
      .inr ⟨_, (hv.big_iff hl hcnt).mpr (.inr ⟨rfl, rfl, rfl⟩), rfl⟩
    have hsmall : ∀ j x,
        SmallBlock ((a, pageCnt size) :: h.owned) (update kind a none) j x ↔
          SmallBlock h.owned kind j x := by
      intro j x
      rw [hv.small_iff hl hcnt]
      exact or_iff_left fun hn => nomatch hn.1
    have hfresh : ∀ x n, HeapBlock h.owned kind x n → x ≠ a + arenaSize := by
      intro x n hn he
      obtain ⟨-, -, -, -, hn'⟩ := hl.block_bounds hn
      unfold arenaSize at he
      rcases hv.block_apart hl hn with h | h <;> omega
    refine .inr ⟨{ h with mem := m₀, owned := (a, pageCnt size) :: h.owned }, a + arenaSize,
      update kind a none, _, ?_, ⟨⟨?_, ?_, ?_⟩, hkeep,
      fun x n hn => hv.block hl hcnt hn, hblock, .inr ⟨hcnt, rfl⟩⟩⟩
    · simp only [hm0]
    · refine ⟨hv.layout hl hcnt (fun _ hn => nomatch hn), hi.shape.cnt, hmeta, hlists, ?_, ?_, ?_,
        ?_⟩
      · intro j x
        rw [hsmall j x, hi.shape.free j x, mem_cons, not_or]
        exact ⟨fun hx => ⟨hx.1, hfresh x _ hx.1.block, hx.2⟩, fun hx => ⟨hx.1, hx.2.2⟩⟩
      · intro x hx
        rcases mem_cons.mp hx with rfl | hx
        · exact ⟨_, hblock⟩
        · obtain ⟨n, hn⟩ := hi.shape.isBlock x hx
          exact ⟨n, hv.block hl hcnt hn⟩
      · intro x c hx
        rcases (hv.big_iff hl hcnt).mp hx with hx | ⟨-, rfl, -⟩
        · exact mem_cons_of_mem _ (hi.shape.bigLive x c hx)
        · exact mem_cons_self
      · refine nodup_cons.mpr ⟨fun hmem => ?_, hi.shape.distinct⟩
        obtain ⟨n, hn⟩ := hi.shape.isBlock _ hmem
        exact hfresh _ n hn rfl
    · intro r hr j hj
      rcases mem_cons.mp hr with rfl | hr
      · rw [update_self] at hj
        exact nomatch hj
      · rw [update_of_ne (hv.ne hl hcnt hr)] at hj
        rw [hcounts r hr]
        exact hi.counts r hr j hj
    · intro r hr j hj
      rcases mem_cons.mp hr with rfl | hr
      · rw [update_self] at hj
        exact nomatch hj
      · rw [update_of_ne (hv.ne hl hcnt hr)] at hj
        exact hi.used r hr j hj

theorem freeCount_mono (hsub : ∀ x ∈ l, x ∈ l') : freeCount l a i ≤ freeCount l' a i := by
  unfold freeCount
  refine Finset.card_le_card fun k hk => ?_
  rw [Finset.mem_filter] at hk ⊢
  exact ⟨hk.1, hsub _ hk.2⟩

theorem mallocTake_spec (hs : HeapShape descs h kind q live) (hc : Counts h.owned kind q h.mem)
    (hq : q i = b :: l) (hsize : size ≤ blockBytes i)
    (hused : ∀ r ∈ h.owned, ∀ j, kind r.1 = some j →
      freeCount (update q i l j) r.1 j < arenaBlocks j) :
    ∃ h', takeBlock h (descAt descs i) = some (h', b) ∧
      Malloced descs h kind live size h' b kind (update q i l) (blockBytes i) := by
  obtain ⟨m₁, hrun, hs1, hc1, hkeep⟩ := takeBlock_spec hs hc hq
  exact ⟨_, hrun, ⟨hs1, hc1, hused⟩, hkeep, fun _ _ hn => hn,
    ((hs.free i b).mp (hq ▸ mem_cons_self)).1.block, .inl ⟨i, rfl, hsize⟩⟩

theorem mallocSmall_spec (hi : HeapInv descs h kind q live) (grant : Option ℕ)
    (hsize : size ≤ blockBytes i) : (mallocSmall descs h (descAt descs i) grant = some (h, 0) ∧
        pallocGet descs h 1 grant = none) ∨
      ∃ h' p kind' q' n, mallocSmall descs h (descAt descs i) grant = some (h', p) ∧
        Malloced descs h kind live size h' p kind' q' n := by
  unfold mallocSmall
  have hempty := hi.shape.lists.empty_iff i
  cases hq : q i with
  | cons b l =>
    rw [if_neg (by rw [hempty, hq]; exact cons_ne_nil b l)]
    obtain ⟨h', hrun, hm⟩ := mallocTake_spec hi.shape hi.counts hq hsize (by
      intro r hr j hj
      refine lt_of_le_of_lt (freeCount_mono fun x hx => ?_) (hi.used r hr j hj)
      by_cases hji : j = i
      · subst hji
        rw [update_self] at hx
        rw [hq]
        exact mem_cons_of_mem b hx
      · rwa [update_of_ne hji] at hx)
    exact .inr ⟨h', b, kind, _, _, hrun, hm⟩
  | nil =>
    rw [if_pos (hempty.mpr hq)]
    cases hg : pallocGet descs h 1 grant with
    | none => exact .inl ⟨rfl, rfl⟩
    | some a =>
      have hv := (pallocGet_some hg).2
      have hl := hi.shape.layout
      obtain ⟨m₁, hrun, hs1, hc1, hkeep⟩ := newArena_spec hi.shape hi.counts hv hq
      have hpos := (arenaBlocks_bounds i).1
      obtain ⟨N, hN⟩ : ∃ N, arenaBlocks i = N + 1 := ⟨arenaBlocks i - 1, by omega⟩
      have hcons : blocksFrom a i 0 (arenaBlocks i) = blockAt a i 0 :: blocksFrom a i 1 N := by
        rw [hN]
        rfl
      have hout : blockAt a i 0 ∉ blocksFrom a i 1 N := by
        intro hmem
        obtain ⟨l, h1, -, he⟩ := mem_blocksFrom.mp hmem
        have := blockAt_inj he
        omega
      rw [hcons] at hs1 hc1
      obtain ⟨h', hrun', hm⟩ := mallocTake_spec hs1 hc1 (update_self i _ q) hsize (by
        intro r hr j hj
        rw [update_idem]
        by_cases hji : j = i
        · subst hji
          rw [update_self]
          -- an arena of this descriptor has less blocks in the list than the new one had
          by_cases hra : r.1 = a
          · have hle := freeCount_le (blockAt a j 0 :: blocksFrom a j 1 N) a j
            rw [freeCount_cons (by omega) hout] at hle
            rw [hra]
            omega
          · rcases mem_cons.mp hr with rfl | hr
            · exact absurd rfl hra
            · rw [update_of_ne hra] at hj
              have hzero := hi.used r hr j hj
              refine lt_of_le_of_lt (le_of_eq (mem_freeCount_congr fun k hk => ?_)) hzero
              rw [hq]
              refine ⟨fun hx => ?_, fun hx => absurd hx not_mem_nil⟩
              obtain ⟨l, -, hlt, he⟩ := mem_blocksFrom.mp hx
              have hb1 := hl.small_bounds hr hj hk
              have hb2 := blockAt_bounds a (i := j) (k := l) (by omega)
              rcases hv.2.2.2.2 r hr with h | h <;> omega
        · rw [update_of_ne hji]
          rcases mem_cons.mp hr with rfl | hr
          · rw [update_self] at hj
            exact absurd (Option.some.inj hj).symm hji
          · rw [update_of_ne (hv.ne hl Nat.one_pos hr)] at hj
            exact hi.used r hr j hj)
      refine .inr ⟨h', _, _, _, _, ?_, ⟨hm.inv, ?_, ?_, hm.block, hm.provides⟩⟩
      · simp only [hrun, bind_some, hrun']
      · refine hkeep.trans fun x hx n hn => ?_
        exact hm.keeps x hx n (hv.block hl Nat.one_pos hn)
      · exact fun x n hn => hm.blocks x n (hv.block hl Nat.one_pos hn)

/-- The loop of `malloc` finds the first descriptor that is large enough, or none. -/
theorem findDesc_spec (hm : Meta descs owned kind m) (size n k : ℕ) (hkn : k + n = 7)
    (hlow : ∀ i : Fin 7, (i : ℕ) < k → blockBytes i < size) :
    (∃ i : Fin 7, findDesc m size n (descs + descSize * k) = descAt descs i ∧ size ≤ blockBytes i) ∨
      (findDesc m size n (descs + descSize * k) = descs + descSize * 7 ∧ 1024 < size) := by
  induction n generalizing k with
  | zero =>
    obtain rfl : k = 7 := by omega
    exact .inr ⟨rfl, hlow 6 (by decide)⟩
  | succ n ih =>
    have hdesc := (hm.desc ⟨k, by omega⟩).1
    unfold findDesc
    split
    · rename_i hle
      refine .inl ⟨⟨k, by omega⟩, rfl, ?_⟩
      rw [← hdesc]
      exact hle
    · rename_i hlt
      have hnext := ih (k + 1) (by omega) (by
        intro i hi
        by_cases he : (i : ℕ) = k
        · have hik : i = ⟨k, by omega⟩ := Fin.ext he
          rw [hik, ← hdesc]
          exact Nat.lt_of_not_le hlt
        · exact hlow i (by omega))
      rwa [show descs + descSize * k + descSize = descs + descSize * (k + 1) by
        unfold descSize; omega]

/-- The pages that a request asks for when its descriptor has no free block. -/
def requestPages (size : ℕ) : ℕ := if size ≤ 1024 then 1 else pageCnt size

theorem malloc_spec (hi : HeapInv descs h kind q live) (size : ℕ) (grant : Option ℕ) :
    (Heap.malloc descs h size grant = some (h, 0) ∧
        (size = 0 ∨ pallocGet descs h (requestPages size) grant = none)) ∨
      ∃ h' p kind' q' n, Heap.malloc descs h size grant = some (h', p) ∧
        Malloced descs h kind live size h' p kind' q' n := by
  unfold Heap.malloc
  split
  · rename_i hzero
    exact .inl ⟨rfl, .inl hzero⟩
  · have hfind := findDesc_spec hi.shape.data size 7 0 rfl (fun i hi => absurd hi (by omega))
    rw [Nat.mul_zero, Nat.add_zero] at hfind
    simp only [hi.shape.cnt]
    rcases hfind with ⟨i, hd, hsize⟩ | ⟨hd, hsize⟩
    · have hne : descAt descs i ≠ descs + descSize * 7 := by
        unfold descAt descSize
        omega
      have hpages : requestPages size = 1 := if_pos (hsize.trans (blockBytes_bounds i).2)
      rw [hd, if_neg hne, hpages]
      rcases mallocSmall_spec hi grant hsize with hnull | hm
      · exact .inl ⟨hnull.1, .inr hnull.2⟩
      · exact .inr hm
    · have hpages : requestPages size = pageCnt size := if_neg (by omega)
      rw [if_pos hd, hpages]
      rcases mallocBig_spec hi size grant with hnull | ⟨h', p, kind', n, hrun, hm⟩
      · exact .inl ⟨congrArg some hnull.1, .inr hnull.2⟩
      · exact .inr ⟨h', p, kind', q, n, congrArg some hrun, hm⟩

/-! ## 3. `free` -/

/-- **A successful `free`.** -/
structure Freed (descs : ℕ) (h : Heap) (kind : ℕ → Option (Fin 7)) (live : List ℕ) (h' : Heap)
    (q' : Fin 7 → List ℕ) : Prop where
  inv : HeapInv descs h' kind q' live
  keeps : KeepsLive h.owned kind live h.mem h'.mem
  blocks : ∀ x ∈ live, ∀ n, HeapBlock h.owned kind x n → HeapBlock h'.owned kind x n

theorem pallocFree_eq (hl : Layout descs h.owned kind) (hr : r ∈ h.owned) : pallocFree h r.1 r.2 =
      some { h with mem := fill h.mem r.1 0xcc (4096 * r.2), owned := h.owned.erase r } := by
  have hp := hl.page r hr
  unfold pallocFree
  rw [if_neg (by omega), if_neg (by omega), if_pos hr]

theorem HeapShape.block_erase (hl : Layout descs owned kind) (hr : r ∈ owned)
    (hx : HeapBlock owned kind x n) (hout : x < r.1 ∨ r.1 + 4096 * r.2 ≤ x) :
    HeapBlock (owned.erase r) kind x n := by
  rcases hx with ⟨i, hx, hn⟩ | ⟨c, ⟨s, hs, hx⟩, hn⟩
  · exact .inl ⟨i, (hl.small_erase hr).mpr ⟨hx, hout⟩, hn⟩
  · refine .inr ⟨c, ⟨s, hl.mem_erase.mpr ⟨fun he => ?_, hs⟩, hx⟩, hn⟩
    have hp := hl.page r hr
    have hxs := hx.2.1
    unfold arenaSize at hxs
    subst he
    omega

theorem freeBig_spec (hi : HeapInv descs h kind q live) (hr : r ∈ h.owned) (hk : kind r.1 = none) :
    ∃ h', Heap.free h (r.1 + arenaSize) = some h' ∧
      Freed descs h kind (live.erase (r.1 + arenaSize)) h' q := by
  have hs := hi.shape
  have hl := hs.layout
  have hp := hl.page r hr
  have hword := hs.data.big r hr hk
  have hblock : HeapBlock h.owned kind (r.1 + arenaSize) (4096 * r.2 - arenaSize) :=
    .inr ⟨r.2, ⟨r, hr, hk, rfl, rfl⟩, rfl⟩
  -- the other blocks are in other arenas
  have hother : ∀ x n, HeapBlock h.owned kind x n → x ≠ r.1 + arenaSize →
      x < r.1 ∨ r.1 + 4096 * r.2 ≤ x := by
    intro x n hn hne
    obtain ⟨-, -, -, -, hn'⟩ := hl.block_bounds hn
    rcases hl.block_apart hn hblock hne with h | h
    · rcases hl.block_header hn hr with h' | h' <;> unfold arenaSize at * <;> omega
    · unfold arenaSize at *
      omega
  have hmem : ∀ x, x ∈ live.erase (r.1 + arenaSize) ↔ x ≠ r.1 + arenaSize ∧ x ∈ live := fun x =>
    hs.distinct.mem_erase_iff
  have hkeepBlock : ∀ x ∈ live.erase (r.1 + arenaSize), ∀ n, HeapBlock h.owned kind x n →
      HeapBlock (h.owned.erase r) kind x n := fun x hx n hn =>
    HeapShape.block_erase hl hr hn (hother x n hn ((hmem x).mp hx).1)
  refine ⟨{ h with mem := fill h.mem r.1 0xcc (4096 * r.2), owned := h.owned.erase r }, ?_,
    ⟨⟨?_, ?_, ?_⟩, ?_, hkeepBlock⟩⟩
  · unfold Heap.free
    rw [if_pos (by unfold arenaSize; omega), hs.data.blockToArena_big hl hr hk]
    simp only [bind_eq_bind, bind_some, hword.1, hword.2, ne_eq, not_true_eq_false,
      if_false]
    exact pallocFree_eq hl hr
  · refine HeapShape.shrink hl hs.cnt hs.data hr hs.lists (fun j x => ?_) (fun x hx => ?_)
      (fun x c hx => ?_) (hs.distinct.erase _)
    · rw [hs.free j x, hl.small_erase hr, hmem x]
      have hne : SmallBlock h.owned kind j x → x ≠ r.1 + arenaSize := by
        intro hx he
        unfold arenaSize at he
        have hj := (hl.small_in hx hr (by omega) (by omega)).1
        rw [hk] at hj
        exact nomatch hj
      constructor
      · intro hx
        exact ⟨⟨hx.1, hother x _ hx.1.block (hne hx.1)⟩, fun hm => hx.2 hm.2⟩
      · intro hx
        exact ⟨hx.1.1, fun hm => hx.2 ⟨hne hx.1.1, hm⟩⟩
    · obtain ⟨n, hn⟩ := hs.isBlock x ((hmem x).mp hx).2
      exact ⟨n, hkeepBlock x hx n hn⟩
    · obtain ⟨s, hs', hj, hx', hc⟩ := hx
      obtain ⟨hne, hs'⟩ := hl.mem_erase.mp hs'
      refine (hmem x).mpr ⟨fun he => hne (hl.eq_of_addr hs' hr ?_),
        hs.bigLive x c ⟨s, hs', hj, hx', hc⟩⟩
      omega
  · intro r' hr' j hj
    obtain ⟨hne, hr'⟩ := hl.mem_erase.mp hr'
    have hp' := hl.page r' hr'
    rw [← hi.counts r' hr' j hj]
    refine word_congr fun y h1 h2 => fill_apart ?_
    rcases hl.apart r' hr' r hr hne with h | h <;> omega
  · intro r' hr' j hj
    exact hi.used r' (mem_of_mem_erase hr') j hj
  · intro x hx n hn y h1 h2
    exact hl.fill_block hr (hkeepBlock x hx n hn) h1 h2

/-- The block moves from the live blocks to the front of its free list. -/
theorem HeapShape.given (hs : HeapShape descs h kind q live) (hsmall : SmallBlock h.owned kind i p)
    (hp : p ∈ live)
    (hlists : MemLists m' (Place descs h.owned kind) (fun i => freeList (descAt descs i))
      (update q i (p :: q i))) (hdata : Meta descs h.owned kind m') :
    HeapShape descs { h with mem := m' } kind (update q i (p :: q i)) (live.erase p) where
  layout := hs.layout
  cnt := hs.cnt
  data := hdata
  lists := hlists
  free j x := by
    rw [hs.distinct.mem_erase_iff, not_and_or, not_not]
    by_cases hj : j = i
    · subst hj
      rw [update_self, mem_cons, hs.free j x]
      constructor
      · intro hx
        rcases hx with rfl | hx
        · exact ⟨hsmall, .inl rfl⟩
        · exact ⟨hx.1, .inr hx.2⟩
      · intro hx
        rcases hx.2 with he | hout
        · exact .inl he
        · exact .inr ⟨hx.1, hout⟩
    · rw [update_of_ne hj, hs.free j x]
      refine ⟨fun hx => ⟨hx.1, .inr hx.2⟩, fun hx => ⟨hx.1, hx.2.resolve_left fun he => hj ?_⟩⟩
      rw [he] at hx
      exact hs.layout.small_unique hx.1 hsmall
  isBlock x hx := hs.isBlock x (mem_of_mem_erase hx)
  bigLive x c hx := by
    refine hs.distinct.mem_erase_iff.mpr ⟨fun he => ?_, hs.bigLive x c hx⟩
    rw [he] at hx
    obtain ⟨s, hs', hn, hps, -⟩ := hx
    have hpg := hs.layout.page s hs'
    unfold arenaSize at hps
    have hj := (hs.layout.small_in hsmall hs' (by omega) (by omega)).1
    rw [hn] at hj
    exact nomatch hj
  distinct := hs.distinct.erase p

theorem freeFront_spec (hi : HeapInv descs h kind q live) (hr : r ∈ h.owned)
    (hk : kind r.1 = some i) (hlt : k < arenaBlocks i) (hp : blockAt r.1 i k ∈ live) :
    ∃ m', memPushFront (fill h.mem (blockAt r.1 i k) 0xcc (blockBytes i))
        (freeList (descAt descs i)) (blockAt r.1 i k) = some m' ∧
      HeapShape descs { h with mem := m' } kind (update q i (blockAt r.1 i k :: q i))
        (live.erase (blockAt r.1 i k)) ∧
      (∀ r' ∈ h.owned, ∀ j, kind r'.1 = some j → word m' (r'.1 + 8) = freeCount (q j) r'.1 j) ∧
      KeepsLive h.owned kind (live.erase (blockAt r.1 i k)) h.mem m' := by
  have hl := hi.shape.layout
  have hsmall : SmallBlock h.owned kind i (blockAt r.1 i k) := ⟨r, hr, hk, k, hlt, rfl⟩
  generalize hx : blockAt r.1 i k = p at hp hsmall
  have hbytes := (blockBytes_bounds i).1
  have hfill : ∀ y, (∀ x ∈ [p], ∀ n, HeapBlock h.owned kind x n → y < x ∨ x + n ≤ y) →
      fill h.mem p 0xcc (blockBytes i) y = h.mem y := fun y hy =>
    fill_apart (hy p mem_cons_self _ hsmall.block)
  have hi1 := hi.write (S := [p]) (fun x hx => by rw [mem_singleton.mp hx]; exact hp) hfill
  have hout : ∀ j, p ∉ q j := fun j hmem => ((hi.shape.free j p).mp hmem).2 hp
  obtain ⟨m₁, hrun, hlists, hframe⟩ := hi1.shape.lists.insert (i := i) (A := []) (B := q i) rfl
    (.inr ⟨i, hsmall⟩) fun j => hl.not_node hsmall (hout j)
  rw [nil_append] at hlists
  have hdata : Meta descs h.owned kind m₁ := hi1.shape.data.of_places hl fun y hy =>
    hframe y (hy p (.inr ⟨i, hsmall⟩)) fun j a ha => hy a (hi1.shape.lists.place j a ha)
  refine ⟨m₁, ?_, hi.shape.given hsmall hp hlists hdata, ?_, ?_⟩
  · unfold memPushFront
    rw [hi1.shape.lists.begin_eq i]
    exact hrun
  · intro r' hr' j hj
    rw [← hi1.counts r' hr' j hj]
    refine word_congr fun y h1 h2 => hframe y ?_ fun j a ha => ?_
    · rcases hl.place_header (.inr ⟨i, hsmall⟩) hr' with h | h <;> omega
    · rcases hl.place_header (hi1.shape.lists.place j a ha) hr' with h | h <;> omega
  · intro x hx n hn y h1 h2
    obtain ⟨hne, hxl⟩ := hi.shape.distinct.mem_erase_iff.mp hx
    have hapart := hl.block_apart hn hsmall.block hne
    rw [hframe y (by omega) fun j a ha => ?_]
    · exact fill_apart (by omega)
    · rcases hi.shape.node_live ha hxl hn with h | h <;> omega

/-- **An unused arena is given back**: its blocks leave the middle of the free list, and nothing
    else does. -/
theorem giveBack_spec (hs : HeapShape descs h kind q live) (hc : Counts h.owned kind q h.mem)
    (hr : r ∈ h.owned) (hk : kind r.1 = some i) (hfull : freeCount (q i) r.1 i = arenaBlocks i)
    (hother : ∀ r' ∈ h.owned, r' ≠ r → ∀ j, kind r'.1 = some j →
      freeCount (q j) r'.1 j < arenaBlocks j) :
    ∃ m₁ h' q', removeLoop r.1 (arenaBlocks i) 0 h.mem = some m₁ ∧
      pallocFree { h with mem := m₁ } r.1 1 = some h' ∧ Freed descs h kind live h' q' := by
  have hl := hs.layout
  obtain ⟨m₁, hrun, hdata, hlists, hu⟩ := removeLoop_spec hl hr hk (arenaBlocks i) 0
    (Nat.zero_add _) hs.data hs.lists fun l _ hl' => freeCount_full hfull hl'
  have hd : (q i).Nodup :=
    (nodup_append.mp (nodup_cons.mp (hs.lists.lists.list i).distinct).2).1
  -- what is left in the list
  have hmem : ∀ x, x ∈ (q i).diff (blocksFrom r.1 i 0 (arenaBlocks i)) ↔
      x ∈ q i ∧ ¬∃ l < arenaBlocks i, x = blockAt r.1 i l := by
    intro x
    rw [hd.mem_sdiff_iff, mem_blocksFrom]
    exact and_congr_right fun _ => not_congr ⟨fun ⟨l, _, h2, h3⟩ => ⟨l, by omega, h3⟩,
      fun ⟨l, h2, h3⟩ => ⟨l, by omega, by omega, h3⟩⟩
  -- no live block is in the arena
  have hlive : ∀ x ∈ live, ∀ n, HeapBlock h.owned kind x n → x < r.1 ∨ r.1 + 4096 * r.2 ≤ x := by
    intro x hx n hn
    by_contra hin
    rcases hl.block_in hn hr (by omega) (by omega) with ⟨j, l, hj, hlt, rfl, -⟩ | ⟨hj, -, -⟩
    · rw [hk] at hj
      obtain rfl := Option.some.inj hj
      exact ((hs.free i _).mp (freeCount_full hfull hlt)).2 hx
    · rw [hk] at hj
      exact nomatch hj
  have hblocks : ∀ x ∈ live, ∀ n, HeapBlock h.owned kind x n →
      HeapBlock (h.owned.erase r) kind x n := fun x hx n hn =>
    HeapShape.block_erase hl hr hn (hlive x hx n hn)
  have hpalloc := pallocFree_eq (h := { h with mem := m₁ }) hl hr
  rw [hl.single r hr i hk] at hpalloc
  refine ⟨m₁, { h with mem := fill m₁ r.1 0xcc (4096 * r.2), owned := h.owned.erase r },
    update q i ((q i).diff (blocksFrom r.1 i 0 (arenaBlocks i))), hrun, ?_,
    ⟨⟨?_, ?_, ?_⟩, ?_, hblocks⟩⟩
  · rw [hpalloc, hl.single r hr i hk]
  · refine HeapShape.shrink (h := { h with mem := m₁ }) hl hs.cnt hdata hr hlists (fun j x => ?_)
      (fun x hx => ?_) (fun x cnt hx => ?_) hs.distinct
    · rw [hl.small_erase hr]
      by_cases hj : j = i
      · subst hj
        rw [update_self, hmem x, hs.free j x]
        constructor
        · intro hx
          refine ⟨⟨hx.1.1, ?_⟩, hx.1.2⟩
          by_contra hin
          exact hx.2 (hl.small_in hx.1.1 hr (by omega) (by omega)).2
        · intro hx
          refine ⟨⟨hx.1.1, hx.2⟩, fun ⟨l, hlt, he⟩ => ?_⟩
          have hb := hl.small_bounds hr hk hlt
          have hbytes := (blockBytes_bounds j).1
          omega
      · rw [update_of_ne hj, hs.free j x]
        refine ⟨fun hx => ⟨⟨hx.1, ?_⟩, hx.2⟩, fun hx => ⟨hx.1.1, hx.2⟩⟩
        by_contra hin
        have hj' := (hl.small_in hx.1 hr (by omega) (by omega)).1
        rw [hk] at hj'
        exact hj (Option.some.inj hj').symm
    · obtain ⟨n, hn⟩ := hs.isBlock x hx
      exact ⟨n, hblocks x hx n hn⟩
    · obtain ⟨s, hs', hrest⟩ := hx
      exact hs.bigLive x cnt ⟨s, mem_of_mem_erase hs', hrest⟩
  · intro r' hr' j hj
    obtain ⟨hne, hr'⟩ := hl.mem_erase.mp hr'
    have hpg' := hl.page r' hr'
    have hfill : word (fill m₁ r.1 0xcc (4096 * r.2)) (r'.1 + 8) = word m₁ (r'.1 + 8) := by
      refine word_congr fun y h1 h2 => fill_apart ?_
      rcases hl.apart r' hr' r hr hne with h | h <;> omega
    rw [hfill, hs.count_of_untouched hu hr', hc r' hr' j hj]
    by_cases hji : j = i
    · subst hji
      rw [update_self]
      refine mem_freeCount_congr fun l hlt => ?_
      rw [hmem]
      refine ⟨fun hx => ⟨hx, fun ⟨l', hlt', he⟩ => hne ?_⟩, fun hx => hx.1⟩
      have hb1 := hl.small_bounds hr' hj hlt
      have hb2 := hl.small_bounds hr hk hlt'
      have hbytes := (blockBytes_bounds j).1
      exact hl.eq_of_common hr' hr (y := blockAt r'.1 j l) (by omega) (by omega) (by omega)
        (by omega)
    · rw [update_of_ne hji]
  · intro r' hr' j hj
    obtain ⟨hne, hr'⟩ := hl.mem_erase.mp hr'
    refine lt_of_le_of_lt (freeCount_mono fun x hx => ?_) (hother r' hr' hne j hj)
    by_cases hji : j = i
    · subst hji
      rw [update_self] at hx
      exact ((hmem x).mp hx).1
    · rwa [update_of_ne hji] at hx
  · intro x hx n hn y h1 h2
    show fill m₁ r.1 0xcc (4096 * r.2) y = _
    rw [hl.fill_block hr (hblocks x hx n hn) h1 h2]
    exact hs.keepsLive_of_untouched hu x hx n hn y h1 h2

section

variable (hi : HeapInv descs h kind q live)

include hi

theorem freeSmall_spec (hr : r ∈ h.owned) (hk : kind r.1 = some i) (hlt : k < arenaBlocks i)
    (hp : blockAt r.1 i k ∈ live) : ∃ h' q', Heap.free h (blockAt r.1 i k) = some h' ∧
      Freed descs h kind (live.erase (blockAt r.1 i k)) h' q' := by
  have hl := hi.shape.layout
  have hb := blockAt_bounds r.1 hlt
  have hmax := arenaBlocks_bounds i
  have hdesc := hi.shape.data.small r hr i hk
  have hdpos : descAt descs i ≠ 0 := by
    have hbase := hl.base.1
    have hd := (descAt_bounds descs i).1
    omega
  obtain ⟨m₁, hrun1, hs1, hcnt1, hkeep1⟩ := freeFront_spec hi hr hk hlt hp
  have hfree : Heap.free h (blockAt r.1 i k) =
      freeArena { h with mem := m₁ } r.1 (descAt descs i) := by
    unfold Heap.free
    rw [if_pos (by omega), hi.shape.data.blockToArena_small hl hr hk hlt]
    simp only [bind_eq_bind, bind_some, hdesc, (hi.shape.data.desc i).1, hrun1]
    rw [if_pos hdpos]
  have hout : blockAt r.1 i k ∉ q i := fun hmem => ((hi.shape.free i _).mp hmem).2 hp
  have hnew : freeCount (blockAt r.1 i k :: q i) r.1 i = freeCount (q i) r.1 i + 1 :=
    freeCount_cons hlt hout
  have hle := freeCount_le (blockAt r.1 i k :: q i) r.1 i
  have hinc : (word m₁ (r.1 + 8) + 1) % 2 ^ 32 = freeCount (blockAt r.1 i k :: q i) r.1 i := by
    rw [hcnt1 r hr i hk, hnew]
    omega
  generalize hc : freeCount (blockAt r.1 i k :: q i) r.1 i = c at *
  generalize hq1 : update q i (blockAt r.1 i k :: q i) = q₁ at *
  have hq1i : q₁ i = blockAt r.1 i k :: q i := by rw [← hq1, update_self]
  have hs2 := hs1.setCount hr hk c
  have hkeep2 : KeepsLive h.owned kind (live.erase (blockAt r.1 i k)) h.mem
      (setWord m₁ (r.1 + 8) c) := hkeep1.trans (hs1.setCount_keepsLive hr c)
  -- the counts of the other arenas do not change
  have hsame : ∀ r' ∈ h.owned, r' ≠ r → ∀ j, kind r'.1 = some j →
      freeCount (q₁ j) r'.1 j = freeCount (q j) r'.1 j := by
    intro r' hr' he j hj
    by_cases hji : j = i
    · subst hji
      rw [hq1i, hl.freeCount_other hr hr' he hk hj hlt]
    · rw [← hq1, update_of_ne hji]
  have hcount2 : Counts h.owned kind q₁ (setWord m₁ (r.1 + 8) c) := by
    intro r' hr' j hj
    by_cases he : r' = r
    · subst he
      rw [hk] at hj
      obtain rfl := Option.some.inj hj
      rw [word_setWord (by omega), hq1i, hc]
    · have hpg := hl.page r hr
      have hpg' := hl.page r' hr'
      rw [word_setWord_apart (by rcases hl.apart r' hr' r hr he with h | h <;> omega),
        hcnt1 r' hr' j hj, hsame r' hr' he j hj]
  have hother : ∀ r' ∈ h.owned, r' ≠ r → ∀ j, kind r'.1 = some j →
      freeCount (q₁ j) r'.1 j < arenaBlocks j := by
    intro r' hr' he j hj
    rw [hsame r' hr' he j hj]
    exact hi.used r' hr' j hj
  rw [hfree]
  unfold freeArena
  simp only [hinc, (hs2.data.desc i).2]
  by_cases hfull : arenaBlocks i ≤ c
  · have hcfull : c = arenaBlocks i := by omega
    obtain ⟨m₃, h', q', hrun3, hpalloc, hfreed⟩ := giveBack_spec hs2 hcount2 hr hk
      (by rw [hq1i, hc, hcfull]) hother
    rw [if_pos hfull, if_pos hcfull]
    refine ⟨h', q', ?_, ⟨hfreed.inv, hkeep2.trans hfreed.keeps, hfreed.blocks⟩⟩
    simp only [hrun3, bind_eq_bind, bind_some, hpalloc]
  · rw [if_neg hfull]
    refine ⟨_, _, rfl, ⟨⟨hs2, hcount2, fun r' hr' j hj => ?_⟩, hkeep2, fun _ _ _ hn => hn⟩⟩
    by_cases he : r' = r
    · subst he
      rw [hk] at hj
      obtain rfl := Option.some.inj hj
      rw [hq1i, hc]
      omega
    · exact hother r' hr' he j hj

/-- **`free` of a live block**: the assertions hold, and nobody else's block changes. -/
theorem free_spec (hp : p ∈ live) :
    ∃ h' q', Heap.free h p = some h' ∧ Freed descs h kind (live.erase p) h' q' := by
  obtain ⟨n, hn⟩ := hi.shape.isBlock p hp
  rcases hn with ⟨i, ⟨r, hr, hk, k, hlt, rfl⟩, -⟩ | ⟨cnt, ⟨r, hr, hk, rfl, -⟩, -⟩
  · exact freeSmall_spec hi hr hk hlt hp
  · obtain ⟨h', hrun, hfreed⟩ := freeBig_spec hi hr hk
    exact ⟨h', q, hrun, hfreed⟩

theorem blockSize_eq (hn : HeapBlock h.owned kind p n) : blockSize h.mem p = some n := by
  have hl := hi.shape.layout
  unfold blockSize
  rcases hn with ⟨i, ⟨r, hr, hk, k, hlt, rfl⟩, rfl⟩ | ⟨cnt, ⟨r, hr, hk, rfl, rfl⟩, rfl⟩
  · have hbase := hl.base.1
    have hd := (descAt_bounds descs i).1
    rw [hi.shape.data.blockToArena_small hl hr hk hlt]
    simp only [bind_eq_bind, bind_some, hi.shape.data.small r hr i hk,
      (hi.shape.data.desc i).1]
    rw [if_pos (by omega)]
  · have hp := hl.page r hr
    have hword := hi.shape.data.big r hr hk
    rw [hi.shape.data.blockToArena_big hl hr hk]
    simp only [bind_eq_bind, bind_some, hword.1, hword.2, ne_eq, not_true_eq_false,
      if_false]
    unfold arenaSize
    congr 1
    omega

/-! ## 4. `calloc` and `realloc` -/

/-- **`calloc`**, of a size that does not overflow: the new block is cleared. -/
theorem calloc_spec (grant : Option ℕ) (hsize : a * b % 2 ^ 32 + 12 ≤ 2 ^ 32) :
    Heap.calloc descs h a b grant = some (h, 0) ∨
      ∃ h' p kind' q' n, Heap.calloc descs h a b grant = some (h', p) ∧
        Malloced descs h kind live (a * b % 2 ^ 32) h' p kind' q' n := by
  unfold Heap.calloc
  simp only []
  split
  · exact .inl rfl
  · rcases malloc_spec hi (a * b % 2 ^ 32) grant with ⟨hnull, -⟩ | ⟨h', p, kind', q', n, hrun, hm⟩
    · refine .inl ?_
      rw [hnull]
      rfl
    · have hle := hm.provides.le hsize
      have hl := hm.inv.shape.layout
      have hfill : ∀ y, (∀ x ∈ [p], ∀ n, HeapBlock h'.owned kind' x n → y < x ∨ x + n ≤ y) →
          fill h'.mem p 0 (a * b % 2 ^ 32) y = h'.mem y := by
        intro y hy
        have hout := hy p mem_cons_self n hm.block
        exact fill_apart (by omega)
      refine .inr ⟨{ h' with mem := fill h'.mem p 0 (a * b % 2 ^ 32) }, p, kind', q', n, ?_, ?_⟩
      · rw [hrun]
        simp only [bind_eq_bind, bind_some]
        rw [if_pos hm.pos]
      · refine ⟨hm.inv.write (S := [p])
            (fun x hx => mem_singleton.mp hx ▸ mem_cons_self) hfill,
          hm.keeps.trans fun x hx n' hn' y h1 h2 => fill_apart ?_, hm.blocks, hm.block, hm.provides⟩
        have hne : x ≠ p := fun e => hm.fresh (e ▸ hx)
        rcases hl.block_apart (hm.blocks x n' hn') hm.block hne with h | h <;> omega

end

/-- **A successful `realloc`** of a live block: the new block starts with the contents of the old
    one, and the other blocks stay. -/
structure Realloced (descs : ℕ) (h : Heap) (kind : ℕ → Option (Fin 7)) (live : List ℕ)
    (old size : ℕ) (h' : Heap) (p : ℕ) (kind' : ℕ → Option (Fin 7)) (q' : Fin 7 → List ℕ) :
    Prop where
  inv : HeapInv descs h' kind' q' (p :: live.erase old)
  pos : p ≠ 0
  content : ∀ n, HeapBlock h.owned kind old n → ∀ j, j < n → j < size →
    h'.mem (p + j) = h.mem (old + j)

/-- **`realloc`** of a live block to a size that is not zero and does not overflow. -/
theorem realloc_spec (hi : HeapInv descs h kind q live) (grant : Option ℕ) (hold : old ∈ live)
    (hpos : size ≠ 0) (hsize : size + 12 ≤ 2 ^ 32) :
    Heap.realloc descs h old size grant = some (h, 0) ∨
      ∃ h' p kind' q', Heap.realloc descs h old size grant = some (h', p) ∧
        Realloced descs h kind live old size h' p kind' q' := by
  obtain ⟨n₀, hn0⟩ := hi.shape.isBlock old hold
  have hold0 : old ≠ 0 := by
    obtain ⟨r, -, h1, -, -⟩ := hi.shape.layout.block_bounds hn0
    omega
  unfold Heap.realloc
  rw [if_neg hpos]
  rcases malloc_spec hi size grant with ⟨hnull, -⟩ | ⟨h1, p, kind', q', n, hrun, hm⟩
  · refine .inl ?_
    rw [hnull]
    simp
  · have hne : p ≠ old := fun e => hm.fresh (e ▸ hold)
    have hb0 := hm.blocks old n₀ hn0
    have hle := hm.provides.le hsize
    generalize hmin : (if size < n₀ then size else n₀) = c
    have hc : c ≤ size ∧ c ≤ n₀ ∧ ∀ j, j < n₀ → j < size → j < c := by
      rw [← hmin]
      split <;> refine ⟨by omega, by omega, fun j h1 h2 => by omega⟩
    -- the copy stays inside the new block
    have hcopy : ∀ y, (∀ x ∈ [p], ∀ n, HeapBlock h1.owned kind' x n → y < x ∨ x + n ≤ y) →
        copy h1.mem p old c y = h1.mem y := by
      intro y hy
      have hout := hy p mem_cons_self n hm.block
      exact copy_apart (by omega)
    have hi2 := hm.inv.write (S := [p])
      (fun x hx => mem_singleton.mp hx ▸ mem_cons_self) hcopy
    obtain ⟨h3, q₃, hrun3, hfreed⟩ := free_spec hi2 (p := old) (mem_cons_of_mem p hold)
    have herase : (p :: live).erase old = p :: live.erase old :=
      erase_cons_tail (by simpa using hne)
    rw [herase] at hfreed
    refine .inr ⟨h3, p, kind', q₃, ?_, ⟨hfreed.inv, hm.pos, fun n' hn' j hj hjs => ?_⟩⟩
    · rw [hrun]
      simp only [bind_eq_bind, bind_some]
      rw [if_pos ⟨hold0, hm.pos⟩, blockSize_eq hm.inv hb0]
      simp only [bind_some, hmin, hrun3]
    · obtain rfl := hi.shape.layout.block_unique hn' hn0
      have hjc := hc.2.2 j hj hjs
      rw [hfreed.keeps p mem_cons_self n hm.block (p + j) (by omega) (by omega)]
      show copy h1.mem p old c (p + j) = _
      rw [copy_at hjc]
      exact hm.keeps old hold n' hn' (old + j) (by omega) (by omega)

end Pintos
