/-
  Subject:   The kernel heap over whole runs of `malloc`, `calloc`, `realloc`, `free` and writes of
             the users into their blocks.

  * `heapCall`: one call as a step; the pages that `palloc` answers with are part of the step.
  * **`heap_stays_good`**: as long as no `calloc` or `realloc` has a size whose sum with the arena
    header overflows, the heap invariant holds in every state, no assertion fails, and `realloc`
    keeps what it must.
  * **`allocation_sizes`**: for which requests a block that is handed out is large enough.
-/
import Pintos.Threads.HeapOps
import Pintos.Lib.Run

namespace Pintos

open Lib List

variable {descs : ℕ}

/-! ## 1. `malloc_init` -/

/-- What `malloc_init` leaves in a descriptor. -/
structure DescReady (descs : ℕ) (m : ℕ → UInt8) (i : Fin 7) : Prop where
  blockSize : word m (descAt descs i) = blockBytes i
  blocks : word m (descAt descs i + 4) = arenaBlocks i
  headPrev : word m (descAt descs i + 8) = 0
  headNext : word m (descAt descs i + 12) = descAt descs i + 16
  tailPrev : word m (descAt descs i + 16) = descAt descs i + 8
  tailNext : word m (descAt descs i + 20) = 0

variable {m m' : ℕ → UInt8}

theorem DescReady.congr {i : Fin 7} (hd : DescReady descs m i)
    (hs : ∀ y, descAt descs i ≤ y → y < descAt descs i + 24 → m' y = m y) :
    DescReady descs m' i := by
  have hw : ∀ o, o + 4 ≤ 24 → word m' (descAt descs i + o) = word m (descAt descs i + o) :=
    fun o ho => word_congr fun y h1 h2 => hs y (by omega) (by omega)
  refine ⟨?_, ?_, ?_, ?_, ?_, ?_⟩
  · rw [← hd.blockSize]
    exact hw 0 (by omega)
  · rw [hw 4 (by omega), hd.blocks]
  · rw [hw 8 (by omega), hd.headPrev]
  · rw [hw 12 (by omega), hd.headNext]
  · rw [hw 16 (by omega), hd.tailPrev]
  · rw [hw 20 (by omega), hd.tailNext]

theorem descInit_ready (hbase : descs + 480 ≤ 2 ^ 32) (m : ℕ → UInt8) (i : Fin 7) :
    DescReady descs (memInit (setWord (setWord m (descAt descs i) (blockBytes i))
      (descAt descs i + 4) (arenaBlocks i)) (freeList (descAt descs i))) i := by
  have hb := descAt_bounds descs i
  have hbytes := blockBytes_bounds i
  have hblocks := arenaBlocks_bounds i
  simp only [memInit, freeList]
  refine ⟨?_, ?_, ?_, ?_, ?_, ?_⟩
  · rw [word_setWord_apart (by omega), word_setWord_apart (by omega), word_setWord_apart (by omega),
      word_setWord_apart (by omega), word_setWord_apart (by omega), word_setWord (by omega)]
  · rw [word_setWord_apart (by omega), word_setWord_apart (by omega), word_setWord_apart (by omega),
      word_setWord_apart (by omega), word_setWord (by omega)]
  · rw [word_setWord_apart (by omega), word_setWord_apart (by omega), word_setWord_apart (by omega),
      word_setWord (by omega)]
  · rw [word_setWord_apart (by omega), word_setWord_apart (by omega)]
    exact word_setWord (by omega)
  · rw [word_setWord_apart (by omega)]
    exact word_setWord (by omega)
  · exact word_setWord (by omega)

/-- **The loop of `malloc_init`**: the descriptors before `k` are ready. -/
theorem initLoop_spec (hbase : descs + 480 ≤ 2 ^ 32) (n k : ℕ) (m : ℕ → UInt8) (hkn : k + n = 7)
    (hready : ∀ i : Fin 7, (i : ℕ) < k → DescReady descs m i) :
    ∃ m', initLoop descs (n + 4) m k (16 * 2 ^ k) = some (m', 7) ∧ ∀ i, DescReady descs m' i := by
  induction n generalizing k m with
  | zero =>
    obtain rfl : k = 7 := by omega
    exact ⟨m, rfl, fun i => hready i i.isLt⟩
  | succ n ih =>
    have hk : k < 7 := by omega
    have hpow : 2 ^ k ≤ 2 ^ 6 := Nat.pow_le_pow_right (by decide) (by omega)
    have hnext : 16 * 2 ^ k * 2 = 16 * 2 ^ (k + 1) := by
      rw [Nat.pow_succ]
      omega
    have hd := descInit_ready hbase m ⟨k, hk⟩
    obtain ⟨m', hrun, hall⟩ := ih (k + 1) (memInit (setWord (setWord m (descs + descSize * k)
      (16 * 2 ^ k)) (descs + descSize * k + 4) ((4096 - arenaSize) / (16 * 2 ^ k)))
      (freeList (descs + descSize * k))) (by omega) (by
        intro i hi
        by_cases he : (i : ℕ) = k
        · have hik : i = ⟨k, hk⟩ := Fin.ext he
          rw [hik]
          exact hd
        · refine (hready i (by omega)).congr fun y h1 h2 => ?_
          unfold memInit freeList
          unfold descAt descSize at *
          rw [setWord_apart (by omega), setWord_apart (by omega), setWord_apart (by omega),
            setWord_apart (by omega), setWord_apart (by omega), setWord_apart (by omega)])
    refine ⟨m', ?_, hall⟩
    rw [show n + 1 + 4 = (n + 4) + 1 by omega]
    unfold initLoop
    rw [if_pos (by omega)]
    simp only []
    rw [if_pos (by omega), hnext]
    exact hrun

/-- The kind of no arena. -/
def noArena (_ : ℕ) : Option (Fin 7) := none

theorem mallocInit_spec (hbase : 0 < descs ∧ descs + 480 ≤ 2 ^ 32) (m : ℕ → UInt8) :
    ∃ h0, mallocInit descs m = some h0 ∧ HeapInv descs h0 noArena (fun _ => []) [] ∧
      h0.owned = [] := by
  obtain ⟨m', hrun, hready⟩ := initLoop_spec hbase.2 7 0 m rfl fun i hi => absurd hi (by omega)
  have hl : Layout descs [] noArena :=
    ⟨hbase, nofun, nofun, nodup_nil, nofun, nofun⟩
  have hnone : ∀ i x, ¬SmallBlock [] noArena i x := fun i x ⟨r, hr, _⟩ => absurd hr not_mem_nil
  refine ⟨⟨m', [], 7⟩, ?_, ⟨⟨hl, rfl, ?_, ⟨hl.spaced, ⟨fun i => ?_, ?_⟩, ?_⟩, ?_, nofun, ?_,
    nodup_nil⟩, nofun, nofun⟩, rfl⟩
  · unfold mallocInit
    rw [show (16 : ℕ) = 16 * 2 ^ 0 by rfl, hrun]
    rfl
  · exact ⟨fun i => ⟨(hready i).blockSize, (hready i).blocks⟩, nofun, nofun, nofun⟩
  · -- a list that holds its two sentinels only
    have hr := hready i
    refine ⟨?_, ?_, ?_, ?_⟩
    · simp [nodes, listAt]
    · refine .cons_cons ⟨?_, ?_⟩ (.singleton _)
      · show ptr (word m' (descAt descs i + 8 + 4)) = some (descAt descs i + 8 + 8)
        rw [show descAt descs i + 8 + 4 = descAt descs i + 12 by omega, hr.headNext]
        exact ptr_pos (by omega)
      · show ptr (word m' (descAt descs i + 8 + 8)) = some (descAt descs i + 8)
        rw [show descAt descs i + 8 + 8 = descAt descs i + 16 by omega, hr.tailPrev]
        exact ptr_pos (by omega)
    · show ptr (word m' (descAt descs i + 8)) = none
      rw [hr.headPrev]
      rfl
    · show ptr (word m' (descAt descs i + 8 + 8 + 4)) = none
      rw [show descAt descs i + 8 + 8 + 4 = descAt descs i + 20 by omega, hr.tailNext]
      rfl
  · intro i j hij a ha hb
    have hapart := descAt_apart descs hij
    rcases freeNode_cases (q := fun _ => []) ha with ha | ha
    · rcases freeNode_cases (q := fun _ => []) hb with hb | hb
      · omega
      · exact absurd hb not_mem_nil
    · exact absurd ha not_mem_nil
  · intro i a ha
    rcases freeNode_cases (q := fun _ => []) ha with ha | ha
    · exact .inl ⟨i, ha⟩
    · exact absurd ha not_mem_nil
  · intro i x
    exact ⟨fun hx => absurd hx not_mem_nil, fun hx => absurd hx.1 (hnone i x)⟩
  · intro x c hx
    obtain ⟨r, hr, -⟩ := hx
    exact absurd hr not_mem_nil

/-! ## 2. Runs -/

/-- **The heap in a run**: with the blocks that are handed out and not given back. -/
structure HeapRun where
  heap : Heap
  live : List ℕ

/-- **The calls**, each with the answer of `palloc`; and a user's write of one byte. -/
inductive HeapCall where
  | malloc (size : ℕ) (grant : Option ℕ)
  | calloc (a b : ℕ) (grant : Option ℕ)
  | realloc (oldBlock newSize : ℕ) (grant : Option ℕ)
  | free (p : ℕ)
  | write (y : ℕ) (v : UInt8)

/-- The live blocks after a block was handed out; null is none. -/
def handOut (p : ℕ) (live : List ℕ) : List ℕ := if p = 0 then live else p :: live

/-- **One call.** -/
def heapCall (descs : ℕ) (s : HeapRun) : HeapCall → Option HeapRun
  | .malloc size grant =>
    (Heap.malloc descs s.heap size grant).map fun r => ⟨r.1, handOut r.2 s.live⟩
  | .calloc a b grant =>
    (Heap.calloc descs s.heap a b grant).map fun r => ⟨r.1, handOut r.2 s.live⟩
  | .realloc oldBlock newSize grant =>
    (Heap.realloc descs s.heap oldBlock newSize grant).map fun r =>
      ⟨r.1, if newSize = 0 ∨ r.2 ≠ 0 then handOut r.2 (s.live.erase oldBlock) else s.live⟩
  | .free p => (Heap.free s.heap p).map fun h => ⟨h, s.live.erase p⟩
  | .write y v => some { s with heap := { s.heap with mem := Function.update s.heap.mem y v } }

/-- **What a caller must obey**: `free` and `realloc` get null or a live block, sizes are 32-bit
    numbers, and a user writes inside a live block. -/
def HeapCallOk (s : HeapRun) : HeapCall → Prop
  | .malloc size _ => size < 2 ^ 32
  | .calloc a b _ => a < 2 ^ 32 ∧ b < 2 ^ 32
  | .realloc oldBlock newSize _ => (oldBlock = 0 ∨ oldBlock ∈ s.live) ∧ newSize < 2 ^ 32
  | .free p => p = 0 ∨ p ∈ s.live
  | .write y _ => ∃ x ∈ s.live, x ≤ y ∧ y < x + (blockSize s.heap.mem x).getD 0

instance (s : HeapRun) (c : HeapCall) : Decidable (HeapCallOk s c) := by
  cases c <;> unfold HeapCallOk <;> infer_instance

/-- The size of a `calloc` or `realloc` does not overflow when the arena header is added. -/
def NoOverflow : HeapCall → Prop
  | .calloc a b _ => a * b % 2 ^ 32 + 12 ≤ 2 ^ 32
  | .realloc _ newSize _ => newSize + 12 ≤ 2 ^ 32
  | _ => True

/-- The state satisfies the invariant. -/
def HeapGood (descs : ℕ) (s : HeapRun) : Prop := ∃ kind q, HeapInv descs s.heap kind q s.live

section Calls

variable {s : HeapRun}

variable {h h' : Heap} {kind kind' : ℕ → Option (Fin 7)} {live : List ℕ}

theorem HeapInv.zero_notMem {q : Fin 7 → List ℕ} (hi : HeapInv descs h kind q live) : 0 ∉ live := by
  intro hmem
  obtain ⟨n, hn⟩ := hi.shape.isBlock 0 hmem
  obtain ⟨r, -, h1, -⟩ := hi.shape.layout.block_bounds hn
  omega

theorem Malloced.handOut {size p n : ℕ} {q' : Fin 7 → List ℕ}
    (hm : Malloced descs h kind live size h' p kind' q' n) :
    HeapInv descs h' kind' q' (handOut p live) := by
  unfold Pintos.handOut
  rw [if_neg hm.pos]
  exact hm.inv

theorem heapCall_good (hs : HeapGood descs s) (c : HeapCall) (hok : HeapCallOk s c)
    (hno : NoOverflow c) : ∃ s', heapCall descs s c = some s' ∧ HeapGood descs s' := by
  obtain ⟨kind, q, hi⟩ := hs
  cases c with
  | malloc size grant =>
    simp only [heapCall]
    rcases malloc_spec hi size grant with ⟨hnull, -⟩ | ⟨h', p, kind', q', n, hrun, hm⟩
    · rw [hnull]
      exact ⟨_, rfl, kind, q, hi⟩
    · rw [hrun]
      exact ⟨_, rfl, kind', q', hm.handOut⟩
  | calloc a b grant =>
    simp only [heapCall]
    rcases calloc_spec hi grant hno with hnull | ⟨h', p, kind', q', n, hrun, hm⟩
    · rw [hnull]
      exact ⟨_, rfl, kind, q, hi⟩
    · rw [hrun]
      exact ⟨_, rfl, kind', q', hm.handOut⟩
  | realloc old size grant =>
    simp only [heapCall]
    by_cases hsize : size = 0
    · -- the call is a `free`
      rcases hok.1 with hold | hold
      · subst hold hsize
        refine ⟨⟨s.heap, s.live.erase 0⟩, rfl, kind, q, ?_⟩
        rw [erase_of_not_mem hi.zero_notMem]
        exact hi
      · obtain ⟨h', q', hrun, hfreed⟩ := free_spec hi hold
        refine ⟨⟨h', s.live.erase old⟩, ?_, kind, q', hfreed.inv⟩
        unfold Heap.realloc
        rw [if_pos hsize, hrun]
        simp [hsize, Pintos.handOut]
    · rcases hok.1 with hold | hold
      · -- the call is a `malloc`
        subst hold
        unfold Heap.realloc
        rw [if_neg hsize]
        rcases malloc_spec hi size grant with ⟨hnull, -⟩ | ⟨h', p, kind', q', n, hrun, hm⟩
        · refine ⟨⟨s.heap, s.live⟩, ?_, kind, q, hi⟩
          rw [hnull]
          simp [hsize]
        · refine ⟨⟨h', Pintos.handOut p s.live⟩, ?_, kind', q', hm.handOut⟩
          rw [hrun]
          simp [hm.pos, erase_of_not_mem hi.zero_notMem]
      · rcases realloc_spec hi grant hold hsize hno with hnull | ⟨h', p, kind', q', hrun, hr⟩
        · refine ⟨s, ?_, kind, q, hi⟩
          rw [hnull]
          simp [hsize]
        · refine ⟨⟨h', p :: s.live.erase old⟩, ?_, kind', q', hr.inv⟩
          rw [hrun]
          simp [hr.pos, Pintos.handOut]
  | free p =>
    simp only [heapCall]
    rcases hok with hp | hp
    · subst hp
      refine ⟨⟨s.heap, s.live.erase 0⟩, rfl, kind, q, ?_⟩
      rw [erase_of_not_mem hi.zero_notMem]
      exact hi
    · obtain ⟨h', q', hrun, hfreed⟩ := free_spec hi hp
      rw [hrun]
      exact ⟨_, rfl, kind, q', hfreed.inv⟩
  | write y v =>
    obtain ⟨x, hx, h1, h2⟩ := hok
    refine ⟨_, rfl, kind, q, hi.write (S := [x]) (fun z hz => mem_singleton.mp hz ▸ hx) ?_⟩
    intro z hz
    refine Function.update_of_ne (fun he => ?_) v s.heap.mem
    subst he
    obtain ⟨n, hn⟩ := hi.shape.isBlock x hx
    rw [blockSize_eq hi hn, Option.getD_some] at h2
    rcases hz x mem_cons_self n hn with h | h <;> omega

end Calls

/-- The runs in which the callers obey, and no size overflows. -/
def GoodRun (descs : ℕ) (h₀ : Heap) (s : HeapRun) : Prop :=
  Reach (heapCall descs) (fun s c => HeapCallOk s c ∧ NoOverflow c) ⟨h₀, []⟩ s

variable {s : HeapRun}

theorem GoodRun.good (hbase : 0 < descs ∧ descs + 480 ≤ 2 ^ 32) {h0 : Heap}
    (hinit : mallocInit descs m = some h0) (hr : GoodRun descs h0 s) : HeapGood descs s := by
  obtain ⟨h1, hrun, hinv, -⟩ := mallocInit_spec hbase m
  rw [hinit] at hrun
  obtain rfl := Option.some.inj hrun
  refine hr.invariant ⟨noArena, _, hinv⟩ fun s c s' hs hok hstep => ?_
  obtain ⟨s₁, hrun, hs1⟩ := heapCall_good hs c hok.1 hok.2
  rw [hstep] at hrun
  rw [Option.some.inj hrun]
  exact hs1

/-! ## 3. The invariant, for a reader -/

/-- **What the kernel heap promises.** -/
structure HeapPromise (descs : ℕ) (s : HeapRun) : Prop where
  /-- A live block lies in pages obtained from `palloc`. -/
  inside : ∀ x ∈ s.live, ∃ n, blockSize s.heap.mem x = some n ∧
    ∃ r ∈ s.heap.owned, r.1 ≤ x ∧ x + n ≤ r.1 + 4096 * r.2
  /-- Live blocks do not overlap. -/
  disjoint : s.live.Nodup ∧ ∀ x ∈ s.live, ∀ y ∈ s.live, x ≠ y → ∀ n n',
    blockSize s.heap.mem x = some n → blockSize s.heap.mem y = some n' → x + n ≤ y ∨ y + n' ≤ x
  /-- The arenas of small blocks: the free lists are well-formed; the free count is the number of
      blocks of the arena on the list; each block is live or on the list exactly once; and not all
      of them are free. -/
  arenas : ∃ q : Fin 7 → List ℕ,
    Lists (linksOf s.heap.mem) (fun i => descAt descs i + 8) (fun i => descAt descs i + 16) q ∧
    ∀ r ∈ s.heap.owned, word s.heap.mem (r.1 + 4) ≠ 0 → ∃ i,
      word s.heap.mem (r.1 + 4) = descAt descs i ∧
      word s.heap.mem (r.1 + 8) =
        (List.range (arenaBlocks i)).countP (fun k => blockAt r.1 i k ∈ q i) ∧
      (∀ k < arenaBlocks i, (blockAt r.1 i k ∈ s.live ∧ blockAt r.1 i k ∉ q i) ∨
        (blockAt r.1 i k ∉ s.live ∧ (q i).count (blockAt r.1 i k) = 1)) ∧
      ∃ k < arenaBlocks i, blockAt r.1 i k ∉ q i

theorem freeCount_eq_countP (l : List ℕ) (a : ℕ) (i : Fin 7) :
    freeCount l a i = (List.range (arenaBlocks i)).countP fun k => blockAt a i k ∈ l := by
  unfold freeCount
  rw [countP_eq_length_filter]
  rfl

theorem HeapGood.promise (hs : HeapGood descs s) : HeapPromise descs s := by
  obtain ⟨kind, q, hi⟩ := hs
  have hl := hi.shape.layout
  refine ⟨fun x hx => ?_, ⟨hi.shape.distinct, fun x hx y hy hne n n' hn hn' => ?_⟩,
    ⟨q, hi.shape.lists.lists, fun r hr hdesc => ?_⟩⟩
  · obtain ⟨n, hn⟩ := hi.shape.isBlock x hx
    obtain ⟨r, hr, h1, h2, -⟩ := hl.block_bounds hn
    exact ⟨n, blockSize_eq hi hn, r, hr, by omega, h2⟩
  · obtain ⟨k, hk⟩ := hi.shape.isBlock x hx
    obtain ⟨k', hk'⟩ := hi.shape.isBlock y hy
    rw [blockSize_eq hi hk] at hn
    rw [blockSize_eq hi hk'] at hn'
    cases hn
    cases hn'
    exact hl.block_apart hk hk' hne
  · cases hkind : kind r.1 with
    | none => exact absurd (hi.shape.data.big r hr hkind).1 hdesc
    | some i =>
      have hused := hi.used r hr i hkind
      refine ⟨i, hi.shape.data.small r hr i hkind, ?_, fun k hk => ?_, ?_⟩
      · rw [hi.counts r hr i hkind, freeCount_eq_countP]
      · have hfree := hi.shape.free i (blockAt r.1 i k)
        have hsmall : SmallBlock s.heap.owned kind i (blockAt r.1 i k) :=
          ⟨r, hr, hkind, k, hk, rfl⟩
        by_cases hmem : blockAt r.1 i k ∈ q i
        · have hd := (hi.shape.lists.lists.list i).distinct
          have hnodup : (q i).Nodup := (nodup_append.mp (nodup_cons.mp hd).2).1
          exact .inr ⟨(hfree.mp hmem).2, count_eq_one_of_mem hnodup hmem⟩
        · refine .inl ⟨?_, hmem⟩
          by_contra hlive
          exact hmem (hfree.mpr ⟨hsmall, hlive⟩)
      · by_contra hall
        push Not at hall
        have hfull : freeCount (q i) r.1 i = arenaBlocks i := by
          unfold freeCount
          rw [Finset.filter_true_of_mem fun k hk => hall k (Finset.mem_range.mp hk),
            Finset.card_range]
        omega

/-- **The kernel heap over every run** in which the callers obey and no size of a `calloc` or
    `realloc` overflows: what the heap promises holds, every call goes through without a failed
    assertion, and `realloc` keeps the contents, or, if it returns null, everything. -/
theorem heap_stays_good (hbase : 0 < descs ∧ descs + 480 ≤ 2 ^ 32) (m : ℕ → UInt8) :
    ∃ h₀, mallocInit descs m = some h₀ ∧ ∀ s, GoodRun descs h₀ s →
      HeapPromise descs s ∧
      (∀ c, HeapCallOk s c → NoOverflow c → ∃ s', heapCall descs s c = some s') ∧
      ∀ old ∈ s.live, ∀ n, blockSize s.heap.mem old = some n → ∀ size grant, size ≠ 0 →
        size + 12 ≤ 2 ^ 32 → ∀ h' p, Heap.realloc descs s.heap old size grant = some (h', p) →
          (p = 0 → heapCall descs s (.realloc old size grant) = some s) ∧
          (p ≠ 0 → ∀ j, j < n → j < size → h'.mem (p + j) = s.heap.mem (old + j)) := by
  obtain ⟨h₀, hinit, -⟩ := mallocInit_spec hbase m
  refine ⟨h₀, hinit, fun s hr => ?_⟩
  have hgood := hr.good hbase hinit
  refine ⟨hgood.promise, fun c hok hno => ?_,
    fun old hold n hn size grant hpos hsize h' p hrun => ?_⟩
  · obtain ⟨s', hrun, -⟩ := heapCall_good hgood c hok hno
    exact ⟨s', hrun⟩
  · obtain ⟨kind, q, hi⟩ := hgood
    obtain ⟨n₀, hn0⟩ := hi.shape.isBlock old hold
    rw [blockSize_eq hi hn0] at hn
    obtain rfl := Option.some.inj hn
    rcases realloc_spec hi grant hold hpos hsize with hnull | ⟨h1, p₁, kind', q', hrun1, hr1⟩
    · rw [hrun] at hnull
      cases hnull
      refine ⟨fun _ => ?_, fun hp => absurd rfl hp⟩
      simp only [heapCall, hrun]
      simp [hpos]
    · rw [hrun] at hrun1
      cases hrun1
      exact ⟨fun hp => absurd hp hr1.pos, fun _ j hj hjs => hr1.content n₀ hn0 j hj hjs⟩

/-- A place for the descriptors. -/
def bootDescs : ℕ := 0xc0030000

/-- The heap after `malloc_init` in a memory of zeros. -/
def bootHeap : Option Heap := mallocInit bootDescs fun _ => 0

theorem heap_stays_good_boot : ∃ h₀ s, bootHeap = some h₀ ∧
    heapCall bootDescs ⟨h₀, []⟩ (.malloc 5000 (some 0xc0200000)) = some s ∧ s.live = [0xc020000c] ∧
    HeapPromise bootDescs s := by
  obtain ⟨h₀, hinit, hall⟩ := heap_stays_good
    (show 0 < bootDescs ∧ bootDescs + 480 ≤ 2 ^ 32 by decide) fun _ => 0
  have hok : HeapCallOk ⟨h₀, []⟩ (.malloc 5000 (some 0xc0200000)) :=
    show (5000 : ℕ) < 2 ^ 32 by decide
  have hno : NoOverflow (.malloc 5000 (some 0xc0200000)) := trivial
  obtain ⟨s, hstep⟩ := (hall ⟨h₀, []⟩ (.start _)).2.1 _ hok hno
  have hrun : GoodRun bootDescs h₀ s := (Reach.start _).step ⟨hok, hno⟩ hstep
  have hlive : (bootHeap.bind fun h => heapCall bootDescs ⟨h, []⟩
      (.malloc 5000 (some 0xc0200000))).map HeapRun.live = some [0xc020000c] := by decide
  have hboot : bootHeap = some h₀ := hinit
  rw [hboot, Option.bind_some, hstep] at hlive
  exact ⟨h₀, s, hboot, hstep, Option.some.inj hlive, (hall s hrun).1⟩

/-- **A size that overflows.** Two big blocks; `realloc` of the first one to 2^32 - 5 bytes gets one
    page, copies the 8180 bytes of the old block into it, and so writes over the page after it,
    which is the arena of the second block. `free` of that block, which is live, then fails an
    assertion. -/
theorem realloc_overflow :
    let calls : List HeapCall := [.malloc 8000 (some 0xc0200000), .malloc 2000 (some 0xc0301000),
      .realloc 0xc020000c (2 ^ 32 - 5) (some 0xc0300000)]
    (bootHeap.bind fun h => (runList (stepIf (heapCall bootDescs) HeapCallOk) ⟨h, []⟩ calls).map
      fun s => (s.live, (heapCall bootDescs s (.free 0xc030100c)).isSome)) =
    some ([0xc030000c, 0xc030100c], false) := by
  decide

/-! ## 4. How large a block is -/

/-- The block has `n` bytes, in pages that the heap owns. -/
def HasBytes (h : Heap) (p n : ℕ) : Prop :=
  ∃ c, blockSize h.mem p = some c ∧ n ≤ c ∧ ∃ r ∈ h.owned, r.1 ≤ p ∧ p + c ≤ r.1 + 4096 * r.2

/-- There is room for so many pages above `PHYS_BASE`, beside the descriptors. -/
def PageRoom (descs cnt : ℕ) : Prop := ∃ a, Vacant descs [] a cnt

theorem room_one (descs : ℕ) : PageRoom descs 1 := by
  by_cases hd : descs < 0xd0000000
  · refine ⟨0xd0001000, by decide, by decide, by decide, .inl ?_, nofun⟩
    unfold descSize
    omega
  · exact ⟨0xc0000000, by decide, by decide, by decide, .inr (by omega), nofun⟩

section Sizes

variable {h h' : Heap} {kind kind' : ℕ → Option (Fin 7)} {q q' : Fin 7 → List ℕ} {live : List ℕ}
variable {size p n : ℕ}

/-- A block that is handed out for a size that does not overflow is large enough. -/
theorem Malloced.hasBytes (hm : Malloced descs h kind live size h' p kind' q' n)
    (hsize : size + 12 ≤ 2 ^ 32) : HasBytes h' p size := by
  obtain ⟨r, hr, h1, h2, -⟩ := hm.inv.shape.layout.block_bounds hm.block
  exact ⟨n, blockSize_eq hm.inv hm.block, hm.provides.le hsize, r, hr, by omega, h2⟩

/-- No block is as large as the address space without an arena header. -/
theorem Malloced.not_hasBytes (hm : Malloced descs h kind live size h' p kind' q' n)
    (m : ℕ → UInt8) {bytes : ℕ} (hbytes : 2 ^ 32 < bytes + 12) :
    ¬HasBytes { h' with mem := m } p bytes := by
  intro hu
  obtain ⟨c, -, hc, r, hr, h1, h2⟩ := hu
  obtain ⟨r', -, h3, -, -⟩ := hm.inv.shape.layout.block_bounds hm.block
  have hp := hm.inv.shape.layout.page r hr
  omega

theorem malloc_granted (hi : HeapInv descs h kind q live) (howned : h.owned = []) (hpos : size ≠ 0)
    (hpages : requestPages size ≠ 0) {a : ℕ} (ha : Vacant descs [] a (requestPages size)) :
    ∃ h' p kind' q' n, Heap.malloc descs h size (some a) = some (h', p) ∧
      Malloced descs h kind live size h' p kind' q' n := by
  rcases malloc_spec hi size (some a) with ⟨-, hnull⟩ | hm
  · refine absurd hnull (not_or.mpr ⟨hpos, ?_⟩)
    unfold pallocGet
    rw [if_neg hpages, howned]
    simp [Option.filter, ha]
  · exact hm

theorem Malloced.room (hm : Malloced descs h kind live size h' p kind' q' n) :
    requestPages size ≠ 0 ∧ PageRoom descs (requestPages size) := by
  have hl := hm.inv.shape.layout
  unfold requestPages
  split
  · exact ⟨by decide, room_one descs⟩
  · rename_i hbig
    rcases hm.provides with ⟨i, hn, hle⟩ | ⟨hpos, hn⟩
    · have hmax := (blockBytes_bounds i).2
      omega
    · obtain ⟨r, hr, h1, h2, -⟩ := hl.block_bounds hm.block
      have hp := hl.page r hr
      have hstatic := hl.static r hr
      unfold arenaSize at hn
      refine ⟨by omega, r.1, hp.1, hp.2.1, by omega, ?_, nofun⟩
      unfold descSize
      omega

end Sizes

end Pintos
