/-
  Subject:   Heapsort on implicit heaps with indices from 1.

  An array is a function `f : ℕ → α`, of which the values at `1 .. n` count; the children of `k` are
  `2 * k` and `2 * k + 1`. The order is given by the comparison `gt`, "greater".

  `HeapBut` is a heap with one element that may be too small for its place, which is what `siftDown`
  moves; `Extracted` is the invariant of `heapExtract`.
-/
import Mathlib.Tactic.Linarith
import Mathlib.Data.List.Nodup

namespace Pintos.Lib

variable {α : Type*}

/-! ## 1. The algorithm -/

/-- The comparison "greater" of a total preorder: `gt a b = false` says that `a` is at most `b`. -/
structure TotalPreorder (gt : α → α → Bool) : Prop where
  asymm : ∀ a b, gt a b = true → gt b a = false
  trans : ∀ a b c, gt a b = false → gt b c = false → gt a c = false

section Algorithm

variable (gt : α → α → Bool)

/-- The index of the larger of two elements; the second one may lie behind the end. -/
def larger (f : ℕ → α) (cnt m c : ℕ) : ℕ := if c ≤ cnt ∧ gt (f c) (f m) = true then c else m

/-- The index of the largest element among `i` and its children. -/
def largest (f : ℕ → α) (cnt i : ℕ) : ℕ :=
  larger gt f cnt (larger gt f cnt i (2 * i)) (2 * i + 1)

/-- Float the element at `i` down. -/
def siftDown (cnt : ℕ) : ℕ → ℕ → (ℕ → α) → Option (ℕ → α)
  | 0, _, _ => none
  | fuel + 1, i, f =>
    if largest gt f cnt i = i then some f
    else siftDown cnt fuel (largest gt f cnt i) (f ∘ Equiv.swap i (largest gt f cnt i))

/-- Float down the elements at `i`, `i - 1`, …, 1. -/
def heapBuild (cnt fuel : ℕ) : ℕ → (ℕ → α) → Option (ℕ → α)
  | 0, f => some f
  | i + 1, f => (siftDown gt cnt fuel (i + 1) f).bind (heapBuild cnt fuel i)

/-- Swap the root with the last element of the heap `1 .. i`, and make a heap of the others. -/
def heapExtract (fuel : ℕ) : ℕ → (ℕ → α) → Option (ℕ → α)
  | 0, f => some f
  | 1, f => some f
  | i + 2, f =>
    (siftDown gt (i + 1) fuel 1 (f ∘ Equiv.swap 1 (i + 2))).bind (heapExtract fuel (i + 1))

def heapSort (cnt fuel : ℕ) (f : ℕ → α) : Option (ℕ → α) :=
  (heapBuild gt cnt fuel (cnt / 2) f).bind (heapExtract gt fuel cnt)

end Algorithm

/-! ## 2. Changing places -/

/-- **The values at `1 .. n` have changed places**, and no other value has moved. -/
def Rearranged (n : ℕ) (f f' : ℕ → α) : Prop :=
  ∃ σ : Equiv.Perm ℕ, (∀ k, k = 0 ∨ n < k → σ k = k) ∧ f' = f ∘ σ

variable {j k : ℕ}

namespace Rearranged

variable {n m : ℕ} {f f' f'' : ℕ → α}

theorem refl (n : ℕ) (f : ℕ → α) : Rearranged n f f := ⟨Equiv.refl ℕ, fun _ _ => rfl, rfl⟩

theorem trans (h : Rearranged n f f') (h' : Rearranged n f' f'') : Rearranged n f f'' := by
  obtain ⟨σ, hσ, rfl⟩ := h
  obtain ⟨τ, hτ, rfl⟩ := h'
  refine ⟨τ.trans σ, fun k hk => ?_, rfl⟩
  show σ (τ k) = k
  rw [hτ k hk, hσ k hk]

theorem mono (h : Rearranged n f f') (hnm : n ≤ m) : Rearranged m f f' := by
  obtain ⟨σ, hσ, he⟩ := h
  exact ⟨σ, fun k hk => hσ k (by omega), he⟩

theorem swap (f : ℕ → α) {i : ℕ} (hi : 1 ≤ i) (hin : i ≤ n) (hj : 1 ≤ j) (hjn : j ≤ n) :
    Rearranged n f (f ∘ Equiv.swap i j) :=
  ⟨Equiv.swap i j, fun k hk => Equiv.swap_apply_of_ne_of_ne (by omega) (by omega), rfl⟩

theorem outside (h : Rearranged n f f') (hk : k = 0 ∨ n < k) : f' k = f k := by
  obtain ⟨σ, hσ, rfl⟩ := h
  exact congrArg f (hσ k hk)

theorem perm_inside {σ : Equiv.Perm ℕ} (hσ : ∀ k, k = 0 ∨ n < k → σ k = k) (hk : 1 ≤ k ∧ k ≤ n) :
    1 ≤ σ k ∧ σ k ≤ n := by
  by_contra hc
  have hfix : σ (σ k) = σ k := hσ (σ k) (by omega)
  have hsame : σ k = k := σ.injective hfix
  omega

/-- Every value comes from somewhere inside. -/
theorem inside (h : Rearranged n f f') (hk : 1 ≤ k ∧ k ≤ n) :
    ∃ j, (1 ≤ j ∧ j ≤ n) ∧ f' k = f j := by
  obtain ⟨σ, hσ, rfl⟩ := h
  exact ⟨σ k, perm_inside hσ hk, rfl⟩

theorem perm (h : Rearranged n f f') :
    ((List.range' 1 n).map f').Perm ((List.range' 1 n).map f) := by
  obtain ⟨σ, hσ, rfl⟩ := h
  rw [← List.map_map]
  refine List.Perm.map f ?_
  have hnd : ((List.range' 1 n).map σ).Nodup := List.Nodup.map σ.injective List.nodup_range'
  refine (List.perm_ext_iff_of_nodup hnd List.nodup_range').mpr fun x => ?_
  rw [List.mem_map, List.mem_range'_1]
  constructor
  · intro hx
    obtain ⟨k, hk, rfl⟩ := hx
    rw [List.mem_range'_1] at hk
    have hin := perm_inside hσ (k := k) (by omega)
    omega
  · intro hx
    refine ⟨σ.symm x, ?_, σ.apply_symm_apply x⟩
    rw [List.mem_range'_1]
    by_contra hc
    have hfix := hσ (σ.symm x) (by omega)
    rw [σ.apply_symm_apply] at hfix
    omega

end Rearranged

/-! ## 3. Floating down -/

/-- The part of `1 .. cnt` below `lo` is a heap: every parent from `lo` on is at least its
    children. -/
def HeapFrom (gt : α → α → Bool) (f : ℕ → α) (lo cnt : ℕ) : Prop :=
  ∀ k, lo ≤ k / 2 → k ≤ cnt → gt (f k) (f (k / 2)) = false

/-- **A heap but for the element at `i`**, which may be smaller than its children; the children fit
    below its parent. -/
structure HeapBut (gt : α → α → Bool) (f : ℕ → α) (lo cnt i : ℕ) : Prop where
  pair : ∀ k, lo ≤ k / 2 → k ≤ cnt → k / 2 ≠ i → gt (f k) (f (k / 2)) = false
  grand : ∀ k, k / 2 = i → k ≤ cnt → lo ≤ i / 2 → gt (f k) (f (i / 2)) = false

section Sift

variable {gt : α → α → Bool} {f : ℕ → α} {lo cnt i m c fuel : ℕ}

theorem TotalPreorder.refl (ho : TotalPreorder gt) (a : α) : gt a a = false := by
  cases h : gt a a with
  | false => rfl
  | true => exact h.symm.trans (ho.asymm a a h)

theorem larger_cases (gt : α → α → Bool) (f : ℕ → α) (cnt m c : ℕ) :
    larger gt f cnt m c = m ∨ larger gt f cnt m c = c ∧ c ≤ cnt := by
  unfold larger
  split
  · rename_i h
    exact .inr ⟨rfl, h.1⟩
  · exact .inl rfl

theorem larger_left (ho : TotalPreorder gt) : gt (f m) (f (larger gt f cnt m c)) = false := by
  unfold larger
  split
  · rename_i h
    exact ho.asymm _ _ h.2
  · exact ho.refl _

theorem larger_right (ho : TotalPreorder gt) (hc : c ≤ cnt) :
    gt (f c) (f (larger gt f cnt m c)) = false := by
  unfold larger
  split
  · exact ho.refl _
  · rename_i h
    exact Bool.eq_false_iff.mpr fun hgt => h ⟨hc, hgt⟩

theorem largest_cases (gt : α → α → Bool) (f : ℕ → α) (cnt i : ℕ) :
    largest gt f cnt i = i ∨ largest gt f cnt i / 2 = i ∧ largest gt f cnt i ≤ cnt := by
  unfold largest
  rcases larger_cases gt f cnt (larger gt f cnt i (2 * i)) (2 * i + 1) with h | ⟨h, hle⟩
  · rw [h]
    rcases larger_cases gt f cnt i (2 * i) with h' | ⟨h', hle⟩
    · exact .inl h'
    · rw [h']
      exact .inr ⟨by omega, hle⟩
  · rw [h]
    exact .inr ⟨by omega, hle⟩

/-- **`largest` is no smaller than the element and its children.** -/
theorem largest_max (ho : TotalPreorder gt) (hk : k = i ∨ k / 2 = i ∧ k ≤ cnt) :
    gt (f k) (f (largest gt f cnt i)) = false := by
  unfold largest
  have hup : gt (f (larger gt f cnt i (2 * i))) (f (larger gt f cnt (larger gt f cnt i (2 * i))
      (2 * i + 1))) = false := larger_left ho
  rcases hk with rfl | ⟨hk, hle⟩
  · exact ho.trans _ _ _ (larger_left ho) hup
  · rcases Nat.mod_two_eq_zero_or_one k with h | h
    · obtain rfl : k = 2 * i := by omega
      exact ho.trans _ _ _ (larger_right ho hle) hup
    · obtain rfl : k = 2 * i + 1 := by omega
      exact larger_right ho hle

/-- **One turn of the loop**: the hole moves from `i` to its largest child `m`. -/
theorem HeapBut.sift (h : HeapBut gt f lo cnt i) (hlo : 1 ≤ lo) (hli : lo ≤ i) (hm : m / 2 = i)
    (hmc : m ≤ cnt) (hmax : ∀ k, k = i ∨ k / 2 = i ∧ k ≤ cnt → gt (f k) (f m) = false) :
    HeapBut gt (f ∘ Equiv.swap i m) lo cnt m := by
  have hfar : ∀ k, k ≠ i → k ≠ m → (f ∘ Equiv.swap i m) k = f k := fun k h1 h2 =>
    congrArg f (Equiv.swap_apply_of_ne_of_ne h1 h2)
  have hi : (f ∘ Equiv.swap i m) i = f m := congrArg f (Equiv.swap_apply_left i m)
  have hmi : (f ∘ Equiv.swap i m) m = f i := congrArg f (Equiv.swap_apply_right i m)
  constructor
  · intro k hk hkc hne
    by_cases hkm : k = m
    · subst hkm
      rw [hmi, hm, hi]
      exact hmax i (.inl rfl)
    · by_cases hki : k = i
      · subst hki
        rw [hi, hfar (k / 2) (by omega) (by omega)]
        exact h.grand m hm hmc hk
      · rw [hfar k hki hkm]
        by_cases hp : k / 2 = i
        · rw [hp, hi]
          exact hmax k (.inr ⟨hp, hkc⟩)
        · rw [hfar (k / 2) hp hne]
          exact h.pair k hk hkc hp
  · intro k hk hkc _
    have hki : k ≠ i := by omega
    have hkm : k ≠ m := by omega
    rw [hfar k hki hkm, hm, hi]
    have hpair := h.pair k (by omega) hkc (by omega)
    rwa [hk] at hpair

/-- **`siftDown`** makes a heap of one but for an element, by induction on its turns: the index
    grows in each, and stays in the array. -/
theorem siftDown_spec (ho : TotalPreorder gt) (h : HeapBut gt f lo cnt i) (hlo : 1 ≤ lo)
    (hli : lo ≤ i) (hi : i ≤ cnt) (hfuel : cnt < fuel + i) :
    ∃ f', siftDown gt cnt fuel i f = some f' ∧ HeapFrom gt f' lo cnt ∧ Rearranged cnt f f' := by
  induction fuel generalizing i f with
  | zero => omega
  | succ fuel ih =>
    have hmax : ∀ k, k = i ∨ k / 2 = i ∧ k ≤ cnt → gt (f k) (f (largest gt f cnt i)) = false :=
      fun k hk => largest_max ho hk
    unfold siftDown
    by_cases hstop : largest gt f cnt i = i
    · refine ⟨f, if_pos hstop, fun k hk hkc => ?_, Rearranged.refl cnt f⟩
      rw [hstop] at hmax
      by_cases hp : k / 2 = i
      · rw [hp]
        exact hmax k (.inr ⟨hp, hkc⟩)
      · exact h.pair k hk hkc hp
    · obtain ⟨hm, hmc⟩ := (largest_cases gt f cnt i).resolve_left hstop
      have hnext := h.sift hlo hli hm hmc hmax
      obtain ⟨f', hrun, hheap, hre⟩ := ih hnext (by omega) hmc (by omega)
      rw [if_neg hstop]
      exact ⟨f', hrun, hheap,
        (Rearranged.swap f (by omega) hi (by omega) hmc).trans hre⟩

end Sift

/-! ## 4. Building and extracting -/

section Sorting

variable {gt : α → α → Bool} {f : ℕ → α} {cnt i fuel : ℕ}

/-- **Bottom-up construction**, by induction on the elements that are left. -/
theorem heapBuild_spec (ho : TotalPreorder gt) (h : HeapFrom gt f (i + 1) cnt) (hi : i ≤ cnt)
    (hfuel : cnt < fuel) :
    ∃ f', heapBuild gt cnt fuel i f = some f' ∧ HeapFrom gt f' 1 cnt ∧ Rearranged cnt f f' := by
  induction i generalizing f with
  | zero => exact ⟨f, rfl, h, Rearranged.refl cnt f⟩
  | succ i ih =>
    have hbut : HeapBut gt f (i + 1) cnt (i + 1) :=
      ⟨fun k hk hkc hne => h k (by omega) hkc, fun k hk hkc hlo => by omega⟩
    obtain ⟨f₁, hrun, hheap, hre⟩ := siftDown_spec ho hbut (by omega) (Nat.le_refl _) hi
      (Nat.lt_add_right _ hfuel)
    obtain ⟨f', hrest, hheap', hre'⟩ := ih hheap (by omega)
    refine ⟨f', ?_, hheap', hre.trans hre'⟩
    unfold heapBuild
    rw [hrun, Option.bind_some, hrest]

/-- **The root is the largest.** -/
theorem HeapFrom.root (ho : TotalPreorder gt) (h : HeapFrom gt f 1 cnt) (hk : 1 ≤ k)
    (hkc : k ≤ cnt) : gt (f k) (f 1) = false := by
  induction k using Nat.strongRecOn with
  | ind k ih =>
    by_cases h1 : k = 1
    · subst h1
      exact ho.refl _
    · exact ho.trans _ _ _ (h k (by omega) hkc) (ih (k / 2) (by omega) (by omega) (by omega))

/-- **What has been extracted**: behind the heap `1 .. i` the array is sorted, and nothing in the
    heap is larger. -/
structure Extracted (gt : α → α → Bool) (f : ℕ → α) (i cnt : ℕ) : Prop where
  sorted : ∀ j j', i < j → j ≤ j' → j' ≤ cnt → gt (f j) (f j') = false
  above : ∀ k j, 1 ≤ k → k ≤ i → i < j → j ≤ cnt → gt (f k) (f j) = false

theorem Extracted.extract {f' : ℕ → α} (ho : TotalPreorder gt) (ht : Extracted gt f (i + 2) cnt)
    (h : HeapFrom gt f 1 (i + 2))
    (hre : Rearranged (i + 1) (f ∘ Equiv.swap 1 (i + 2)) f') : Extracted gt f' (i + 1) cnt := by
  have hlast : f' (i + 2) = f 1 := by
    rw [hre.outside (by omega)]
    exact congrArg f (Equiv.swap_apply_right 1 (i + 2))
  have hout : ∀ j, i + 2 < j → f' j = f j := by
    intro j hj
    rw [hre.outside (by omega)]
    exact congrArg f (Equiv.swap_apply_of_ne_of_ne (by omega) (by omega))
  constructor
  · intro j j' hj hjj' hj'
    by_cases h2 : j = i + 2
    · subst h2
      rw [hlast]
      by_cases h2' : j' = i + 2
      · rw [h2', hlast]
        exact ho.refl _
      · rw [hout j' (by omega)]
        exact ht.above 1 j' (Nat.le_refl 1) (by omega) (by omega) hj'
    · rw [hout j (by omega), hout j' (by omega)]
      exact ht.sorted j j' (by omega) hjj' hj'
  · intro k j hk hki hj hjc
    -- the value at `k` was somewhere in the heap
    have hswap := Rearranged.swap (n := i + 2) f (i := 1) (j := i + 2) (by omega) (by omega)
      (by omega) (by omega)
    obtain ⟨k₂, hk2, he⟩ := (hswap.trans (hre.mono (Nat.le_succ _))).inside (k := k) (by omega)
    rw [he]
    by_cases h2 : j = i + 2
    · rw [h2, hlast]
      exact h.root ho hk2.1 hk2.2
    · rw [hout j (by omega)]
      exact ht.above k₂ j hk2.1 hk2.2 (by omega) hjc

theorem heapExtract_spec (ho : TotalPreorder gt) (h : HeapFrom gt f 1 i) (ht : Extracted gt f i cnt)
    (hi : i ≤ cnt) (hfuel : cnt < fuel) :
    ∃ f', heapExtract gt fuel i f = some f' ∧ Extracted gt f' 0 cnt ∧ Rearranged cnt f f' := by
  induction i generalizing f with
  | zero => exact ⟨f, rfl, ht, Rearranged.refl cnt f⟩
  | succ i ih =>
    cases i with
    | zero =>
      refine ⟨f, rfl, ⟨fun j j' hj hjj' hj' => ?_, fun k j hk hk0 => by omega⟩,
        Rearranged.refl cnt f⟩
      by_cases h1 : j = 1
      · subst h1
        by_cases h1' : j' = 1
        · rw [h1']
          exact ho.refl _
        · exact ht.above 1 j' (by omega) (by omega) (by omega) hj'
      · exact ht.sorted j j' (by omega) hjj' hj'
    | succ i =>
      have hbut : HeapBut gt (f ∘ Equiv.swap 1 (i + 2)) 1 (i + 1) 1 := by
        refine ⟨fun k hk hkc hne => ?_, fun k _ _ hlo => by omega⟩
        have hfar : ∀ j, j ≠ 1 → j ≠ i + 2 → (f ∘ Equiv.swap 1 (i + 2)) j = f j :=
          fun j h1 h2 => congrArg f (Equiv.swap_apply_of_ne_of_ne h1 h2)
        rw [hfar k (by omega) (by omega), hfar (k / 2) hne (by omega)]
        exact h k hk (by omega)
      obtain ⟨f₁, hrun, hheap, hre⟩ := siftDown_spec ho hbut (Nat.le_refl 1) (Nat.le_refl 1)
        (by omega) (show i + 1 < fuel + 1 by omega)
      obtain ⟨f', hrest, ht', hre'⟩ := ih hheap (ht.extract ho h hre) (by omega)
      have hswap := Rearranged.swap (n := cnt) f (i := 1) (j := i + 2) (by omega) (by omega)
        (by omega) hi
      refine ⟨f', ?_, ht', (hswap.trans (hre.mono (by omega))).trans hre'⟩
      unfold heapExtract
      rw [hrun, Option.bind_some, hrest]

/-- **Heapsort.** With enough fuel it ends, the values at `1 .. cnt` have changed places only, and
    they are in order. -/
theorem heapSort_spec (ho : TotalPreorder gt) (f : ℕ → α) (hfuel : cnt < fuel) :
    ∃ f', heapSort gt cnt fuel f = some f' ∧ Rearranged cnt f f' ∧
      ∀ j j', 1 ≤ j → j ≤ j' → j' ≤ cnt → gt (f' j) (f' j') = false := by
  obtain ⟨f₁, hbuild, hheap, hre1⟩ := heapBuild_spec (i := cnt / 2) (f := f) ho
    (fun k hk hkc => by omega) (Nat.div_le_self cnt 2) hfuel
  have ht : Extracted gt f₁ cnt cnt :=
    ⟨fun j j' hj hjj' hj' => by omega, fun k j _ _ hj hjc => by omega⟩
  obtain ⟨f', hext, ht', hre'⟩ := heapExtract_spec ho hheap ht (Nat.le_refl cnt) hfuel
  refine ⟨f', ?_, hre1.trans hre', fun j j' hj hjj' hj' => ht'.sorted j j' hj hjj' hj'⟩
  unfold heapSort
  rw [hbuild, Option.bind_some, hext]

end Sorting

end Pintos.Lib
