/-
  Subject:   `sort` of lib/stdlib.c, a heapsort of an array of elements of any size.

  * The array is seen through the bytes at its offsets. An access at an offset behind its last
    element has no result, so that a result says that there was none; offsets and child indices are
    computed in `size_t`, modulo 2^32.
  * An element is a function `Fin size → UInt8`, and a swap of bytes is a swap of elements. So the loops
    follow those of `Lib.heapSort`, and **`sort_heapsort`** is its theorem about the bytes.
-/
import Pintos.Lib.HeapSort

namespace Pintos

open Lib Function Nat

/-! ## 1. The code -/

/-- A value of type `size_t`. -/
def sizeT (n : ℕ) : ℕ := n % 2 ^ 32

/-- `(idx - 1) * size`. -/
def elemOffset (size idx : ℕ) : ℕ := sizeT (sizeT (idx + (2 ^ 32 - 1)) * size)

/-- The loop of `do_swap`, on an array of `limit` bytes. -/
def swapLoop (limit a b : ℕ) : ℕ → ℕ → (ℕ → UInt8) → Option (ℕ → UInt8)
  | 0, _, mem => some mem
  | n + 1, i, mem =>
    if a + i < limit ∧ b + i < limit then
      let t := mem (a + i)
      let mem := update mem (a + i) (mem (b + i))
      swapLoop limit a b n (i + 1) (update mem (b + i) t)
    else none

/-- `do_swap`. -/
def doSwap (limit size : ℕ) (mem : ℕ → UInt8) (aIdx bIdx : ℕ) : Option (ℕ → UInt8) :=
  swapLoop limit (elemOffset size aIdx) (elemOffset size bIdx) size 0 mem

/-- The `size` bytes from an offset on. -/
def sizedBytes (size : ℕ) (mem : ℕ → UInt8) (off : ℕ) : Fin size → UInt8 := fun j => mem (off + j)

section Code

variable {size : ℕ} (compare : (Fin size → UInt8) → (Fin size → UInt8) → Int) (limit : ℕ)

/-- `do_compare`. -/
def doCompare (mem : ℕ → UInt8) (aIdx bIdx : ℕ) : Option Int :=
  let a := elemOffset size aIdx
  let b := elemOffset size bIdx
  if a + size ≤ limit ∧ b + size ≤ limit then
    some (compare (sizedBytes size mem a) (sizedBytes size mem b))
  else none

/-- `if (child <= cnt && do_compare (array, child, max, …) > 0) max = child;` -/
def maxOf (mem : ℕ → UInt8) (cnt child max : ℕ) : Option ℕ :=
  if child ≤ cnt then
    (doCompare compare limit mem child max).map fun r => if r > 0 then child else max
  else some max

/-- `heapify`. -/
def heapify (cnt : ℕ) : ℕ → ℕ → (ℕ → UInt8) → Option (ℕ → UInt8)
  | 0, _, _ => none
  | fuel + 1, i, mem => do
      let left := sizeT (2 * i)
      let right := sizeT (2 * i + 1)
      let max ← maxOf compare limit mem cnt left i
      let max ← maxOf compare limit mem cnt right max
      if max = i then some mem
      else do
        let mem ← doSwap limit size mem i max
        heapify cnt fuel max mem

/-- The loop of `sort` that builds a heap, from `i` down to 1. -/
def buildLoop (fuel cnt : ℕ) : ℕ → (ℕ → UInt8) → Option (ℕ → UInt8)
  | 0, mem => some mem
  | i + 1, mem => (heapify compare limit cnt fuel (i + 1) mem).bind (buildLoop fuel cnt i)

/-- The loop of `sort` that sorts the heap, from `i` down to 2. -/
def extractLoop (fuel : ℕ) : ℕ → (ℕ → UInt8) → Option (ℕ → UInt8)
  | 0, mem => some mem
  | 1, mem => some mem
  | i + 2, mem => do
      let mem ← doSwap limit size mem 1 (i + 2)
      let mem ← heapify compare limit (i + 1) fuel 1 mem
      extractLoop fuel (i + 1) mem

/-- `sort`, for an array that is there. -/
def sort (fuel : ℕ) (mem : ℕ → UInt8) (cnt : ℕ) : Option (ℕ → UInt8) :=
  if size > 0 then
    (buildLoop compare (cnt * size) fuel cnt (cnt / 2) mem).bind
      (extractLoop compare (cnt * size) fuel cnt)
  else none

end Code

/-! ## 2. Elements -/

/-- The element with index `k`; there is none with index 0. -/
def elementAt (size : ℕ) (mem : ℕ → UInt8) (k : ℕ) : Fin size → UInt8 :=
  if k = 0 then fun _ => 0 else sizedBytes size mem ((k - 1) * size)

section Elements

variable {size cnt k a b : ℕ}

/-- Elements do not overlap. -/
theorem slot_inj {p q j j' : ℕ} (hj : j < size) (hj' : j' < size)
    (h : p * size + j = q * size + j') : p = q ∧ j = j' := by
  have hpos : 0 < size := lt_of_le_of_lt (zero_le j) hj
  have hdiv : ∀ p j, j < size → (p * size + j) / size = p := fun p j hj => by
    rw [mul_comm, mul_add_div hpos, div_eq_of_lt hj, add_zero]
  have hpq : p = q := by
    rw [← hdiv p j hj, h, hdiv q j' hj']
  subst hpq
  exact ⟨rfl, add_left_cancel h⟩

theorem slot_le (size : ℕ) (hk : 1 ≤ k) (hkc : k ≤ cnt) : (k - 1) * size + size ≤ cnt * size := by
  rw [← succ_mul]
  exact mul_le_mul_right size (by omega)

/-- **Offsets do not wrap around.** -/
theorem elemOffset_eq (hsize : 0 < size) (hb : cnt * size < 2 ^ 31) (hk : 1 ≤ k) (hkc : k ≤ cnt) :
    elemOffset size k = (k - 1) * size := by
  have hcnt : cnt ≤ cnt * size := Nat.le_mul_of_pos_right cnt hsize
  have hle := slot_le size hk hkc
  have hidx : sizeT (k + (2 ^ 32 - 1)) = k - 1 := by
    unfold sizeT
    omega
  unfold elemOffset
  rw [hidx]
  exact mod_eq_of_lt (by omega)

/-- **The loop of `do_swap`**, by induction on the bytes that are left. -/
theorem swapLoop_spec (mem : ℕ → UInt8) {limit n i : ℕ} (ha : a + (i + n) ≤ limit)
    (hb : b + (i + n) ≤ limit) (hne : ∀ j j', j < i + n → j' < i + n → a + j ≠ b + j') :
    ∃ mem', swapLoop limit a b n i mem = some mem' ∧
      (∀ j, i ≤ j → j < i + n → mem' (a + j) = mem (b + j)) ∧
      (∀ j, i ≤ j → j < i + n → mem' (b + j) = mem (a + j)) ∧
      ∀ x, (∀ j, i ≤ j → j < i + n → x ≠ a + j ∧ x ≠ b + j) → mem' x = mem x := by
  induction n generalizing i mem with
  | zero => exact ⟨mem, rfl, fun j h1 h2 => by omega, fun j h1 h2 => by omega, fun _ _ => rfl⟩
  | succ n ih =>
    let mem₁ := update (update mem (a + i) (mem (b + i))) (b + i) (mem (a + i))
    have hself := hne i i (by omega) (by omega)
    have hsa : mem₁ (a + i) = mem (b + i) := by
      show update _ _ _ _ = _
      rw [update_of_ne hself, update_self]
    have hsb : mem₁ (b + i) = mem (a + i) := update_self ..
    have hfar : ∀ x, x ≠ a + i → x ≠ b + i → mem₁ x = mem x := fun x h1 h2 => by
      show update _ _ _ _ = _
      rw [update_of_ne h2, update_of_ne h1]
    have hlen : i + 1 + n = i + (n + 1) := by omega
    obtain ⟨mem', hrun, hA, hB, hC⟩ := ih mem₁ (i := i + 1) (by omega) (by omega)
      fun j j' h1 h2 => hne j j' (by omega) (by omega)
    rw [hlen] at hA hB hC
    refine ⟨mem', ?_, fun j h1 h2 => ?_, fun j h1 h2 => ?_, fun x hx => ?_⟩
    · unfold swapLoop
      rw [if_pos ⟨by omega, by omega⟩]
      exact hrun
    · by_cases hj : j = i
      · subst hj
        rw [hC (a + j) fun k h3 h4 => ⟨by omega, hne j k (by omega) h4⟩, hsa]
      · have hnb := hne i j (by omega) h2
        rw [hA j (by omega) h2, hfar (b + j) (by omega) (by omega)]
    · by_cases hj : j = i
      · subst hj
        rw [hC (b + j) fun k h3 h4 => ⟨(hne k j h4 (by omega)).symm, by omega⟩, hsb]
      · have hna := hne j i h2 (by omega)
        rw [hB j (by omega) h2, hfar (a + j) (by omega) (by omega)]
    · have hxi := hx i (le_refl i) (by omega)
      rw [hC x fun k h3 h4 => hx k (by omega) h4, hfar x hxi.1 hxi.2]

/-- **`do_swap` swaps two elements**, and no byte behind the array. -/
theorem doSwap_spec (mem : ℕ → UInt8) (hsize : 0 < size) (hb : cnt * size < 2 ^ 31) (ha1 : 1 ≤ a)
    (hac : a ≤ cnt) (hb1 : 1 ≤ b) (hbc : b ≤ cnt) (hab : a ≠ b) :
    ∃ mem', doSwap (cnt * size) size mem a b = some mem' ∧
      elementAt size mem' = elementAt size mem ∘ Equiv.swap a b ∧
      ∀ x, cnt * size ≤ x → mem' x = mem x := by
  have hla := slot_le size ha1 hac
  have hlb := slot_le size hb1 hbc
  have hapart : ∀ {p q : ℕ}, 1 ≤ p → 1 ≤ q → p ≠ q → ∀ j j', j < 0 + size → j' < 0 + size →
      (p - 1) * size + j ≠ (q - 1) * size + j' := by
    intro p q hp hq hpq j j' hj hj' he
    obtain ⟨he, -⟩ := slot_inj (by omega) (by omega) he
    omega
  obtain ⟨mem', hrun, hA, hB, hC⟩ := swapLoop_spec mem (i := 0)
    (show (a - 1) * size + (0 + size) ≤ cnt * size by omega)
    (show (b - 1) * size + (0 + size) ≤ cnt * size by omega) (hapart ha1 hb1 hab)
  refine ⟨mem', ?_, funext fun k => ?_, fun x hx => hC x fun j _ hj => ⟨by omega, by omega⟩⟩
  · unfold doSwap
    rw [elemOffset_eq hsize hb ha1 hac, elemOffset_eq hsize hb hb1 hbc]
    exact hrun
  · show elementAt size mem' k = elementAt size mem (Equiv.swap a b k)
    unfold elementAt
    by_cases hk0 : k = 0
    · rw [Equiv.swap_apply_of_ne_of_ne (by omega) (by omega), if_pos hk0, if_pos hk0]
    · rw [if_neg hk0]
      funext j
      have hj : (j : ℕ) < 0 + size := by
        have := j.isLt
        omega
      by_cases hka : k = a
      · subst hka
        rw [Equiv.swap_apply_left, if_neg (by omega)]
        exact hA j (zero_le _) hj
      · by_cases hkb : k = b
        · subst hkb
          rw [Equiv.swap_apply_right, if_neg (by omega)]
          exact hB j (zero_le _) hj
        · rw [Equiv.swap_apply_of_ne_of_ne hka hkb, if_neg hk0]
          exact hC _ fun j' _ hj' => ⟨hapart (by omega) ha1 hka j j' hj hj',
            hapart (by omega) hb1 hkb j j' hj hj'⟩

end Elements

/-! ## 3. The loops -/

section Loops

variable {size cnt n i fuel : ℕ} {compare : (Fin size → UInt8) → (Fin size → UInt8) → Int}
variable {mem : ℕ → UInt8} {f' : ℕ → Fin size → UInt8}

/-- `compare (a, b) > 0`. -/
def greater (compare : (Fin size → UInt8) → (Fin size → UInt8) → Int) (a b : Fin size → UInt8) :
    Bool := decide (compare a b > 0)

theorem doCompare_eq (hsize : 0 < size) (hb : cnt * size < 2 ^ 31) {a b : ℕ} (ha1 : 1 ≤ a)
    (hac : a ≤ cnt) (hb1 : 1 ≤ b) (hbc : b ≤ cnt) : doCompare compare (cnt * size) mem a b =
      some (compare (elementAt size mem a) (elementAt size mem b)) := by
  have hla := slot_le size ha1 hac
  have hlb := slot_le size hb1 hbc
  unfold doCompare elementAt
  simp only [elemOffset_eq hsize hb ha1 hac, elemOffset_eq hsize hb hb1 hbc]
  rw [if_pos ⟨hla, hlb⟩, if_neg (by omega), if_neg (by omega)]

theorem maxOf_eq (hsize : 0 < size) (hb : cnt * size < 2 ^ 31) (hn : n ≤ cnt) {c m : ℕ}
    (hc : 1 ≤ c) (hm1 : 1 ≤ m) (hmc : m ≤ cnt) : maxOf compare (cnt * size) mem n c m =
      some (larger (greater compare) (elementAt size mem) n m c) := by
  unfold maxOf larger
  by_cases hle : c ≤ n
  · rw [if_pos hle, doCompare_eq hsize hb hc (by omega) hm1 hmc, Option.map_some]
    refine congrArg some (if_congr ?_ rfl rfl)
    rw [greater, decide_eq_true_eq]
    exact ⟨fun h => ⟨hle, h⟩, fun h => h.2⟩
  · rw [if_neg hle, if_neg fun h => hle h.1]

/-- **`heapify` floats an element down**, by induction on its turns. -/
theorem heapify_spec (hsize : 0 < size) (hb : cnt * size < 2 ^ 31) (hn : n ≤ cnt) (hi : 1 ≤ i)
    (hic : i ≤ cnt) (hrun : siftDown (greater compare) n fuel i (elementAt size mem) = some f') :
    ∃ mem', heapify compare (cnt * size) n fuel i mem = some mem' ∧ elementAt size mem' = f' ∧
      ∀ x, cnt * size ≤ x → mem' x = mem x := by
  induction fuel generalizing i mem with
  | zero => cases hrun
  | succ fuel ih =>
    have hcnt : cnt ≤ cnt * size := Nat.le_mul_of_pos_right cnt hsize
    have hleft : sizeT (2 * i) = 2 * i := mod_eq_of_lt (by omega)
    have hright : sizeT (2 * i + 1) = 2 * i + 1 := mod_eq_of_lt (by omega)
    have hmid := larger_cases (greater compare) (elementAt size mem) n i (2 * i)
    have hmax := largest_cases (greater compare) (elementAt size mem) n i
    unfold heapify
    rw [hleft, hright]
    show ∃ mem', (maxOf compare (cnt * size) mem n (2 * i) i).bind _ = _ ∧ _
    rw [maxOf_eq hsize hb hn (by omega) hi hic]
    show ∃ mem', (maxOf _ _ _ _ _ _).bind _ = _ ∧ _
    rw [maxOf_eq hsize hb hn (by omega) (by omega) (by omega)]
    show ∃ mem', (if largest (greater compare) (elementAt size mem) n i = i then _ else _) = _ ∧ _
    unfold siftDown at hrun
    by_cases hstop : largest (greater compare) (elementAt size mem) n i = i
    · rw [if_pos hstop] at hrun ⊢
      exact ⟨mem, rfl, Option.some.inj hrun, fun _ _ => rfl⟩
    · rw [if_neg hstop] at hrun ⊢
      obtain ⟨hm, hmn⟩ := hmax.resolve_left hstop
      obtain ⟨mem₁, hswap, helem, hout⟩ := doSwap_spec mem hsize hb hi hic
        (b := largest (greater compare) (elementAt size mem) n i) (by omega) (by omega)
        (Ne.symm hstop)
      rw [← helem] at hrun
      obtain ⟨mem', hrest, helem', hout'⟩ := ih (by omega) (by omega) hrun
      refine ⟨mem', ?_, helem', fun x hx => (hout' x hx).trans (hout x hx)⟩
      show (doSwap (cnt * size) size mem i
        (largest (greater compare) (elementAt size mem) n i)).bind _ = _
      rw [hswap]
      exact hrest

theorem buildLoop_spec (hsize : 0 < size) (hb : cnt * size < 2 ^ 31) (hic : i ≤ cnt)
    (hrun : heapBuild (greater compare) cnt fuel i (elementAt size mem) = some f') :
    ∃ mem', buildLoop compare (cnt * size) fuel cnt i mem = some mem' ∧
      elementAt size mem' = f' ∧ ∀ x, cnt * size ≤ x → mem' x = mem x := by
  induction i generalizing mem with
  | zero => exact ⟨mem, rfl, Option.some.inj hrun, fun _ _ => rfl⟩
  | succ i ih =>
    unfold heapBuild at hrun
    obtain ⟨f₁, hsift, hrest⟩ := Option.bind_eq_some_iff.mp hrun
    obtain ⟨mem₁, hheap, rfl, hout⟩ :=
      heapify_spec hsize hb (le_refl cnt) (by omega) hic hsift
    obtain ⟨mem', hloop, helem, hout'⟩ := ih (by omega) hrest
    refine ⟨mem', ?_, helem, fun x hx => (hout' x hx).trans (hout x hx)⟩
    unfold buildLoop
    rw [hheap]
    exact hloop

theorem extractLoop_spec (hsize : 0 < size) (hb : cnt * size < 2 ^ 31) (hic : i ≤ cnt)
    (hrun : heapExtract (greater compare) fuel i (elementAt size mem) = some f') :
    ∃ mem', extractLoop compare (cnt * size) fuel i mem = some mem' ∧
      elementAt size mem' = f' ∧ ∀ x, cnt * size ≤ x → mem' x = mem x := by
  induction i generalizing mem with
  | zero => exact ⟨mem, rfl, Option.some.inj hrun, fun _ _ => rfl⟩
  | succ i ih =>
    cases i with
    | zero => exact ⟨mem, rfl, Option.some.inj hrun, fun _ _ => rfl⟩
    | succ i =>
      unfold heapExtract at hrun
      obtain ⟨f₁, hsift, hrest⟩ := Option.bind_eq_some_iff.mp hrun
      obtain ⟨mem₁, hswap, helem1, hout1⟩ := doSwap_spec mem (a := 1) (b := i + 2)
        hsize hb (by omega) (by omega) (by omega) hic (by omega)
      rw [← helem1] at hsift
      obtain ⟨mem₂, hheap, rfl, hout2⟩ := heapify_spec (n := i + 1) hsize hb (by omega)
        (by omega) (by omega) hsift
      obtain ⟨mem', hloop, helem, hout'⟩ := ih (by omega) hrest
      refine ⟨mem', ?_, helem, fun x hx =>
        (hout' x hx).trans ((hout2 x hx).trans (hout1 x hx))⟩
      unfold extractLoop
      rw [hswap]
      show (heapify _ _ _ _ _ _).bind _ = _
      rw [hheap]
      exact hloop

end Loops

/-! ## 4. The result -/

/-- **A `strcmp`-style comparison of a total preorder.** -/
structure Strcmp {size : ℕ} (compare : (Fin size → UInt8) → (Fin size → UInt8) → Int) : Prop where
  sign : ∀ a b, 0 < compare a b ↔ compare b a < 0
  trans : ∀ a b c, compare a b ≤ 0 → compare b c ≤ 0 → compare a c ≤ 0

theorem Strcmp.totalPreorder {size : ℕ} {compare : (Fin size → UInt8) → (Fin size → UInt8) → Int}
    (h : Strcmp compare) : TotalPreorder (greater compare) := by
  constructor
  · intro a b hab
    have hlt := (h.sign a b).mp (of_decide_eq_true hab)
    exact decide_eq_false (by omega)
  · intro a b c hab hbc
    have h1 := of_decide_eq_false hab
    have h2 := of_decide_eq_false hbc
    have h3 := h.trans a b c (by omega) (by omega)
    exact decide_eq_false (by omega)

/-- **`sort` is a heapsort in place.** It ends; it reads and writes elements `1 .. cnt` only, and
    leaves every other byte; afterwards the same elements stand there, in order. -/
theorem sort_heapsort {size : ℕ} (compare : (Fin size → UInt8) → (Fin size → UInt8) → Int)
    (mem : ℕ → UInt8) (cnt fuel : ℕ) (hsize : 0 < size) (hb : cnt * size < 2 ^ 31)
    (hc : Strcmp compare) (hfuel : cnt < fuel) : ∃ mem', sort compare fuel mem cnt = some mem' ∧
      ((List.range' 1 cnt).map (elementAt size mem')).Perm
        ((List.range' 1 cnt).map (elementAt size mem)) ∧
      (∀ i j, 1 ≤ i → i ≤ j → j ≤ cnt →
        compare (elementAt size mem' i) (elementAt size mem' j) ≤ 0) ∧
      ∀ x, cnt * size ≤ x → mem' x = mem x := by
  obtain ⟨f', hsort, hre, hord⟩ := heapSort_spec hc.totalPreorder (elementAt size mem) hfuel
  unfold heapSort at hsort
  obtain ⟨f₁, hbuild, hext⟩ := Option.bind_eq_some_iff.mp hsort
  obtain ⟨mem₁, hrun1, rfl, hout1⟩ := buildLoop_spec hsize hb (div_le_self cnt 2) hbuild
  obtain ⟨mem', hrun', rfl, hout'⟩ := extractLoop_spec hsize hb (le_refl cnt) hext
  refine ⟨mem', ?_, hre.perm, fun i j hi hij hj => ?_, fun x hx => (hout' x hx).trans (hout1 x hx)⟩
  · unfold sort
    rw [if_pos hsize, hrun1]
    exact hrun'
  · have hle := of_decide_eq_false (hord i j hi hij hj)
    omega

/-- The difference of two bytes. -/
def byteDifference (a b : Fin 1 → UInt8) : Int := (a 0).toNat - (b 0).toNat

/-- Three bytes: 3, 1, 2. -/
theorem sort_heapsort_bytes : ∃ mem',
    sort byteDifference 4 (fun x => [3, 1, 2].getD x 0) 3 = some mem' ∧
      byteDifference (elementAt 1 mem' 1) (elementAt 1 mem' 3) ≤ 0 := by
  have hcmp : Strcmp byteDifference := by
    constructor
    · intro a b
      unfold byteDifference
      omega
    · intro a b c hab hbc
      unfold byteDifference at *
      omega
  obtain ⟨mem', hrun, -, hord, -⟩ := sort_heapsort byteDifference (fun x => [3, 1, 2].getD x 0) 3 4
    (by decide) (by decide) hcmp (by decide)
  exact ⟨mem', hrun, hord 1 3 (by decide) (by decide) (by decide)⟩

end Pintos
