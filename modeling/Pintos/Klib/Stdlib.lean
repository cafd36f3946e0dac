/-
  Subject:   `binary_search` and `atoi` of lib/stdlib.c.

  * `compare` is a function of two addresses: what it makes of the bytes there is its own affair.
  * **`binary_search_finds`**: the search ends with the answer, and has looked at elements only.
  * `atoi` reads a number as its negative, which every `int` has room for.
-/
import Pintos.Klib.Sort

namespace Pintos

open Nat

/-! ## 1. The code -/

section Code

variable (compare : ℕ → ℕ → Int) (key size : ℕ)

/-- The loop of `binary_search`, with the addresses that the key was compared with. `none`: the fuel
    is spent. -/
def searchLoop : ℕ → ℕ → ℕ → Option (Option ℕ × List ℕ)
  | 0, _, _ => none
  | fuel + 1, first, last =>
    if first < last then
      let range := (last - first) / size
      let middle := sizeT (first + sizeT (range / 2 * size))
      let cmp := compare key middle
      let seen := fun (r : Option ℕ × List ℕ) => (r.1, middle :: r.2)
      if cmp < 0 then (searchLoop fuel first middle).map seen
      else if cmp > 0 then (searchLoop fuel (sizeT (middle + size)) last).map seen
      else some (some middle, [middle])
    else some (none, [])

/-- `binary_search`; the inner `none` is the null pointer. -/
def binarySearch (fuel array cnt : ℕ) : Option (Option ℕ × List ℕ) :=
  searchLoop compare key size fuel array (sizeT (array + sizeT (size * cnt)))

end Code

/-! ## 2. The range -/

/-- The address of the element with index `i`. -/
def elemAddr (array size i : ℕ) : ℕ := array + i * size

/-- **A `strcmp`-style comparison of a total preorder** on the objects at the addresses of `P`. -/
structure Ordered (compare : ℕ → ℕ → Int) (P : ℕ → Prop) : Prop where
  sign : ∀ a b, P a → P b → (0 < compare a b ↔ compare b a < 0)
  trans : ∀ a b c, P a → P b → P c → compare a b ≤ 0 → compare b c ≤ 0 → compare a c ≤ 0

section Search

variable {compare : ℕ → ℕ → Int} {key array size cnt lo hi : ℕ}

/-- The key and the elements. -/
def Subject (key array size cnt a : ℕ) : Prop := a = key ∨ ∃ i < cnt, a = elemAddr array size i

/-- The elements stand in the order of `compare`. -/
def SortedArray (compare : ℕ → ℕ → Int) (array size cnt : ℕ) : Prop :=
  ∀ i j, i ≤ j → j < cnt → compare (elemAddr array size i) (elemAddr array size j) ≤ 0

/-- **The invariant of the loop**: an element that equals the key can only have an index in
    `[lo, hi)`. -/
structure Narrowed (compare : ℕ → ℕ → Int) (key array size cnt lo hi : ℕ) : Prop where
  le : lo ≤ hi
  hi_le : hi ≤ cnt
  below : ∀ i < lo, 0 < compare key (elemAddr array size i)
  above : ∀ i, hi ≤ i → i < cnt → compare key (elemAddr array size i) < 0

variable {i j mid : ℕ}

section Order

variable (ho : Ordered compare (Subject key array size cnt))
  (hs : SortedArray compare array size cnt)

include ho hs

theorem key_above (hji : j ≤ i) (hi : i < cnt) (hc : 0 < compare key (elemAddr array size i)) :
    0 < compare key (elemAddr array size j) := by
  by_contra hle
  have htrans := ho.trans key (elemAddr array size j) (elemAddr array size i) (.inl rfl)
    (.inr ⟨j, by omega, rfl⟩) (.inr ⟨i, hi, rfl⟩) (by omega) (hs j i hji hi)
  omega

theorem key_below (hij : i ≤ j) (hj : j < cnt) (hc : compare key (elemAddr array size i) < 0) :
    compare key (elemAddr array size j) < 0 := by
  have hmem : ∀ k < cnt, Subject key array size cnt (elemAddr array size k) :=
    fun k hk => .inr ⟨k, hk, rfl⟩
  have hsign : ∀ k < cnt, 0 < compare (elemAddr array size k) key ↔
      compare key (elemAddr array size k) < 0 := fun k hk => ho.sign _ _ (hmem k hk) (.inl rfl)
  by_contra hge
  have hjk : compare (elemAddr array size j) key ≤ 0 :=
    Int.not_lt.mp fun h => hge ((hsign j hj).mp h)
  have hik := ho.trans _ _ key (hmem i (by omega)) (hmem j hj) (.inl rfl) (hs i j hij hj) hjk
  have hlt := (hsign i (by omega)).mpr hc
  omega

theorem Narrowed.left (h : Narrowed compare key array size cnt lo hi) (hlo : lo ≤ mid)
    (hhi : mid < hi) (hc : compare key (elemAddr array size mid) < 0) :
    Narrowed compare key array size cnt lo mid where
  le := hlo
  hi_le := le_trans (le_of_lt hhi) h.hi_le
  below := h.below
  above _ hj hjc := key_below ho hs hj hjc hc

theorem Narrowed.right (h : Narrowed compare key array size cnt lo hi) (hhi : mid < hi)
    (hc : 0 < compare key (elemAddr array size mid)) :
    Narrowed compare key array size cnt (mid + 1) hi where
  le := hhi
  hi_le := h.hi_le
  below _ hj := key_above ho hs (le_of_lt_succ hj) (lt_of_lt_of_le hhi h.hi_le) hc
  above := h.above

end Order

/-! ## 3. The search -/

/-- **What a search is to answer**, and what it may look at. -/
structure SearchAnswer (compare : ℕ → ℕ → Int) (key array size cnt : ℕ) (r : Option ℕ × List ℕ) :
    Prop where
  seen : ∀ a ∈ r.2, ∃ i < cnt, a = elemAddr array size i
  equal : ∀ p, r.1 = some p → ∃ i < cnt, p = elemAddr array size i ∧ compare key p = 0
  none_iff : r.1 = none ↔ ∀ i < cnt, compare key (elemAddr array size i) ≠ 0

theorem SearchAnswer.look {r : Option ℕ × List ℕ} (h : SearchAnswer compare key array size cnt r)
    (hm : mid < cnt) :
    SearchAnswer compare key array size cnt (r.1, elemAddr array size mid :: r.2) where
  seen a ha := by
    rcases List.mem_cons.mp ha with rfl | ha
    · exact ⟨mid, hm, rfl⟩
    · exact h.seen a ha
  equal := h.equal
  none_iff := h.none_iff

theorem Narrowed.found_none (h : Narrowed compare key array size cnt lo lo) :
    SearchAnswer compare key array size cnt (none, []) where
  seen _ ha := absurd ha List.not_mem_nil
  equal _ hp := by cases hp
  none_iff := by
    refine iff_of_true rfl fun i hi => ?_
    rcases lt_or_ge i lo with hlt | hge
    · have hpos := h.below i hlt
      omega
    · have hneg := h.above i hge hi
      omega

theorem middle_eq (hsize : 0 < size) (hb : array + cnt * size < 2 ^ 32) (hlt : lo < hi)
    (hhi : hi ≤ cnt) : sizeT (elemAddr array size lo +
      sizeT ((elemAddr array size hi - elemAddr array size lo) / size / 2 * size)) =
        elemAddr array size (lo + (hi - lo) / 2) := by
  have hdiff : elemAddr array size hi - elemAddr array size lo = (hi - lo) * size := by
    unfold elemAddr
    rw [Nat.add_sub_add_left, Nat.sub_mul]
  have hmid : (lo + (hi - lo) / 2) * size ≤ cnt * size := mul_le_mul_right size (by omega)
  rw [add_mul] at hmid
  unfold elemAddr sizeT
  unfold elemAddr at hdiff
  rw [hdiff, Nat.mul_div_cancel _ hsize, Nat.mod_eq_of_lt (by omega : (hi - lo) / 2 * size < 2 ^ 32),
    mod_eq_of_lt (by omega), add_mul, add_assoc]

theorem searchLoop_turn (compare : ℕ → ℕ → Int) (key fuel : ℕ) (hsize : 0 < size)
    (hb : array + cnt * size < 2 ^ 32) (hlt : lo < hi) (hhi : hi ≤ cnt) :
    searchLoop compare key size (fuel + 1) (elemAddr array size lo) (elemAddr array size hi) =
      let middle := elemAddr array size (lo + (hi - lo) / 2)
      let seen := fun (r : Option ℕ × List ℕ) => (r.1, middle :: r.2)
      if compare key middle < 0 then
        (searchLoop compare key size fuel (elemAddr array size lo) middle).map seen
      else if compare key middle > 0 then
        (searchLoop compare key size fuel (sizeT (middle + size)) (elemAddr array size hi)).map seen
      else some (some middle, [middle]) := by
  have hfirst : elemAddr array size lo < elemAddr array size hi :=
    Nat.add_lt_add_left (Nat.mul_lt_mul_of_pos_right hlt hsize) array
  conv_lhs => unfold searchLoop
  rw [if_pos hfirst]
  dsimp only
  rw [middle_eq hsize hb hlt hhi]

/-- **The loop**: from a range that is narrowed to `[lo, hi)` it finds the answer. The range gets
    smaller in every turn. -/
theorem searchLoop_spec (ho : Ordered compare (Subject key array size cnt))
    (hs : SortedArray compare array size cnt) (hsize : 0 < size)
    (hb : array + cnt * size < 2 ^ 32) : ∀ (n lo hi : ℕ), hi - lo ≤ n →
    Narrowed compare key array size cnt lo hi →
    ∃ r, SearchAnswer compare key array size cnt r ∧ ∀ fuel, n < fuel →
      searchLoop compare key size fuel (elemAddr array size lo) (elemAddr array size hi) =
        some r := by
  intro n
  induction n with
  | zero =>
    intro lo hi hn h
    obtain rfl : lo = hi := le_antisymm h.le (by omega)
    refine ⟨(none, []), h.found_none, fun fuel hfuel => ?_⟩
    obtain ⟨fuel, rfl⟩ := exists_eq_succ_of_ne_zero (ne_of_gt hfuel)
    unfold searchLoop
    rw [if_neg (lt_irrefl _)]
  | succ n ih =>
    intro lo hi hn h
    rcases eq_or_lt_of_le h.le with rfl | hlt
    · obtain ⟨r, hr, hrun⟩ := ih lo lo (by omega) h
      exact ⟨r, hr, fun fuel hfuel => hrun fuel (by omega)⟩
    have hhi := h.hi_le
    have hturn := fun fuel => searchLoop_turn compare key fuel hsize hb hlt hhi
    have hfuel : ∀ fuel, n + 1 < fuel → ∃ k, fuel = k + 1 ∧ n < k :=
      fun fuel hf => ⟨fuel - 1, by omega, by omega⟩
    have hlo : lo ≤ lo + (hi - lo) / 2 := by omega
    have hmid : lo + (hi - lo) / 2 < hi := by omega
    have hsmall : lo + (hi - lo) / 2 - lo ≤ n := by omega
    have hsmall' : hi - (lo + (hi - lo) / 2 + 1) ≤ n := by omega
    generalize lo + (hi - lo) / 2 = mid at hturn hlo hmid hsmall hsmall'
    rcases Int.lt_trichotomy (compare key (elemAddr array size mid)) 0 with hc | hc | hc
    · obtain ⟨r, hr, hrun⟩ := ih lo mid hsmall (h.left ho hs hlo hmid hc)
      refine ⟨_, hr.look (by omega : mid < cnt), fun fuel hf => ?_⟩
      obtain ⟨k, rfl, hk⟩ := hfuel fuel hf
      rw [hturn, if_pos hc, hrun k hk, Option.map_some]
    · refine ⟨(some (elemAddr array size mid), [elemAddr array size mid]), ?_, fun fuel hf => ?_⟩
      · refine ⟨fun a ha => ⟨mid, by omega, List.mem_singleton.mp ha⟩, fun p hp => ?_, ?_⟩
        · cases hp
          exact ⟨mid, by omega, rfl, hc⟩
        · exact iff_of_false nofun fun hall => hall mid (by omega) hc
      · obtain ⟨k, rfl, -⟩ := hfuel fuel hf
        rw [hturn, if_neg (by omega), if_neg (by omega)]
    · obtain ⟨r, hr, hrun⟩ := ih (mid + 1) hi hsmall' (h.right ho hs hmid hc)
      have hnext : sizeT (elemAddr array size mid + size) = elemAddr array size (mid + 1) := by
        have hle : (mid + 1) * size ≤ cnt * size := mul_le_mul_right size (by omega)
        unfold elemAddr sizeT
        rw [add_assoc, ← add_one_mul, mod_eq_of_lt (by omega)]
      refine ⟨_, hr.look (by omega : mid < cnt), fun fuel hf => ?_⟩
      obtain ⟨k, rfl, hk⟩ := hfuel fuel hf
      rw [hturn, if_neg (by omega), if_pos hc, hnext, hrun k hk, Option.map_some]

end Search

/-- **`binary_search` finds what is there.** The array is inside the address space, with the address
    behind its last element, as in C. -/
theorem binary_search_finds (compare : ℕ → ℕ → Int) (key array size cnt : ℕ) (hsize : 0 < size)
    (hb : array + cnt * size < 2 ^ 32) (ho : Ordered compare (Subject key array size cnt))
    (hs : SortedArray compare array size cnt) :
    ∃ r, (∀ fuel, cnt < fuel → binarySearch compare key size fuel array cnt = some r) ∧
      (∀ a ∈ r.2, ∃ i < cnt, a = elemAddr array size i) ∧
      (∀ p, r.1 = some p → ∃ i < cnt, p = elemAddr array size i ∧ compare key p = 0) ∧
      (r.1 = none ↔ ∀ i < cnt, compare key (elemAddr array size i) ≠ 0) := by
  have hstart : Narrowed compare key array size cnt 0 cnt :=
    ⟨zero_le cnt, le_refl cnt, fun i hi => absurd hi (not_lt_zero i),
      fun i hi hic => absurd hic (not_lt.mpr hi)⟩
  obtain ⟨r, hr, hrun⟩ := searchLoop_spec ho hs hsize hb cnt 0 cnt (by omega) hstart
  have hlast : sizeT (array + sizeT (size * cnt)) = elemAddr array size cnt := by
    unfold elemAddr sizeT
    rw [mul_comm size cnt, mod_eq_of_lt (by omega : cnt * size < 2 ^ 32),
      mod_eq_of_lt hb]
  have hfirst : elemAddr array size 0 = array := by
    unfold elemAddr
    rw [zero_mul, add_zero]
  refine ⟨r, fun fuel hfuel => ?_, hr.seen, hr.equal, hr.none_iff⟩
  have hloop := hrun fuel hfuel
  rw [hfirst, ← hlast] at hloop
  exact hloop

/-- Three elements of four bytes at 100; the objects compare as their addresses do. -/
theorem binary_search_finds_three : ∃ r,
    (∀ fuel, 3 < fuel → binarySearch (fun a b => (a : Int) - b) 108 4 fuel 100 3 = some r) ∧
      (r.1 = none ↔ ∀ i < 3, ((108 : ℕ) : Int) - (elemAddr 100 4 i : ℕ) ≠ 0) := by
  have hord : Ordered (fun a b => (a : Int) - b) (Subject 108 100 4 3) :=
    ⟨fun a b _ _ => by omega, fun a b c _ _ _ hab hbc => by omega⟩
  have hsorted : SortedArray (fun a b => (a : Int) - b) 100 4 3 := by
    intro i j hij _
    show ((elemAddr 100 4 i : ℕ) : Int) - (elemAddr 100 4 j : ℕ) ≤ 0
    unfold elemAddr
    omega
  obtain ⟨r, hrun, -, -, hnone⟩ := binary_search_finds (fun a b => (a : Int) - b) 108 100 4 3
    (by decide) (by decide) hord hsorted
  exact ⟨r, hrun, hnone⟩

/-! ## 4. `atoi` -/

/-- `isdigit`. -/
def isDigitChar (c : Char) : Bool := decide (48 ≤ c.toNat ∧ c.toNat ≤ 57)

/-- `isspace`. -/
def isSpaceChar (c : Char) : Bool :=
  c.toNat = 32 || c.toNat = 12 || c.toNat = 10 || c.toNat = 13 || c.toNat = 9 || c.toNat = 11

/-- `for (value = 0; isdigit (*s); s++) value = value * 10 - (*s - '0');`, in an `int`. -/
def atoiLoop : List Char → Int → Int
  | [], value => value
  | c :: s, value =>
    if isDigitChar c then atoiLoop s (Int.bmod (value * 10 - ((c.toNat : Int) - 48)) (2 ^ 32))
    else value

/-- `atoi`, of a string that is not null. -/
def atoi (s : List Char) : Int :=
  match s.dropWhile isSpaceChar with
  | '+' :: s => Int.bmod (-atoiLoop s 0) (2 ^ 32)
  | '-' :: s => atoiLoop s 0
  | s => Int.bmod (-atoiLoop s 0) (2 ^ 32)

end Pintos
