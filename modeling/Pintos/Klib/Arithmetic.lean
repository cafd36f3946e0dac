/-
  Subject:   The 64-bit division routines of lib/arithmetic.c.

  * `divl` is the instruction: `none` is a divide error (#DE).
  * A wide divisor is normalised and truncated, and the quotient of the halved dividend by it is an
    estimate for the quotient, exact or one too large, which `udiv64` corrects.
  * `umod64` and `smod64` return 32 bits of a 64-bit remainder.
  * **`division64`**: the quotients are right for all operands, and no `divl` traps;
  * **`remainder64_iff`**: the remainders are right exactly when they fit.
-/
import Mathlib.Tactic.Linarith
import Mathlib.Tactic.Ring

namespace Pintos

open BitVec Nat

/-! ## 1. The code -/

/-- `divl`: a divide error if the divisor is zero or the quotient has more than 32 bits. -/
def divl (n : BitVec 64) (d : BitVec 32) : Option (BitVec 32) :=
  if d ≠ 0#32 ∧ n.toNat / d.toNat < 2 ^ 32 then some (BitVec.ofNat 32 (n.toNat / d.toNat)) else none

/-- One test of `nlz`: if the upper `k` bits are clear, they are counted and shifted out. -/
def nlzStep (limit : BitVec 32) (k : ℕ) (p : ℕ × BitVec 32) : ℕ × BitVec 32 :=
  if p.2 ≤ limit then (p.1 + k, p.2 <<< k) else p

/-- `nlz`: the number of leading zero bits. -/
def nlz (x : BitVec 32) : ℕ :=
  let p := nlzStep 0x0000FFFF#32 16 (0, x)
  let p := nlzStep 0x00FFFFFF#32 8 p
  let p := nlzStep 0x0FFFFFFF#32 4 p
  let p := nlzStep 0x3FFFFFFF#32 2 p
  if p.2 ≤ 0x7FFFFFFF#32 then p.1 + 1 else p.1

variable (n d : BitVec 64)

/-- `udiv64`. -/
def udiv64 : Option (BitVec 64) :=
  if d >>> 32 = 0#64 then
    let b := 1#64 <<< 32
    let n1 := (n >>> 32).setWidth 32
    let n0 := n.setWidth 32
    let d0 := d.setWidth 32
    (divl (b * (n1 % d0).setWidth 64 + n0.setWidth 64) d0).map fun q =>
      q.setWidth 64 + b * (n1 / d0).setWidth 64
  else if n < d then some 0#64
  else
    let d1 := (d >>> 32).setWidth 32
    let s := nlz d1
    (divl (n >>> 1) (((d <<< s) >>> 32).setWidth 32)).map fun (e : BitVec 32) =>
      let q := (e >>> (31 - s)).setWidth 64
      if n - (q - 1#64) * d < d then q - 1#64 else q

/-- `umod64`, which returns a `uint32_t`. -/
def umod64 : Option (BitVec 32) :=
  (udiv64 n d).map fun q => (n - d * q).setWidth 32

/-- The absolute value, as an unsigned number. -/
def abs64 (n : BitVec 64) : BitVec 64 := if 0 ≤ n.toInt then n else -n

/-- `sdiv64`. -/
def sdiv64 : Option (BitVec 64) :=
  (udiv64 (abs64 n) (abs64 d)).map fun q =>
    if decide (n.toInt < 0) = decide (d.toInt < 0) then q else -q

/-- `smod64`, which returns an `int32_t`. -/
def smod64 : Option (BitVec 32) :=
  (sdiv64 n d).map fun q => (n - d * q).setWidth 32

/-- `__divdi3`. -/
def divdi3 : Option (BitVec 64) := sdiv64 n d

/-- `__moddi3`: the result of `smod64` is sign-extended. -/
def moddi3 : Option (BitVec 64) := (smod64 n d).map (·.signExtend 64)

/-- `__udivdi3`. -/
def udivdi3 : Option (BitVec 64) := udiv64 n d

/-- `__umoddi3`: the result of `umod64` is zero-extended. -/
def umoddi3 : Option (BitVec 64) := (umod64 n d).map (·.setWidth 64)

variable {n d}

/-! ## 2. The number of leading zeros -/

theorem divl_eq {n : BitVec 64} {d : BitVec 32} (hd : 0 < d.toNat)
    (hq : n.toNat < d.toNat * 2 ^ 32) : ∃ q, divl n d = some q ∧ q.toNat = n.toNat / d.toNat := by
  have hlt : n.toNat / d.toNat < 2 ^ 32 := Nat.div_lt_of_lt_mul hq
  have hne : d ≠ 0#32 := by
    rintro rfl
    exact absurd hd (by decide)
  refine ⟨BitVec.ofNat 32 (n.toNat / d.toNat), if_pos ⟨hne, hlt⟩, ?_⟩
  rw [toNat_ofNat]
  exact mod_eq_of_lt hlt

/-- **One test.** The number stands shifted by what has been counted, and afterwards one of its
    upper `k` bits is set. -/
theorem nlzStep_spec {x : ℕ} {p : ℕ × BitVec 32} (limit : BitVec 32) (k : ℕ) {lo : ℕ}
    (hlim : limit.toNat + 1 = 2 ^ (32 - k)) (hk : k ≤ 32) (hlo : lo * 2 ^ k = 2 ^ (32 - k))
    (hp : p.2.toNat = x * 2 ^ p.1) (hle : lo ≤ p.2.toNat) :
    (nlzStep limit k p).2.toNat = x * 2 ^ (nlzStep limit k p).1 ∧
      2 ^ (32 - k) ≤ (nlzStep limit k p).2.toNat ∧ (nlzStep limit k p).1 ≤ p.1 + k := by
  unfold nlzStep
  by_cases h : p.2 ≤ limit
  · rw [if_pos h]
    have hsmall : p.2.toNat * 2 ^ k < 2 ^ 32 := by
      have hlt : p.2.toNat < 2 ^ (32 - k) := by
        rw [le_def] at h
        omega
      calc p.2.toNat * 2 ^ k < 2 ^ (32 - k) * 2 ^ k :=
            Nat.mul_lt_mul_of_pos_right hlt (Nat.two_pow_pos k)
        _ = 2 ^ 32 := by rw [← pow_add, Nat.sub_add_cancel hk]
    have hshift : (p.2 <<< k).toNat = p.2.toNat * 2 ^ k := by
      rw [toNat_shiftLeft, Nat.shiftLeft_eq]
      exact mod_eq_of_lt hsmall
    refine ⟨?_, ?_, le_refl _⟩
    · rw [hshift, hp, pow_add, mul_assoc]
    · rw [hshift, ← hlo]
      exact mul_le_mul_right _ hle
  · rw [if_neg h]
    rw [le_def] at h
    exact ⟨hp, by omega, le_add_right _ _⟩

theorem nlz_spec {x : BitVec 32} (hx : 0 < x.toNat) :
    nlz x ≤ 31 ∧ 2 ^ 31 ≤ x.toNat * 2 ^ nlz x ∧ x.toNat * 2 ^ nlz x < 2 ^ 32 := by
  have h16 := nlzStep_spec (x := x.toNat) (p := (0, x)) 0x0000FFFF#32 16
    (by decide) (by decide) (show 1 * 2 ^ 16 = 2 ^ (32 - 16) by decide)
    (by rw [pow_zero, mul_one]) hx
  have h8 := nlzStep_spec 0x00FFFFFF#32 8 (by decide) (by decide) (by decide)
    h16.1 h16.2.1
  have h4 := nlzStep_spec 0x0FFFFFFF#32 4 (by decide) (by decide) (by decide)
    h8.1 h8.2.1
  have h2 := nlzStep_spec 0x3FFFFFFF#32 2 (by decide) (by decide) (by decide)
    h4.1 h4.2.1
  have hcount := h16.2.2
  simp only at hcount
  unfold nlz
  simp only
  generalize nlzStep 0x3FFFFFFF#32 2 (nlzStep 0x0FFFFFFF#32 4 (nlzStep 0x00FFFFFF#32 8
    (nlzStep 0x0000FFFF#32 16 (0, x)))) = p at *
  have hlim : (0x7FFFFFFF#32).toNat = 2 ^ 31 - 1 := rfl
  by_cases h : p.2 ≤ 0x7FFFFFFF#32
  · rw [if_pos h]
    rw [le_def, hlim] at h
    rw [pow_succ 2 p.1, ← mul_assoc, ← h2.1]
    omega
  · rw [if_neg h]
    rw [le_def, hlim] at h
    rw [← h2.1]
    omega

/-! ## 3. The estimate -/

variable {d n s w : ℕ}

/-- A divisor that is a little too small gives a quotient that is at most one too large. -/
theorem div_truncated (hw : 0 < w) (hle : w ≤ d) (herr : n * (d - w) < w * d) :
    n / d ≤ n / w ∧ n / w ≤ n / d + 1 := by
  refine ⟨div_le_div_left hle hw, ?_⟩
  by_contra hmore
  have hw2 : (n / d + 2) * w ≤ n := (le_div_iff_mul_le hw).mp (by omega)
  have hd2 : n < (n / d + 1) * d := by
    rw [Nat.add_mul, Nat.one_mul]
    exact lt_div_mul_add (by omega)
  obtain ⟨e, rfl⟩ := Nat.exists_eq_add_of_le hle
  rw [Nat.add_sub_cancel_left] at herr
  nlinarith

/-- **The estimate**: with `s` leading zeros in the upper half of the divisor, dividing the halved
    dividend by the upper half of the shifted divisor. -/
theorem estimate_bounds (hn : n < 2 ^ 64) (hs : s ≤ 31) (hlo : 2 ^ 63 ≤ d * 2 ^ s)
    (hhi : d * 2 ^ s < 2 ^ 64) :
    n / 2 < d * 2 ^ s / 2 ^ 32 * 2 ^ 32 ∧ n / d ≤ n / 2 / (d * 2 ^ s / 2 ^ 32) / 2 ^ (31 - s) ∧
      n / 2 / (d * 2 ^ s / 2 ^ 32) / 2 ^ (31 - s) ≤ n / d + 1 := by
  obtain ⟨v, hv⟩ : ∃ v, v = d * 2 ^ s / 2 ^ 32 := ⟨_, rfl⟩
  obtain ⟨P, hP⟩ : ∃ P, P = 2 ^ (31 - s) := ⟨_, rfl⟩
  have hPpos : 1 ≤ P := hP ▸ Nat.two_pow_pos _
  have hunit : 2 * P * 2 ^ s = 2 ^ 32 := by
    rw [hP, ← pow_succ', ← pow_add]
    congr 1
    omega
  rw [← hv, ← hP]
  have hfloor : v * 2 ^ 32 ≤ d * 2 ^ s := by omega
  have hceil : d * 2 ^ s < (v + 1) * 2 ^ 32 := by omega
  -- `w` is the divisor with all but its upper 32 bits cleared
  obtain ⟨w, hw⟩ : ∃ w, w = 2 * v * P := ⟨_, rfl⟩
  have hspos : 0 < 2 ^ s := Nat.two_pow_pos s
  have hle : w ≤ d := by
    refine Nat.le_of_mul_le_mul_right ?_ hspos
    calc w * 2 ^ s = v * (2 * P * 2 ^ s) := by rw [hw]; ring
      _ ≤ d * 2 ^ s := by rw [hunit]; exact hfloor
  have hgap : d < w + 2 * P := by
    refine Nat.lt_of_mul_lt_mul_right (a := 2 ^ s) ?_
    calc d * 2 ^ s < (v + 1) * (2 * P * 2 ^ s) := by rw [hunit]; exact hceil
      _ = (w + 2 * P) * 2 ^ s := by rw [hw]; ring
  have hwlo : 2 ^ 32 * P ≤ w := by
    rw [hw]
    exact Nat.mul_le_mul_right P (by omega)
  have herr : n * (d - w) < w * d := by
    have hsq : d - w ≤ P * P := by
      have : 2 * P ≤ P * P + 1 := by nlinarith
      omega
    calc n * (d - w) ≤ n * (P * P) := Nat.mul_le_mul_left n hsq
      _ < 2 ^ 64 * (P * P) := Nat.mul_lt_mul_of_pos_right hn (Nat.mul_pos hPpos hPpos)
      _ = 2 ^ 32 * P * (2 ^ 32 * P) := by ring
      _ ≤ w * d := Nat.mul_le_mul hwlo (Nat.le_trans hwlo hle)
  have hdiv : n / 2 / v / P = n / w := by
    rw [Nat.div_div_eq_div_mul, Nat.div_div_eq_div_mul, hw, Nat.mul_assoc]
  refine ⟨by omega, ?_⟩
  rw [hdiv]
  exact div_truncated (by omega) hle herr

/-! ## 4. The unsigned quotient -/

variable {n d : BitVec 64}

theorem upper_toNat (n : BitVec 64) : ((n >>> 32).setWidth 32).toNat = n.toNat / 2 ^ 32 := by
  rw [toNat_setWidth, toNat_ushiftRight, shiftRight_eq_div_pow]
  exact mod_eq_of_lt (by omega)

theorem div_oneDigit (b n1 n0 d : ℕ) (hd : 0 < d) :
    (b * n1 + n0) / d = (b * (n1 % d) + n0) / d + b * (n1 / d) := by
  have hsplit : b * n1 + n0 = (b * (n1 % d) + n0) + d * (b * (n1 / d)) := by
    have hn1 := mod_add_div n1 d
    calc b * n1 + n0 = b * (n1 % d + d * (n1 / d)) + n0 := by rw [hn1]
      _ = (b * (n1 % d) + n0) + d * (b * (n1 / d)) := by ring
  rw [hsplit, add_mul_div_left _ _ hd]

theorem udiv64_narrow (hd : 0 < d.toNat) (hsmall : d.toNat < 2 ^ 32) :
    ∃ q, udiv64 n d = some q ∧ q.toNat = n.toNat / d.toNat := by
  obtain ⟨n1, hn1⟩ : ∃ n1, n1 = n.toNat / 2 ^ 32 := ⟨_, rfl⟩
  obtain ⟨n0, hn0⟩ : ∃ n0, n0 = n.toNat % 2 ^ 32 := ⟨_, rfl⟩
  obtain ⟨d0, hd0⟩ : ∃ d0, d0 = d.toNat := ⟨_, rfl⟩
  have hnow : n.toNat = 2 ^ 32 * n1 + n0 := by omega
  have hupper : d >>> 32 = 0#64 := by
    apply eq_of_toNat_eq
    rw [toNat_ushiftRight, shiftRight_eq_div_pow]
    exact div_eq_of_lt hsmall
  have hrem : n1 % d0 < d0 := mod_lt _ (by omega)
  have hb : (1#64 <<< 32).toNat = 2 ^ 32 := rfl
  have hd0' : (d.setWidth 32).toNat = d0 := by
    rw [toNat_setWidth, hd0]
    exact mod_eq_of_lt hsmall
  have hdividend : (1#64 <<< 32 * ((n >>> 32).setWidth 32 % d.setWidth 32).setWidth 64 +
      (n.setWidth 32).setWidth 64).toNat = 2 ^ 32 * (n1 % d0) + n0 := by
    rw [toNat_add, toNat_mul, hb, toNat_setWidth, toNat_umod,
      upper_toNat, hd0', toNat_setWidth, toNat_setWidth, ← hn1, ← hn0]
    omega
  obtain ⟨q, hq, hqv⟩ := divl_eq (d := d.setWidth 32)
    (n := 1#64 <<< 32 * ((n >>> 32).setWidth 32 % d.setWidth 32).setWidth 64 +
      (n.setWidth 32).setWidth 64) (by omega) (by rw [hdividend, hd0']; omega)
  rw [hdividend, hd0'] at hqv
  have hquot : n1 / d0 ≤ n1 := div_le_self _ _
  unfold udiv64
  rw [if_pos hupper]
  dsimp only
  rw [hq]
  refine ⟨_, rfl, ?_⟩
  rw [toNat_add, toNat_mul, hb, toNat_setWidth, toNat_setWidth,
    toNat_udiv, upper_toNat, hd0', ← hn1, ← hd0, hnow, div_oneDigit _ _ _ _ (by omega),
    ← hqv]
  omega

theorem udiv64_wide (hlarge : 2 ^ 32 ≤ d.toNat) :
    ∃ q, udiv64 n d = some q ∧ q.toNat = n.toNat / d.toNat := by
  have hn := n.isLt
  have hupper : d >>> 32 ≠ 0#64 := by
    intro h
    have hzero := congrArg BitVec.toNat h
    rw [toNat_ushiftRight, shiftRight_eq_div_pow] at hzero
    have hzero : d.toNat / 2 ^ 32 = 0 := hzero
    omega
  unfold udiv64
  rw [if_neg hupper]
  by_cases hless : n < d
  · rw [if_pos hless]
    refine ⟨_, rfl, ?_⟩
    rw [lt_def] at hless
    exact (div_eq_of_lt hless).symm
  rw [if_neg hless]
  rw [lt_def] at hless
  have hd1 := upper_toNat d
  obtain ⟨hs, hlo, hhi⟩ := nlz_spec (x := (d >>> 32).setWidth 32) (by omega)
  dsimp only
  generalize nlz ((d >>> 32).setWidth 32) = s at *
  rw [hd1] at hlo hhi
  have hspos : 0 < 2 ^ s := Nat.two_pow_pos s
  have hlo' : 2 ^ 63 ≤ d.toNat * 2 ^ s := by
    calc 2 ^ 63 ≤ 2 ^ 32 * (d.toNat / 2 ^ 32 * 2 ^ s) := by omega
      _ = d.toNat / 2 ^ 32 * 2 ^ 32 * 2 ^ s := by ring
      _ ≤ d.toNat * 2 ^ s := mul_le_mul_right _ (div_mul_le_self _ _)
  have hhi' : d.toNat * 2 ^ s < 2 ^ 64 := by
    -- the bits below the upper half do not carry into it
    have hsucc : (d.toNat / 2 ^ 32 + 1) * 2 ^ s ≤ 2 ^ 32 := by
      have hsplit : 2 ^ 32 = 2 ^ (32 - s) * 2 ^ s := by
        rw [← pow_add]
        congr 1
        omega
      rw [hsplit] at hhi ⊢
      exact Nat.mul_le_mul_right _ (Nat.lt_of_mul_lt_mul_right hhi)
    calc d.toNat * 2 ^ s < (d.toNat / 2 ^ 32 + 1) * 2 ^ 32 * 2 ^ s :=
          mul_lt_mul_of_pos_right (by omega) hspos
      _ = (d.toNat / 2 ^ 32 + 1) * 2 ^ s * 2 ^ 32 := by ring
      _ ≤ 2 ^ 32 * 2 ^ 32 := mul_le_mul_right _ hsucc
      _ = 2 ^ 64 := by norm_num
  obtain ⟨hfit, hest, hest'⟩ := estimate_bounds hn hs hlo' hhi'
  have hnorm : (((d <<< s) >>> 32).setWidth 32).toNat = d.toNat * 2 ^ s / 2 ^ 32 := by
    rw [upper_toNat, toNat_shiftLeft, Nat.shiftLeft_eq, Nat.mod_eq_of_lt hhi']
  have hhalf : (n >>> 1).toNat = n.toNat / 2 := by
    rw [toNat_ushiftRight, shiftRight_eq_div_pow, pow_one]
  obtain ⟨e, he, hev⟩ := divl_eq (n := n >>> 1) (d := ((d <<< s) >>> 32).setWidth 32)
    (by rw [hnorm]; omega) (by rw [hnorm, hhalf]; exact hfit)
  rw [he]
  refine ⟨_, rfl, ?_⟩
  have hq : ((e >>> (31 - s)).setWidth 64).toNat =
      n.toNat / 2 / (d.toNat * 2 ^ s / 2 ^ 32) / 2 ^ (31 - s) := by
    rw [toNat_setWidth, mod_eq_of_lt (by omega), toNat_ushiftRight,
      shiftRight_eq_div_pow, hev, hnorm, hhalf]
  rw [← hq] at hest hest'
  dsimp only
  generalize (e >>> (31 - s)).setWidth 64 = q at *
  have hpos : 1 ≤ n.toNat / d.toNat := (one_le_div_iff (by omega)).mpr (by omega)
  have hquot : n.toNat / d.toNat * d.toNat ≤ n.toNat := div_mul_le_self _ _
  have hpred : (q - 1#64).toNat = q.toNat - 1 := by
    rw [toNat_sub_of_le (by rw [le_def]; exact le_trans hpos hest)]
    rfl
  have hprod : (q.toNat - 1) * d.toNat ≤ n.toNat :=
    le_trans (mul_le_mul_right _ (by omega)) hquot
  have hmul : ((q - 1#64) * d).toNat = (q.toNat - 1) * d.toNat := by
    rw [toNat_mul, hpred]
    exact mod_eq_of_lt (by omega)
  have hrem : (n - (q - 1#64) * d).toNat = n.toNat - (q.toNat - 1) * d.toNat := by
    rw [toNat_sub_of_le (by rw [le_def, hmul]; exact hprod), hmul]
  have hmod := div_add_mod n.toNat d.toNat
  have hmodlt := mod_lt n.toNat (show 0 < d.toNat by omega)
  rcases eq_or_lt_of_le hest with heq | hgt
  · -- the estimate is the quotient: one less leaves a remainder of `d` or more
    rw [if_neg]
    · exact heq.symm
    · rw [lt_def, hrem, ← heq, Nat.sub_mul, Nat.one_mul]
      rw [mul_comm] at hmod
      have := Nat.le_mul_of_pos_left d.toNat hpos
      omega
  · -- the estimate is one too large
    have hone : q.toNat - 1 = n.toNat / d.toNat := by omega
    rw [if_pos]
    · rw [hpred, hone]
    · rw [lt_def, hrem, hone]
      rw [mul_comm] at hmod
      omega

theorem udiv64_spec (hd : d ≠ 0#64) : ∃ q, udiv64 n d = some q ∧ q.toNat = n.toNat / d.toNat := by
  have hpos : 0 < d.toNat := by
    rcases Nat.eq_zero_or_pos d.toNat with h | h
    · exact absurd (eq_of_toNat_eq h) hd
    · exact h
  rcases lt_or_ge d.toNat (2 ^ 32) with hlt | hge
  · exact udiv64_narrow hpos hlt
  · exact udiv64_wide hge

/-! ## 5. The signed quotient -/

theorem abs64_toNat (n : BitVec 64) : (abs64 n).toNat = n.toInt.natAbs := by
  have hv := toInt_eq_toNat_cond n
  unfold abs64
  split
  · split at hv <;> omega
  · rw [toNat_neg]
    split at hv <;> omega

theorem abs64_ne_zero (hd : d ≠ 0#64) : abs64 d ≠ 0#64 := by
  intro h
  have hz : d.toInt.natAbs = 0 := by rw [← abs64_toNat, h]; rfl
  exact hd (eq_of_toInt_eq (Int.natAbs_eq_zero.mp hz))

/-- Truncated division is division of the absolute values, with the sign. -/
theorem tdiv_eq_natAbs (a b : ℤ) : a.tdiv b =
    if decide (a < 0) = decide (b < 0) then ((a.natAbs / b.natAbs : ℕ) : ℤ)
    else -((a.natAbs / b.natAbs : ℕ) : ℤ) := by
  rw [Int.ofNat_tdiv]
  rcases lt_or_ge a 0 with ha | ha <;> rcases lt_or_ge b 0 with hb | hb
  · rw [if_pos (by rw [decide_eq_true ha, decide_eq_true hb]), Int.ofNat_natAbs_of_nonpos ha.le,
      Int.ofNat_natAbs_of_nonpos hb.le, Int.neg_tdiv, Int.tdiv_neg, Int.neg_neg]
  · rw [if_neg (by rw [decide_eq_true ha, decide_eq_false hb.not_gt]; decide),
      Int.ofNat_natAbs_of_nonpos ha.le, Int.natAbs_of_nonneg hb, Int.neg_tdiv, Int.neg_neg]
  · rw [if_neg (by rw [decide_eq_true hb, decide_eq_false ha.not_gt]; decide),
      Int.natAbs_of_nonneg ha, Int.ofNat_natAbs_of_nonpos hb.le, Int.tdiv_neg, Int.neg_neg]
  · rw [if_pos (by rw [decide_eq_false ha.not_gt, decide_eq_false hb.not_gt]),
      Int.natAbs_of_nonneg ha, Int.natAbs_of_nonneg hb]

theorem sdiv64_spec (hd : d ≠ 0#64) :
    sdiv64 n d = some (BitVec.ofInt 64 (n.toInt.tdiv d.toInt)) := by
  obtain ⟨q, hq, hv⟩ := udiv64_spec (n := abs64 n) (abs64_ne_zero hd)
  rw [abs64_toNat, abs64_toNat] at hv
  have hqi : q = BitVec.ofInt 64 ((n.toInt.natAbs / d.toInt.natAbs : ℕ) : ℤ) := by
    rw [← hv, ofInt_natCast, ofNat_toNat, setWidth_eq]
  unfold sdiv64
  rw [hq, tdiv_eq_natAbs, Option.map_some]
  split
  · rw [← hqi]
  · rw [ofInt_neg, ← hqi]

/-- **64-bit division.** For every divisor but zero the quotients are right, and no `divl` traps. -/
theorem division64 (n d : BitVec 64) (hd : d ≠ 0#64) :
    (∃ q, udivdi3 n d = some q ∧ q.toNat = n.toNat / d.toNat) ∧
      divdi3 n d = some (BitVec.ofInt 64 (n.toInt.tdiv d.toInt)) :=
  ⟨udiv64_spec hd, sdiv64_spec hd⟩

/-- The least number divided by -1 wraps around to itself. -/
theorem division64_least : (1#64 <<< 63) ≠ 0#64 ∧
    divdi3 (1#64 <<< 63) (-1#64) = some (1#64 <<< 63) := by
  refine ⟨by decide, (division64 (1#64 <<< 63) (-1#64) (by decide)).2.trans ?_⟩
  decide

/-! ## 6. The remainders -/

/-- **The law of the unsigned remainder.** -/
def UnsignedLaw (n d : BitVec 64) : Prop :=
  ∃ q r, udivdi3 n d = some q ∧ umoddi3 n d = some r ∧ r.toNat = n.toNat % d.toNat ∧ d * q + r = n

/-- **The law of the signed remainder.** -/
def SignedLaw (n d : BitVec 64) : Prop :=
  ∃ q r, divdi3 n d = some q ∧ moddi3 n d = some r ∧
    r.toInt = n.toInt - d.toInt * n.toInt.tdiv d.toInt ∧ d * q + r = n

theorem umoddi3_eq (hd : d ≠ 0#64) : ∃ q r, udivdi3 n d = some q ∧ umoddi3 n d = some r ∧
    (n - d * q).toNat = n.toNat % d.toNat ∧ r.toNat = n.toNat % d.toNat % 2 ^ 32 := by
  obtain ⟨q, hq, hv⟩ := udiv64_spec (n := n) hd
  have hmul : (d * q).toNat = d.toNat * (n.toNat / d.toNat) := by
    have hle := mul_div_le n.toNat d.toNat
    rw [toNat_mul, hv]
    exact mod_eq_of_lt (by omega)
  have hrem : (n - d * q).toNat = n.toNat % d.toNat := by
    have hmod := div_add_mod n.toNat d.toNat
    rw [toNat_sub_of_le (by rw [le_def, hmul]; omega), hmul]
    omega
  refine ⟨q, ((n - d * q).setWidth 32).setWidth 64, hq, ?_, hrem, ?_⟩
  · unfold umoddi3 umod64
    rw [hq]
    rfl
  · rw [toNat_setWidth, toNat_setWidth, hrem]
    exact mod_eq_of_lt (by omega)

theorem moddi3_eq (hd : d ≠ 0#64) : ∃ q r, divdi3 n d = some q ∧ moddi3 n d = some r ∧
    n - d * q = BitVec.ofInt 64 (n.toInt - d.toInt * n.toInt.tdiv d.toInt) ∧
    r.toInt = (n.toInt - d.toInt * n.toInt.tdiv d.toInt).bmod (2 ^ 32) := by
  have hq := sdiv64_spec (n := n) hd
  generalize n.toInt.tdiv d.toInt = t at *
  have hrem : n - d * BitVec.ofInt 64 t = BitVec.ofInt 64 (n.toInt - d.toInt * t) := by
    rw [sub_eq_add_neg, Int.sub_eq_add_neg, ofInt_add, ofInt_neg, ofInt_mul,
      ofInt_toInt, ofInt_toInt]
  refine ⟨BitVec.ofInt 64 t, ((n - d * BitVec.ofInt 64 t).setWidth 32).signExtend 64, hq, ?_,
    hrem, ?_⟩
  · unfold moddi3 smod64
    rw [hq]
    rfl
  · rw [toInt_signExtend_of_le (by decide), hrem, toInt_setWidth]
    generalize n.toInt - d.toInt * t = m
    rw [toNat_ofInt, Int.toNat_of_nonneg (Int.emod_nonneg _ (by decide)), ← Int.emod_bmod,
      Int.emod_emod_of_dvd _ (by decide), Int.emod_bmod]

/-- The remainder is below a bound exactly if the dividend is that close above some multiple. -/
theorem emod_lt_iff {a b c : ℤ} (hb : b ≠ 0) : a % b < c ↔ ∃ k, b * k ≤ a ∧ a < b * k + c := by
  have hdiv := Int.mul_ediv_add_emod a b
  have hnn := Int.emod_nonneg a hb
  refine ⟨fun h => ⟨a / b, by omega, by omega⟩, fun ⟨k, h1, h2⟩ => ?_⟩
  have hle : a % b ≤ a - b * k := by
    have hmod : (a - b * k) % |b| = a % b := by rw [Int.emod_abs, Int.sub_mul_emod_self_left]
    have hdiv' := Int.mul_ediv_add_emod (a - b * k) |b|
    have hquot : 0 ≤ |b| * ((a - b * k) / |b|) :=
      mul_nonneg (abs_nonneg b) (Int.ediv_nonneg (by omega) (abs_nonneg b))
    omega
  omega

/-- **When the remainders are right**: when the dividend is less than 2^32 above a multiple of the
    divisor; for signed operands, when it is less than 2^31 above one, or, if negative, at most 2^31
    below one. -/
theorem remainder64_iff (n d : BitVec 64) (hd : d ≠ 0#64) :
    (UnsignedLaw n d ↔ ∃ k, d.toNat * k ≤ n.toNat ∧ n.toNat < d.toNat * k + 2 ^ 32) ∧
    (SignedLaw n d ↔
      (0 ≤ n.toInt ∧ ∃ k, d.toInt * k ≤ n.toInt ∧ n.toInt < d.toInt * k + 2 ^ 31) ∨
      (n.toInt < 0 ∧ ∃ k, n.toInt ≤ d.toInt * k ∧ d.toInt * k ≤ n.toInt + 2 ^ 31)) := by
  obtain ⟨q, r, hq, hr, hrem, hrv⟩ := umoddi3_eq (n := n) hd
  obtain ⟨q', r', hq', hr', hrem', hrv'⟩ := moddi3_eq (n := n) hd
  have hd0 : d.toInt ≠ 0 := fun h => hd (eq_of_toInt_eq h)
  constructor
  · have hlaw : UnsignedLaw n d ↔ n.toNat % d.toNat < 2 ^ 32 := by
      constructor
      · rintro ⟨q₁, r₁, -, hr1, hval, -⟩
        cases hr.symm.trans hr1
        omega
      · intro hlt
        have hsame : r = n - d * q := eq_of_toNat_eq (by omega)
        refine ⟨q, r, hq, hr, by omega, ?_⟩
        rw [hsame, BitVec.add_comm, BitVec.sub_add_cancel]
    rw [hlaw]
    have hint := emod_lt_iff (a := n.toNat) (b := d.toNat) (c := 2 ^ 32)
      (fun h => hd (eq_of_toNat_eq (Int.natCast_eq_zero.mp h)))
    rw [← Int.natCast_emod] at hint
    refine ⟨fun h => ⟨n.toNat / d.toNat, mul_div_le _ _, ?_⟩, fun ⟨k, h1, h2⟩ => ?_⟩
    · have := div_add_mod n.toNat d.toNat
      omega
    · exact_mod_cast hint.mpr ⟨k, by exact_mod_cast h1, by exact_mod_cast h2⟩
  · obtain ⟨m, hm⟩ : ∃ m, m = n.toInt - d.toInt * n.toInt.tdiv d.toInt := ⟨_, rfl⟩
    rw [← hm] at hrem' hrv'
    have hlaw : SignedLaw n d ↔ -2 ^ 31 ≤ m ∧ m < 2 ^ 31 := by
      constructor
      · rintro ⟨q₁, r₁, -, hr1, hval, -⟩
        cases hr'.symm.trans hr1
        rw [← hm] at hval
        rw [← hval, hrv']
        have h1 := Int.le_bmod (x := m) (m := 2 ^ 32) (by decide)
        have h2 := Int.bmod_lt (x := m) (m := 2 ^ 32) (by decide)
        norm_num at h1 h2 ⊢
        exact ⟨h1, h2⟩
      · rintro ⟨h1, h2⟩
        have hval : r'.toInt = m := by
          rw [hrv']
          exact Int.bmod_eq_of_le (by norm_num; omega) (by norm_num; omega)
        have hsame : r' = n - d * q' := by
          rw [hrem', ← hval, ofInt_toInt]
        refine ⟨q', r', hq', hr', by rw [hval, hm], ?_⟩
        rw [hsame, BitVec.add_comm, BitVec.sub_add_cancel]
    have hmod : m = n.toInt.tmod d.toInt := by rw [hm, Int.tmod_def]
    rw [hlaw]
    rcases lt_or_ge n.toInt 0 with hneg | hpos
    · -- the remainder of the absolute value, with a minus sign
      have hv : m = -(-n.toInt % d.toInt) := by
        rw [hmod, ← Int.neg_neg n.toInt, Int.neg_tmod, Int.tmod_eq_emod_of_nonneg (by omega),
          Int.neg_neg]
      have hnn := Int.emod_nonneg (-n.toInt) hd0
      have hiff := emod_lt_iff (a := -n.toInt) (b := d.toInt) (c := 2 ^ 31 + 1) hd0
      constructor
      · intro h
        obtain ⟨k, h1, h2⟩ := hiff.mp (by omega)
        refine .inr ⟨hneg, -k, ?_, ?_⟩ <;> rw [mul_neg] <;> omega
      · rintro (⟨h0, -⟩ | ⟨-, k, h1, h2⟩)
        · omega
        · have hlt := hiff.mpr ⟨-k, by rw [mul_neg]; omega, by rw [mul_neg]; omega⟩
          omega
    · have hv : m = n.toInt % d.toInt := by rw [hmod, Int.tmod_eq_emod_of_nonneg hpos]
      have hnn := Int.emod_nonneg n.toInt hd0
      have hiff := emod_lt_iff (a := n.toInt) (b := d.toInt) (c := 2 ^ 31) hd0
      constructor
      · intro h
        exact .inl ⟨hpos, hiff.mp (by omega)⟩
      · rintro (⟨-, hk⟩ | ⟨h0, -⟩)
        · have hlt := hiff.mpr hk
          omega
        · omega

/-- 7 divided by 2. -/
theorem remainder64_seven : 2#64 ≠ 0#64 ∧ UnsignedLaw 7#64 2#64 ∧ SignedLaw 7#64 2#64 := by
  have hne : 2#64 ≠ 0#64 := by decide
  obtain ⟨hu, hs⟩ := remainder64_iff 7#64 2#64 hne
  exact ⟨hne, hu.mpr ⟨3, by decide, by decide⟩,
    hs.mpr (.inl ⟨by decide, 3, by decide, by decide⟩)⟩

/-- **2^33 - 1 modulo 2^33 comes out as 2^32 - 1, and, signed, as -1.** -/
theorem remainder64_truncated : umoddi3 0x1FFFFFFFF#64 0x200000000#64 = some 0xFFFFFFFF#64 ∧
    moddi3 0x1FFFFFFFF#64 0x200000000#64 = some (-1#64) ∧
    ¬ UnsignedLaw 0x1FFFFFFFF#64 0x200000000#64 ∧ ¬ SignedLaw 0x1FFFFFFFF#64 0x200000000#64 := by
  have hu : umoddi3 0x1FFFFFFFF#64 0x200000000#64 = some 0xFFFFFFFF#64 := by decide
  have hs : moddi3 0x1FFFFFFFF#64 0x200000000#64 = some (-1#64) := by decide
  refine ⟨hu, hs, ?_, ?_⟩
  · rintro ⟨q, r, -, hr, hval, -⟩
    cases hu.symm.trans hr
    exact absurd hval (by decide)
  · rintro ⟨q, r, -, hr, hval, -⟩
    cases hs.symm.trans hr
    exact absurd hval (by decide)

end Pintos
