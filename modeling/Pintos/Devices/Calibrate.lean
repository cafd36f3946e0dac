/-
  Subject:   `timer_calibrate` of devices/timer.c, with `too_many_loops` as a threshold.

  * `growLoop` doubles `loops_per_tick` up to the largest power of two that is not above the
    threshold.
  * `refineLoop` then tests nine bits below it. It tests `high_bit | test_bit`, without the bits that
    were accepted before, so every bit from the first accepted one down is accepted.
  * **`calibration_approximates`**: the thresholds for which that is the best approximation.
-/
import Mathlib.Tactic.Linarith
import Mathlib.Data.Nat.Log

namespace Pintos

open Nat

/-! ## 1. The code -/

/-- `too_many_loops`: `threshold` loops fit in a tick. -/
def tooManyLoops (threshold loops : ℕ) : Bool := decide (threshold < loops)

/-- `while (!too_many_loops (loops_per_tick << 1))`. `none`: the fuel is spent, or the assertion
    fails. -/
def growLoop (threshold : ℕ) : ℕ → ℕ → Option ℕ
  | 0, _ => none
  | fuel + 1, loopsPerTick =>
    if tooManyLoops threshold (loopsPerTick * 2 % 2 ^ 32) then some loopsPerTick
    else
      let loopsPerTick := loopsPerTick * 2 % 2 ^ 32
      if loopsPerTick ≠ 0 then growLoop threshold fuel loopsPerTick else none

/-- `for (…; test_bit != high_bit >> 10; test_bit >>= 1)`. -/
def refineLoop (threshold highBit : ℕ) : ℕ → ℕ → ℕ → Option ℕ
  | 0, _, _ => none
  | fuel + 1, testBit, loopsPerTick =>
    if testBit = highBit / 2 ^ 10 then some loopsPerTick
    else
      let loopsPerTick :=
        if tooManyLoops threshold (highBit ||| testBit) then loopsPerTick
        else loopsPerTick ||| testBit
      refineLoop threshold highBit fuel (testBit / 2) loopsPerTick

/-- `timer_calibrate`: the value of `loops_per_tick` at its end. -/
def timerCalibrate (fuel threshold : ℕ) : Option ℕ :=
  (growLoop threshold fuel (2 ^ 10)).bind fun highBit =>
    refineLoop threshold highBit fuel (highBit / 2) highBit

/-! ## 2. The power of two -/

/-- **The first loop** stops at the largest power of two not above the threshold. -/
theorem growLoop_spec {threshold k : ℕ} (hle : 2 ^ k ≤ threshold) (hlt : threshold < 2 ^ (k + 1))
    (hk : k < 31) : ∀ (n j fuel : ℕ), j + n = k → n < fuel →
    growLoop threshold fuel (2 ^ j) = some (2 ^ k)
  | n, j, 0, _, hfuel => absurd hfuel (Nat.not_lt_zero n)
  | 0, j, fuel + 1, hj, _ => by
    obtain rfl : j = k := hj
    have hword : 2 ^ j * 2 % 2 ^ 32 = 2 ^ (j + 1) := by
      rw [← pow_succ]
      exact Nat.mod_eq_of_lt (Nat.pow_lt_pow_right (by decide) (by omega))
    have hmany : tooManyLoops threshold (2 ^ (j + 1)) = true := decide_eq_true hlt
    unfold growLoop
    rw [hword, if_pos hmany]
  | n + 1, j, fuel + 1, hj, hfuel => by
    have hword : 2 ^ j * 2 % 2 ^ 32 = 2 ^ (j + 1) := by
      rw [← pow_succ]
      exact Nat.mod_eq_of_lt (Nat.pow_lt_pow_right (by decide) (by omega))
    have hfit : 2 ^ (j + 1) ≤ threshold :=
      (Nat.pow_le_pow_right (by decide) (by omega)).trans hle
    have hmany : ¬tooManyLoops threshold (2 ^ (j + 1)) = true := by
      unfold tooManyLoops
      rw [decide_eq_true_eq]
      omega
    have hpos : 2 ^ (j + 1) ≠ 0 := Nat.ne_of_gt (Nat.two_pow_pos _)
    unfold growLoop
    rw [hword, if_neg hmany]
    rw [if_pos hpos]
    exact growLoop_spec hle hlt hk n (j + 1) fuel (by omega) (by omega)

/-! ## 3. The bits below it -/

/-- The bits from `j` up that are accepted when `d` loops fit besides the power of two. -/
def acceptedBits (d j : ℕ) : ℕ := if 2 ^ j ≤ d then 2 ^ (Nat.log 2 d + 1) - 2 ^ j else 0

theorem acceptedBits_succ (d j : ℕ) :
    acceptedBits d j = acceptedBits d (j + 1) + if 2 ^ j ≤ d then 2 ^ j else 0 := by
  unfold acceptedBits
  by_cases hj : 2 ^ j ≤ d
  · rw [if_pos hj, if_pos hj]
    by_cases hj' : 2 ^ (j + 1) ≤ d
    · have hlog := lt_pow_succ_log_self (by decide : 1 < 2) d
      rw [if_pos hj']
      omega
    · have hlog : Nat.log 2 d = j := Nat.log_eq_of_pow_le_of_lt_pow hj (Nat.lt_of_not_le hj')
      rw [if_neg hj', hlog]
      omega
  · have hj' : ¬2 ^ (j + 1) ≤ d := fun h =>
      hj ((Nat.pow_le_pow_right (by decide) (Nat.le_succ j)).trans h)
    rw [if_neg hj, if_neg hj', if_neg hj]

theorem dvd_acceptedBits (d j : ℕ) : 2 ^ j ∣ acceptedBits d j := by
  unfold acceptedBits
  split
  · rename_i hj
    have hlog : j ≤ Nat.log 2 d := le_log_of_pow_le (by decide) hj
    exact dvd_sub (pow_dvd_pow 2 (by omega)) (dvd_refl _)
  · exact dvd_zero _

/-- A bit below all others is added. -/
theorem lor_two_pow {l j : ℕ} (h : 2 ^ (j + 1) ∣ l) : l ||| 2 ^ j = l + 2 ^ j := by
  obtain ⟨c, rfl⟩ := h
  exact (Nat.two_pow_add_eq_or_of_lt (Nat.pow_lt_pow_right (by decide) (Nat.lt_succ_self j)) c).symm

variable {b d fuel : ℕ}

/-- **The second loop.** With `2 ^ k + d` as the threshold, a bit is accepted if it is not above
    `d`, whatever was accepted before. -/
theorem refineLoop_spec : ∀ (n fuel : ℕ), n < 10 → n < fuel →
    refineLoop (2 ^ (b + 10) + d) (2 ^ (b + 10)) fuel (2 ^ (b + n))
      (2 ^ (b + 10) + acceptedBits d (b + n + 1)) = some (2 ^ (b + 10) + acceptedBits d (b + 1))
  | n, 0, _, hfuel => absurd hfuel (Nat.not_lt_zero n)
  | 0, fuel + 1, _, _ => by
    have hstop : 2 ^ (b + 0) = 2 ^ (b + 10) / 2 ^ 10 := by
      rw [Nat.pow_div (by omega) (by decide), Nat.add_sub_cancel, Nat.add_zero]
    unfold refineLoop
    rw [if_pos hstop]
  | n + 1, fuel + 1, hn, hfuel => by
    have hgo : 2 ^ (b + (n + 1)) ≠ 2 ^ (b + 10) / 2 ^ 10 := by
      rw [Nat.pow_div (by omega) (by decide), Nat.add_sub_cancel]
      exact Nat.ne_of_gt (Nat.pow_lt_pow_right (by decide) (by omega))
    have hhalf : 2 ^ (b + (n + 1)) / 2 = 2 ^ (b + n) := by
      rw [← Nat.add_assoc, Nat.pow_succ, Nat.mul_div_cancel _ (by decide)]
    have hhigh : 2 ^ (b + (n + 1) + 1) ∣ 2 ^ (b + 10) := pow_dvd_pow 2 (by omega)
    have hcand : 2 ^ (b + 10) ||| 2 ^ (b + (n + 1)) = 2 ^ (b + 10) + 2 ^ (b + (n + 1)) :=
      lor_two_pow hhigh
    have hacc : 2 ^ (b + 10) + acceptedBits d (b + (n + 1) + 1) ||| 2 ^ (b + (n + 1)) =
        2 ^ (b + 10) + acceptedBits d (b + (n + 1) + 1) + 2 ^ (b + (n + 1)) :=
      lor_two_pow (Nat.dvd_add hhigh (dvd_acceptedBits d _))
    have hnext : (if tooManyLoops (2 ^ (b + 10) + d) (2 ^ (b + 10) + 2 ^ (b + (n + 1))) then
          2 ^ (b + 10) + acceptedBits d (b + (n + 1) + 1)
        else 2 ^ (b + 10) + acceptedBits d (b + (n + 1) + 1) + 2 ^ (b + (n + 1))) =
        2 ^ (b + 10) + acceptedBits d (b + n + 1) := by
      rw [add_assoc b n 1, acceptedBits_succ d (b + (n + 1))]
      unfold tooManyLoops
      simp only [decide_eq_true_eq, add_lt_add_iff_left]
      split
      · rw [if_neg (by omega)]
        rfl
      · rw [if_pos (by omega), add_assoc]
    unfold refineLoop
    rw [if_neg hgo]
    rw [hhalf, hcand, hacc, hnext]
    exact refineLoop_spec n fuel (by omega) (by omega)

theorem timerCalibrate_spec (hd : d < 2 ^ (b + 10)) (hb : b < 20) (hfuel : 30 ≤ fuel) :
    timerCalibrate fuel (2 ^ (b + 10) + d) =
      some (2 ^ (b + 10) + acceptedBits d (b + 1)) := by
  have hnext : 2 ^ (b + 10) + d < 2 ^ (b + 10 + 1) := by
    rw [pow_succ 2 (b + 10), mul_two]
    exact Nat.add_lt_add_left hd _
  have hgrow : growLoop (2 ^ (b + 10) + d) fuel (2 ^ 10) = some (2 ^ (b + 10)) :=
    growLoop_spec (le_add_right _ d) hnext (by omega) b 10 fuel (add_comm 10 b) (by omega)
  have hhalf : 2 ^ (b + 10) / 2 = 2 ^ (b + 9) := by
    rw [Nat.pow_succ 2 (b + 9), Nat.mul_div_cancel _ (by decide)]
  have hnone : acceptedBits d (b + 9 + 1) = 0 := if_neg (not_le.mpr hd)
  have hrefine := refineLoop_spec (b := b) (d := d) 9 fuel (by decide) (by omega)
  rw [hnone, add_zero] at hrefine
  unfold timerCalibrate
  rw [hgrow, Option.bind_some, hhalf]
  exact hrefine

/-! ## 4. When it is the best approximation -/

/-- The accepted bits are the best approximation of `d` from below in steps of `2 ^ j` exactly if `d`
    has ones in all its bits from its highest down to `j`. -/
theorem acceptedBits_best (d j : ℕ) :
    (acceptedBits d j ≤ d ∧ d - acceptedBits d j < 2 ^ j) ↔ ∃ m, d / 2 ^ j = 2 ^ m - 1 := by
  unfold acceptedBits
  have hj := Nat.two_pow_pos j
  by_cases hle : 2 ^ j ≤ d
  · have hd : d ≠ 0 := Nat.ne_of_gt (Nat.lt_of_lt_of_le hj hle)
    obtain ⟨e, he⟩ : ∃ e, Nat.log 2 d = j + e :=
      Nat.exists_eq_add_of_le (Nat.le_log_of_pow_le (by decide) hle)
    have hlow := Nat.pow_log_le_self 2 hd
    have hhigh := Nat.lt_pow_succ_log_self (by decide : 1 < 2) d
    rw [he] at hlow hhigh ⊢
    rw [if_pos hle]
    -- the quotient `q` lies between two powers of two
    have hq1 : 2 ^ e ≤ d / 2 ^ j := by
      rw [Nat.le_div_iff_mul_le hj, Nat.mul_comm, ← Nat.pow_add]
      exact hlow
    have hq2 : d / 2 ^ j < 2 ^ (e + 1) := by
      rw [Nat.div_lt_iff_lt_mul hj, Nat.mul_comm, ← Nat.pow_add, ← Nat.add_assoc]
      exact hhigh
    have hbits : 2 ^ (j + e + 1) = 2 ^ j * 2 ^ (e + 1) := by rw [Nat.add_assoc, Nat.pow_add]
    have hdiv := Nat.div_add_mod d (2 ^ j)
    rw [hbits]
    generalize d / 2 ^ j = q at hq1 hq2 hdiv ⊢
    have hones : (2 ^ j * 2 ^ (e + 1) - 2 ^ j ≤ d ∧ d - (2 ^ j * 2 ^ (e + 1) - 2 ^ j) < 2 ^ j) ↔
        q = 2 ^ (e + 1) - 1 := by
      constructor
      · rintro ⟨hsum, -⟩
        have hlt : 2 ^ j * 2 ^ (e + 1) < 2 ^ j * (q + 2) := by
          rw [Nat.mul_add]
          omega
        have hlt' := Nat.lt_of_mul_lt_mul_left hlt
        omega
      · intro hq
        have hsub : 2 ^ j * 2 ^ (e + 1) - 2 ^ j = 2 ^ j * q := by
          rw [hq, Nat.mul_sub, Nat.mul_one]
        rw [hsub]
        omega
    rw [hones]
    constructor
    · intro hq
      exact ⟨e + 1, hq⟩
    · rintro ⟨m, hq⟩
      have hm : m = e + 1 := by
        have hlo : 2 ^ e < 2 ^ m := by omega
        have hhi : 2 ^ m < 2 ^ (e + 2) := by
          rw [Nat.pow_succ 2 (e + 1)]
          omega
        have hlo' := (Nat.pow_lt_pow_iff_right (by decide)).mp hlo
        have hhi' := (Nat.pow_lt_pow_iff_right (by decide)).mp hhi
        omega
      rw [hq, hm]
  · rw [if_neg hle]
    refine iff_of_true ⟨Nat.zero_le d, by omega⟩ ⟨0, ?_⟩
    exact Nat.div_eq_of_lt (Nat.lt_of_not_le hle)

/-- **A calibration that does not overshoot**, and misses less than the last bit it tests. -/
def Calibrated (threshold : ℕ) : Prop :=
  ∃ r, (∀ fuel, 30 ≤ fuel → timerCalibrate fuel threshold = some r) ∧ r ≤ threshold ∧
    threshold - r < 2 ^ (Nat.log 2 threshold - 9)

/-- **When `timer_calibrate` does not overshoot**: the nine bits below the highest bit of the threshold
    are zeros followed by ones. -/
theorem calibration_approximates (threshold : ℕ) (hlo : 1024 ≤ threshold)
    (hhi : threshold < 2 ^ 30) : Calibrated threshold ↔
      ∃ m, (threshold - 2 ^ Nat.log 2 threshold) / 2 ^ (Nat.log 2 threshold - 9) = 2 ^ m - 1 := by
  have hpos : threshold ≠ 0 := by omega
  obtain ⟨b, hb⟩ : ∃ b, Nat.log 2 threshold = b + 10 := by
    have hlog : 10 ≤ Nat.log 2 threshold := le_log_of_pow_le (by decide) hlo
    exact ⟨Nat.log 2 threshold - 10, by omega⟩
  have hlow := pow_log_le_self 2 hpos
  have hhigh := lt_pow_succ_log_self (by decide : 1 < 2) threshold
  have hb20 : b < 20 := by
    have hlt : 2 ^ (b + 10) < 2 ^ 30 := by
      rw [← hb]
      omega
    have hlt' := (Nat.pow_lt_pow_iff_right (by decide)).mp hlt
    omega
  rw [hb] at hlow hhigh
  obtain ⟨d, rfl⟩ := Nat.exists_eq_add_of_le hlow
  have hd : d < 2 ^ (b + 10) := by
    have hdouble : 2 ^ (b + 10).succ = 2 ^ (b + 10) + 2 ^ (b + 10) := by
      rw [succ_eq_add_one, pow_succ 2 (b + 10), mul_two]
    rw [hdouble] at hhigh
    exact lt_of_add_lt_add_left hhigh
  have hbit : b + 10 - 9 = b + 1 := rfl
  rw [hb, Nat.add_sub_cancel_left, hbit, ← acceptedBits_best d (b + 1)]
  unfold Calibrated
  rw [hb, hbit]
  constructor
  · rintro ⟨r, hrun, hle, hnear⟩
    have hr := (hrun 30 (le_refl 30)).symm.trans
      (timerCalibrate_spec hd hb20 (le_refl 30))
    rw [Option.some.inj hr] at hle hnear
    rw [Nat.add_sub_add_left] at hnear
    exact ⟨le_of_add_le_add_left hle, hnear⟩
  · rintro ⟨hle, hnear⟩
    refine ⟨_, fun fuel hfuel => timerCalibrate_spec hd hb20 hfuel, Nat.add_le_add_left hle _, ?_⟩
    rw [Nat.add_sub_add_left]
    exact hnear

theorem calibration_approximates_2047 : Calibrated 2047 := by
  have hlog : Nat.log 2 2047 = 10 := log_eq_of_pow_le_of_lt_pow (by decide) (by decide)
  have hbits : ∀ k, k = 10 → (2047 - 2 ^ k) / 2 ^ (k - 9) = 2 ^ 9 - 1 := by
    rintro _ rfl
    decide
  exact (calibration_approximates 2047 (by decide) (by decide)).mpr ⟨9, hbits _ hlog⟩

/-- The threshold 1536: bit 9 is accepted, and then all bits below it. -/
theorem calibration_overshoots : ¬Calibrated 1536 := by
  rintro ⟨r, hrun, hle, -⟩
  have hr : timerCalibrate 30 1536 = some 2046 := by decide
  have hr' := (hrun 30 (by decide)).symm.trans hr
  rw [Option.some.inj hr'] at hle
  revert hle
  decide

end Pintos
