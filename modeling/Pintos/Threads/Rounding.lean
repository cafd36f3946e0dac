/-
  Subject:   How the load average and `recent_cpu` are reported (`fp_convert_to_int`,
             `thread_get_load_avg`, `thread_get_recent_cpu` in threads/thread.c).

  * `fp_convert_to_int` is to round to the nearest integer: half a unit is added to what is not
    negative and taken from what is. Its test `x&1024*1024*1024*2==0` groups as
    `x & (1024*1024*1024*2 == 0)`, the constant wraps to -2^31, and so the test is `x & 0`: every
    value takes the branch for negative ones.
  * So a negative value is rounded to the nearest, and a positive one toward the integer below, from
    half a unit above it on.
  * **`reports_rounded_iff`** says for which values the answer is within half a unit all the same.
-/
import Pintos.Threads.BsdBounds

namespace Pintos

/-! ## 1. The conversions -/

/-- `fp_convert_to_int`. -/
def fpConvertToInt (x : Int) : Int :=
  -- `1024*1024*1024*2==0` is evaluated first, and is 0 or 1
  let isZero : Int := if int32 (int32 (int32 (1024 * 1024) * 1024) * 2) = 0 then 1 else 0
  if BitVec.ofInt 32 x &&& BitVec.ofInt 32 isZero ≠ 0#32 then
    (int32 (x + fpFormat.tdiv 2)).tdiv fpFormat
  else (int32 (x - fpFormat.tdiv 2)).tdiv fpFormat

/-- `thread_get_load_avg`. -/
def threadGetLoadAvg (s : Sched) : Int := fpConvertToInt (fpMult s.loadAvg 100 .int)

/-- `thread_get_recent_cpu`. -/
def threadGetRecentCpu (s : Sched) : Int :=
  fpConvertToInt (fpMult (s.thr s.running).recentCpu 100 .int)

/-- **The test of the sign never succeeds.** -/
theorem fpConvertToInt_eq (x : Int) : fpConvertToInt x = (int32 (x - 8192)).tdiv 16384 := by
  unfold fpConvertToInt
  have htest : (if int32 (int32 (int32 (1024 * 1024) * 1024) * 2) = 0 then 1 else 0 : Int) = 0 := by
    decide
  have hmask : BitVec.ofInt 32 x &&& BitVec.ofInt 32 0 = 0#32 := by simp
  simp only [htest, hmask, ne_eq, not_true_eq_false, if_false]
  rfl

/-! ## 2. The distance to the exact value -/

/-- **Where subtracting half a unit rounds to the nearest**: up to half a unit, and half-way between
    two integers. -/
def RoundsNearest (x : Int) : Prop := x ≤ 2 ^ 13 ∨ x % 2 ^ 14 = 2 ^ 13

instance (x : Int) : Decidable (RoundsNearest x) := inferInstanceAs (Decidable (_ ∨ _))

theorem convert_within_iff {x : Int} (hlow : -2 ^ 31 + 2 ^ 13 ≤ x) (hhigh : x < 2 ^ 31) :
    |fpConvertToInt x * 2 ^ 14 - x| ≤ 2 ^ 13 ↔ RoundsNearest x := by
  unfold RoundsNearest
  rw [fpConvertToInt_eq, int32_eq (by omega), abs_le]
  rcases Int.le_total 0 (x - 8192) with hx | hx
  · rw [Int.tdiv_eq_ediv_of_nonneg hx]
    omega
  · rw [tdiv_of_nonpos hx]
    omega

/-- An integer comes back unless it is positive; then it comes back one too small. -/
theorem convert_roundTrip_iff {n : Int} (h : |n| < 2 ^ 17) :
    fpConvertToInt (fpConvertToFp n) = n ↔ n ≤ 0 := by
  rw [abs_lt] at h
  have hfp : fpConvertToFp n = n * 16384 := int32_eq (by unfold fpFormat; omega)
  rw [hfp, fpConvertToInt_eq, int32_eq (by omega)]
  rcases Int.le_total 0 (n * 16384 - 8192) with hx | hx
  · rw [Int.tdiv_eq_ediv_of_nonneg hx]
    omega
  · rw [tdiv_of_nonpos hx]
    omega

/-- **When the reports are rounded to the nearest**: a hundred times the value is at most half a
    unit, or half-way between two integers; and an integer survives the two conversions exactly if
    it is not positive. -/
theorem reports_rounded_iff (s : Sched) (n : Int) :
    (0 ≤ 100 * s.loadAvg → 100 * s.loadAvg < 2 ^ 31 →
      (|threadGetLoadAvg s * 2 ^ 14 - 100 * s.loadAvg| ≤ 2 ^ 13 ↔
        RoundsNearest (100 * s.loadAvg))) ∧ (|100 * (s.thr s.running).recentCpu| < 2 ^ 31 - 2 ^ 13 →
      (|threadGetRecentCpu s * 2 ^ 14 - 100 * (s.thr s.running).recentCpu| ≤ 2 ^ 13 ↔
        RoundsNearest (100 * (s.thr s.running).recentCpu))) ∧
    (|n| < 2 ^ 17 → (fpConvertToInt (fpConvertToFp n) = n ↔ n ≤ 0)) := by
  refine ⟨fun h0 h1 => ?_, fun h => ?_, fun h => convert_roundTrip_iff h⟩
  · have hmult : fpMult s.loadAvg 100 .int = 100 * s.loadAvg := by
      rw [(fpMult_int (by omega)).2, Int.mul_comm]
    unfold threadGetLoadAvg
    rw [hmult]
    exact convert_within_iff (by omega) h1
  · rw [abs_lt] at h
    have hmult : fpMult (s.thr s.running).recentCpu 100 .int =
        100 * (s.thr s.running).recentCpu := by
      rw [(fpMult_int (by omega)).2, Int.mul_comm]
    unfold threadGetRecentCpu
    rw [hmult]
    exact convert_within_iff (by omega) (by omega)

/-- A load average of 1/8 is reported as 0.12, half a unit below it, and a `recent_cpu` of -3 as -3.00. -/
theorem reports_rounded_eighth : ∃ s : Sched, s.loadAvg = 2 ^ 11 ∧ threadGetLoadAvg s = 12 ∧
    |threadGetLoadAvg s * 2 ^ 14 - 100 * s.loadAvg| ≤ 2 ^ 13 ∧
    (s.thr s.running).recentCpu = fpConvertToFp (-3) ∧ threadGetRecentCpu s = -300 ∧
    |threadGetRecentCpu s * 2 ^ 14 - 100 * (s.thr s.running).recentCpu| ≤ 2 ^ 13 ∧
    fpConvertToInt (fpConvertToFp (-1)) = -1 := by
  let s : Sched := { (threadInit true false).modify 0 fun th =>
    { th with recentCpu := fpConvertToFp (-3) } with loadAvg := 2 ^ 11 }
  have hiff := reports_rounded_iff s (-1)
  exact ⟨s, rfl, by decide, (hiff.1 (by decide) (by decide)).mpr (by decide), by decide, by decide,
    (hiff.2.1 (by decide)).mpr (by decide), (hiff.2.2 (by decide)).mpr (by decide)⟩

/-- A load average of exactly 1 is reported as 0.99. -/
theorem load_of_one_reported : ∃ s : Sched, s.loadAvg = fpConvertToFp 1 ∧
    threadGetLoadAvg s = 99 ∧ ¬|threadGetLoadAvg s * 2 ^ 14 - 100 * s.loadAvg| ≤ 2 ^ 13 :=
  ⟨{ threadInit true false with loadAvg := fpConvertToFp 1 }, rfl, by decide, by decide⟩

end Pintos
