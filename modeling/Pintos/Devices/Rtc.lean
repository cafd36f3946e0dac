/-
  Subject:   `rtc_get_time` of devices/rtc.c against the Gregorian calendar.

  * The registers are read until the seconds are the same twice: `cmos n r` is what the read with
    number `n` finds in register `r`.
  * `Date` holds valid dates only; `unixTime` counts their seconds by the calendar.
  * The month loop adds the current month to those that are over. The leap years are taken to be 1970,
    1974, 1978 and so on.
  * **`rtc_time_wrong`**: the time is ahead by a month or so, for every date.
-/
import Mathlib.Tactic.Linarith
import Mathlib.Algebra.BigOperators.Group.List.Basic

namespace Pintos

/-! ## 1. The code -/

/-- `bcd_to_bin`. -/
def bcdToBin (x : UInt8) : Int := (x &&& 0x0f).toNat + (x >>> 4).toNat * 10

/-- What is read from the clock; the year is one of a century. -/
structure ClockTime where
  sec : Int
  min : Int
  hour : Int
  mday : Int
  mon : Int
  year : Int

/-- The loop over the registers, with the number of reads so far. -/
def clockLoop (cmos : ℕ → ℕ → UInt8) : (fuel n : ℕ) → Option ClockTime
  | 0, _ => none
  | fuel + 1, n =>
    let sec := bcdToBin (cmos n 0)
    let min := bcdToBin (cmos (n + 1) 2)
    let hour := bcdToBin (cmos (n + 2) 4)
    let mday := bcdToBin (cmos (n + 3) 7)
    let mon := bcdToBin (cmos (n + 4) 8)
    let year := bcdToBin (cmos (n + 5) 9)
    if sec ≠ bcdToBin (cmos (n + 6) 0) then clockLoop cmos fuel (n + 7)
    else some ⟨sec, min, hour, mday, mon, year⟩

/-- `days_per_month`. -/
def daysPerMonth : List ℕ := [31, 28, 31, 30, 31, 30, 31, 31, 30, 31, 30, 31]

/-- One turn of `for (i = 1; i <= mon; i++)`, by `i - 1`. -/
def addMonth (time : Int) (i : ℕ) : Int := time + (daysPerMonth.getD i 0 : ℕ) * 24 * 60 * 60

/-- The seconds, in a `time_t` of 32 bits. -/
def clockSeconds (c : ClockTime) : ℕ :=
  let year := (if c.year < 70 then c.year + 100 else c.year) - 70
  let time := (year * 365 + (year - 1).tdiv 4) * 24 * 60 * 60
  let time := (List.range c.mon.toNat).foldl addMonth time
  let time := if c.mon > 2 ∧ year.tmod 4 = 0 then time + 24 * 60 * 60 else time
  let time := time + (c.mday - 1) * 24 * 60 * 60 + c.hour * 60 * 60 + c.min * 60 + c.sec
  (time % 2 ^ 32).toNat

/-- `rtc_get_time`. -/
def rtcGetTime (cmos : ℕ → ℕ → UInt8) (fuel : ℕ) : Option ℕ :=
  (clockLoop cmos fuel 0).map clockSeconds

/-! ## 2. The calendar -/

def isLeap (year : ℕ) : Bool := year % 4 = 0 ∧ (year % 100 ≠ 0 ∨ year % 400 = 0)

def daysInMonth (year month : ℕ) : ℕ :=
  if month = 2 ∧ isLeap year then 29 else daysPerMonth.getD (month - 1) 0

/-- **A date and time** from 1970 to 2037. -/
structure Date where
  year : ℕ
  month : ℕ
  day : ℕ
  hour : ℕ
  min : ℕ
  sec : ℕ
  years : 1970 ≤ year ∧ year ≤ 2037
  months : 1 ≤ month ∧ month ≤ 12
  days : 1 ≤ day ∧ day ≤ daysInMonth year month
  time : hour < 24 ∧ min < 60 ∧ sec < 60

/-- The days of the years since 1970 and of the months of this year that are over. -/
def daysBefore (year month : ℕ) : ℕ :=
  ((List.range (year - 1970)).map fun k => if isLeap (1970 + k) then 366 else 365).sum +
    ((List.range (month - 1)).map fun k => daysInMonth year (k + 1)).sum

/-- **The seconds since 1970-01-01 00:00:00.** -/
def unixTime (d : Date) : ℕ :=
  (daysBefore d.year d.month + (d.day - 1)) * 86400 + d.hour * 3600 + d.min * 60 + d.sec

/-- A number below 100 in BCD. -/
def toBcd (n : ℕ) : UInt8 := UInt8.ofNat (n / 10 * 16 + n % 10)

/-- The clock shows the date while it is read. -/
structure Shows (cmos : ℕ → ℕ → UInt8) (d : Date) : Prop where
  sec : ∀ n, cmos n 0 = toBcd d.sec
  min : ∀ n, cmos n 2 = toBcd d.min
  hour : ∀ n, cmos n 4 = toBcd d.hour
  mday : ∀ n, cmos n 7 = toBcd d.day
  mon : ∀ n, cmos n 8 = toBcd d.month
  year : ∀ n, cmos n 9 = toBcd (d.year % 100)

/-! ## 3. The difference -/

theorem bcdToBin_toBcd : ∀ n < 100, bcdToBin (toBcd n) = n := by decide

theorem years_sum : ∀ y < 68,
    ((List.range y).map fun k => if isLeap (1970 + k) then 366 else 365).sum =
      365 * y + (y + 1) / 4 := by decide

theorem isLeap_iff : ∀ y < 68, isLeap (1970 + y) = decide (y % 4 = 2) := by decide

theorem leaps_counted : ∀ y : ℕ, y < 68 → ((y : Int) - 1).tdiv 4 = ((y - 1) / 4 : ℕ) ∧
    (y : Int).tmod 4 = (y % 4 : ℕ) := by decide

theorem take_sum : ∀ m < 13, 1 ≤ m → (daysPerMonth.take m).sum =
    (daysPerMonth.take (m - 1)).sum + daysPerMonth.getD (m - 1) 0 ∧
      28 ≤ daysPerMonth.getD (m - 1) 0 ∧ (daysPerMonth.take m).sum ≤ 365 := by decide

theorem foldl_addMonth (m : ℕ) (time : Int) :
    (List.range m).foldl addMonth time = time + (daysPerMonth.take m).sum * 86400 := by
  induction m with
  | zero => simp
  | succ m ih =>
    have hsum : (daysPerMonth.take (m + 1)).sum =
        (daysPerMonth.take m).sum + daysPerMonth.getD m 0 := by
      rw [List.take_add_one, List.sum_append, List.getD_eq_getElem?_getD]
      cases daysPerMonth[m]? <;> rfl
    rw [List.range_succ, List.foldl_append, ih, hsum, List.foldl_cons, List.foldl_nil, addMonth]
    omega

theorem months_sum : ∀ m < 13, 1 ≤ m → ∀ leap : Bool, ((List.range (m - 1)).map fun k =>
    if k + 1 = 2 ∧ leap then 29 else daysPerMonth.getD (k + 1 - 1) 0).sum =
      (daysPerMonth.take (m - 1)).sum + if m > 2 ∧ leap then 1 else 0 := by decide

theorem Date.day_le (d : Date) : d.day ≤ 31 := by
  have hall : ∀ k < 12, daysPerMonth.getD k 0 ≤ 31 := by decide
  have hm := d.months
  refine Nat.le_trans d.days.2 ?_
  unfold daysInMonth
  split
  · decide
  · exact hall _ (by omega)

/-- **The code is ahead of the calendar** by at least 26 days. -/
theorem clockSeconds_ahead (d : Date) : unixTime d + 26 * 86400 ≤
    clockSeconds ⟨d.sec, d.min, d.hour, d.day, d.month, (d.year % 100 : ℕ)⟩ := by
  have hday := d.day_le
  obtain ⟨year, month, day, hour, min, sec, hy, hm, hd, ht⟩ := d
  dsimp only at hday
  obtain ⟨y, rfl⟩ : ∃ y, year = 1970 + y := ⟨year - 1970, by omega⟩
  have hyear : (if (((1970 + y) % 100 : ℕ) : Int) < 70 then (((1970 + y) % 100 : ℕ) : Int) + 100
      else ((1970 + y) % 100 : ℕ)) - 70 = y := by
    split <;> omega
  obtain ⟨hdiv, hmod⟩ := leaps_counted y (by omega)
  obtain ⟨htake, hlong, hmax⟩ := take_sum month (by omega) hm.1
  unfold clockSeconds unixTime daysBefore daysInMonth
  dsimp only
  rw [hyear, hdiv, hmod, Int.toNat_natCast, foldl_addMonth, Nat.add_sub_cancel_left,
    years_sum y (by omega), months_sum month (by omega) hm.1, isLeap_iff y (by omega), htake]
  simp only [decide_eq_true_eq]
  generalize daysPerMonth.getD (month - 1) 0 = cur at *
  generalize (daysPerMonth.take (month - 1)).sum = before at *
  -- the sum has room in a `time_t`
  split <;> split <;> rw [Int.emod_eq_of_lt (by omega) (by omega)] <;> omega

theorem clockLoop_shows {cmos : ℕ → ℕ → UInt8} {d : Date} (h : Shows cmos d) (fuel : ℕ) :
    clockLoop cmos (fuel + 1) 0 =
      some ⟨d.sec, d.min, d.hour, d.day, d.month, (d.year % 100 : ℕ)⟩ := by
  have hday := d.day_le
  obtain ⟨h1, h2, h3⟩ := d.time
  have hm := d.months
  unfold clockLoop
  simp only [h.sec, h.min, h.hour, h.mday, h.mon, h.year, ne_eq, not_true_eq_false, if_false]
  rw [bcdToBin_toBcd _ (by omega), bcdToBin_toBcd _ (by omega), bcdToBin_toBcd _ (by omega),
    bcdToBin_toBcd _ (by omega), bcdToBin_toBcd _ (by omega),
    bcdToBin_toBcd _ (Nat.mod_lt _ (by decide))]

/-- **The time is never right**, whatever date the clock shows. -/
theorem rtc_time_wrong {cmos : ℕ → ℕ → UInt8} (d : Date) (h : Shows cmos d) (fuel : ℕ) :
    ∃ time, rtcGetTime cmos (fuel + 1) = some time ∧ time ≠ unixTime d := by
  have hahead := clockSeconds_ahead d
  refine ⟨_, congrArg (Option.map clockSeconds) (clockLoop_shows h fuel), ?_⟩
  omega

/-- A clock that stands still. -/
def clockAt (d : Date) (_ : ℕ) : ℕ → UInt8
  | 0 => toBcd d.sec
  | 2 => toBcd d.min
  | 4 => toBcd d.hour
  | 7 => toBcd d.day
  | 8 => toBcd d.month
  | _ => toBcd (d.year % 100)

/-- A day of 1970, at midnight. -/
def epochDay (month day : ℕ) (months : 1 ≤ month ∧ month ≤ 12)
    (days : 1 ≤ day ∧ day ≤ daysInMonth 1970 month) : Date :=
  ⟨1970, month, day, 0, 0, 0, by decide, months, days, by decide⟩

theorem rtc_time_wrong_epoch : ∃ time,
    rtcGetTime (clockAt (epochDay 1 1 (by decide) (by decide))) 1 = some time ∧
      time ≠ unixTime (epochDay 1 1 (by decide) (by decide)) :=
  rtc_time_wrong _ ⟨fun _ => rfl, fun _ => rfl, fun _ => rfl, fun _ => rfl, fun _ => rfl,
    fun _ => rfl⟩ 0

/-- 1970-01-01 is read as 1970-02-01, and time runs back from the last of January to the first of
    February. -/
theorem rtc_runs_back :
    rtcGetTime (clockAt (epochDay 1 1 (by decide) (by decide))) 1 = some (31 * 86400) ∧
      unixTime (epochDay 1 1 (by decide) (by decide)) = 0 ∧
      rtcGetTime (clockAt (epochDay 1 31 (by decide) (by decide))) 1 = some (61 * 86400) ∧
      rtcGetTime (clockAt (epochDay 2 1 (by decide) (by decide))) 1 = some (59 * 86400) := by
  decide

end Pintos
