import Nuttx.Libc.Time.Calendar
import Mathlib.Tactic.IntervalCases

/-!
# Calendar time with `CONFIG_GREGORIAN_TIME`

Without `CONFIG_JULIAN_TIME`. The month of a `struct tm` counts from zero, that of
`clock_calendar2utc` from one, and `mktime` passes the one for the other.
-/

namespace Nuttx.Libc.Time.Gregorian

def jdOfEpoch : Nat := 2440588

def clockUtc2gregorian (jd : Nat) : Nat × Nat × Nat :=
  let l := jd + 68569
  let n := 4 * l / 146097
  let l := l - (146097 * n + 3) / 4
  let i := 4000 * (l + 1) / 1461001
  let l := l - 1461 * i / 4 + 31
  let j := 80 * l / 2447
  let d := l - 2447 * j / 80
  let l := j / 11
  (100 * (n - 49) + i + l, j + 2 - 12 * l, d)

def gmtimeR (timep : UInt32) : Tm :=
  let (year, month, day) := clockUtc2gregorian (timep.toNat / 86400 + jdOfEpoch)
  -- the time of day does not depend on the configuration
  { Time.gmtimeR timep with
    mday := day, mon := month - 1, year := year - 1900, wday := clockDayoftheweek day month year,
    yday := day + clockDaysbeforemonth (month - 1) (clockIsleapyear year) }

def clockGregorian2utc (year month day : Int) : Int :=
  let temp := if month ≤ 2 then -1 else 0
  (1461 * (year + 4800 + temp)).tdiv 4 + (367 * (month - 2 - 12 * temp)).tdiv 12 -
    (3 * (year + 4900 + temp).tdiv 100).tdiv 4 + day - 32075

def clockCalendar2utc (year month day : Int) : Int :=
  let dyear := (month - 1).tdiv 12
  let month := month - 12 * dyear
  let year := year + dyear
  let (year, month) := if month < 1 then (year - 1, month + 12) else (year, month)
  clockGregorian2utc year month day - jdOfEpoch

def mktime (tp : Tm) : UInt32 :=
  let jdn := clockCalendar2utc (tp.year + 1900) tp.mon tp.mday
  UInt32.ofNat ((((jdn * 24 + tp.hour) * 60 + tp.min) * 60 + tp.sec) % 2 ^ 32).toNat

/-- A month too early, to within the rounding of the divisions. -/
theorem clockCalendar2utc_early {days year month day : Nat} (h : days < 49711)
    (hdate : clockUtc2gregorian (days + jdOfEpoch) = (year, month, day)) :
    1900 ≤ year ∧ 1 ≤ days - clockCalendar2utc year (month - 1 : Nat) day ∧
      days - clockCalendar2utc year (month - 1 : Nat) day ≤ 60 := by
  obtain ⟨l, n, l', i, k, j, hl, hn, hl', hi, hk, hj, heq⟩ : ∃ l n l' i k j : Nat,
      l = days + jdOfEpoch + 68569 ∧ n = 4 * l / 146097 ∧ l' = l - (146097 * n + 3) / 4 ∧
      i = 4000 * (l' + 1) / 1461001 ∧ k = l' - 1461 * i / 4 + 31 ∧ j = 80 * k / 2447 ∧
      clockUtc2gregorian (days + jdOfEpoch) =
        (100 * (n - 49) + i + j / 11, j + 2 - 12 * (j / 11), k - 2447 * j / 80) :=
    ⟨_, _, _, _, _, _, rfl, rfl, rfl, rfl, rfl, rfl, rfl⟩
  rw [hdate] at heq
  obtain ⟨rfl, rfl, rfl⟩ : year = _ ∧ month = _ ∧ day = _ := by simpa using heq
  rw [show jdOfEpoch = 2440588 from rfl] at hl
  have hn' : n = 68 ∨ n = 69 ∨ n = 70 := by omega
  have hi' : i < 100 := by omega
  obtain ⟨hpos, hlt⟩ : 0 < j ∧ j < 13 := by omega
  clear hdate heq
  refine ⟨by omega, ?_⟩
  -- the months, from March on
  interval_cases j
  all_goals
    set_option maxRecDepth 2000 in
    simp (disch := omega) [clockCalendar2utc, clockGregorian2utc, jdOfEpoch, Int.tdiv_eq_ediv_of_nonneg]
    omega

theorem gmtimeR_time (t : UInt32) :
    ((gmtimeR t).hour * 60 + (gmtimeR t).min) * 60 + (gmtimeR t).sec = t.toNat % 86400 := by
  dsimp only [gmtimeR, Time.gmtimeR]
  omega

/-- **`mktime` never inverts `gmtime_r`.** -/
theorem mktime_gmtimeR_ne (t : UInt32) : mktime (gmtimeR t) ≠ t := by
  intro heq
  have ht := t.toNat_lt
  have htime := gmtimeR_time t
  obtain ⟨⟨year, month, day⟩, hdate⟩ : ∃ date, clockUtc2gregorian (t.toNat / 86400 + jdOfEpoch) = date :=
    ⟨_, rfl⟩
  obtain ⟨hyear, hlow, hhigh⟩ := clockCalendar2utc_early (by omega) hdate
  have htm : (gmtimeR t).year = year - 1900 ∧ (gmtimeR t).mon = month - 1 ∧ (gmtimeR t).mday = day := by
    rw [gmtimeR, hdate]
    exact ⟨rfl, rfl, rfl⟩
  have hback : ((year - 1900 : Nat) : Int) + 1900 = year := by omega
  have hnat := congrArg UInt32.toNat heq
  rw [mktime, htm.1, htm.2.1, htm.2.2, hback, UInt32.toNat_ofNat'] at hnat
  omega

theorem mktime_gmtimeR_epoch : mktime (gmtimeR 0) = 4292288896 := by
  decide

end Nuttx.Libc.Time.Gregorian
