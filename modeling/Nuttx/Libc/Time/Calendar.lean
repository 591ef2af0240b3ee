import Mathlib.Data.BitVec

/-!
# Calendar time

`gmtime_r` and `mktime` without `CONFIG_GREGORIAN_TIME`, for times from 1970 on: a `time_t` is a
`uint32_t`, and the numbers that come up are not negative.
-/

namespace Nuttx.Libc.Time

structure Tm where
  sec : Nat
  min : Nat
  hour : Nat
  mday : Nat
  mon : Nat
  year : Nat
  wday : Nat
  yday : Nat
  deriving DecidableEq, Repr

def clockIsleapyear (year : Nat) : Bool :=
  if year % 400 ≠ 0 then if year % 100 ≠ 0 then if year % 4 ≠ 0 then false else true else false
  else true

def daysBeforeMonthTable : List Nat := [0, 31, 59, 90, 120, 151, 181, 212, 243, 273, 304, 334, 365]

def clockDaysbeforemonth (month : Nat) (leapyear : Bool) : Nat :=
  let retval := daysBeforeMonthTable.getD month 0
  if month ≥ 2 ∧ leapyear then retval + 1 else retval

def clockDayoftheweek (mday month year : Nat) : Nat :=
  let (month, year) := if month ≤ 2 then (month + 12, year - 1) else (month, year)
  let month := month - 2
  (mday + year + year / 4 - year / 100 + year / 400 + 31 * month / 12) % 7

def daysInYear (value : Nat) : Nat := if clockIsleapyear (value + 1970) then 366 else 365

def yearLoop : Nat → Nat → Nat → Nat × Nat
  | 0, days, value => (days, value)
  | fuel + 1, days, value =>
    if days ≥ daysInYear value then yearLoop fuel (days - daysInYear value) (value + 1)
    else (days, value)

def monthLoop (days : Nat) (leapyear : Bool) : Nat → Nat → Nat → Nat
  | 0, min, _ => min
  | fuel + 1, min, max =>
    let value := (min + max) / 2
    if clockDaysbeforemonth (value + 1) leapyear > days then
      if clockDaysbeforemonth value leapyear > days then
        if min < value - 1 then monthLoop days leapyear fuel min (value - 1) else min
      else value
    else if value + 1 < max then monthLoop days leapyear fuel (value + 1) max
    else value + 1

def clockUtc2calendar (days : Nat) : Nat × Nat × Nat :=
  let value := days / (4 * 365 + 1)
  let days := days - value * (4 * 365 + 1)
  let (days, value) := yearLoop days days (value * 4)
  let leapyear := clockIsleapyear (value + 1970)
  let month := monthLoop days leapyear 12 0 11
  (1970 + value, month + 1, days - clockDaysbeforemonth month leapyear + 1)

def gmtimeR (timep : UInt32) : Tm :=
  let epoch := timep.toNat
  let jdn := epoch / 86400
  let epoch := epoch - 86400 * jdn
  let hour := epoch / 3600
  let epoch := epoch - 3600 * hour
  let min := epoch / 60
  let sec := epoch - 60 * min
  let (year, month, day) := clockUtc2calendar jdn
  { sec, min, hour, mday := day, mon := month - 1, year := year - 1900,
    wday := clockDayoftheweek day month year,
    yday := day + clockDaysbeforemonth (month - 1) (clockIsleapyear year) }

def clockCalendar2utc (year month day : Nat) : Nat :=
  (year - 1970) * 365 + (year - 1969) / 4 + clockDaysbeforemonth month (clockIsleapyear year) + (day - 1)

def mktime (tp : Tm) : UInt32 :=
  let jdn := clockCalendar2utc (tp.year + 1900) tp.mon tp.mday
  UInt32.ofNat (((jdn * 24 + tp.hour) * 60 + tp.min) * 60 + tp.sec)

def IsLeap (year : Nat) : Prop := 4 ∣ year ∧ (100 ∣ year → 400 ∣ year)

instance (year : Nat) : Decidable (IsLeap year) := inferInstanceAs (Decidable (_ ∧ _))

def monthDays (year month : Nat) : Nat :=
  if month = 1 then if IsLeap year then 29 else 28
  else if month = 3 ∨ month = 5 ∨ month = 8 ∨ month = 10 then 30
  else 31

def daysBefore (year : Nat) : Nat → Nat
  | 0 => 0
  | month + 1 => daysBefore year month + monthDays year month

def daysOfYears : Nat → Nat
  | 0 => 0
  | n + 1 => daysOfYears n + daysBefore (1970 + n) 12

structure IsDate (days year month day : Nat) : Prop where
  epoch : 1970 ≤ year
  inYear : month < 12
  inMonth : 1 ≤ day ∧ day ≤ monthDays year month
  count : daysOfYears (year - 1970) + daysBefore year month + (day - 1) = days

structure RightButYday (t : UInt32) : Prop where
  date : IsDate (t.toNat / 86400) ((gmtimeR t).year + 1900) (gmtimeR t).mon (gmtimeR t).mday
  wday : (gmtimeR t).wday = (t.toNat / 86400 + 4) % 7
  hour : (gmtimeR t).hour < 24
  min : (gmtimeR t).min < 60
  sec : (gmtimeR t).sec < 60
  time : (gmtimeR t).hour * 3600 + (gmtimeR t).min * 60 + (gmtimeR t).sec = t.toNat % 86400
  back : mktime (gmtimeR t) = t

structure Right (t : UInt32) : Prop extends RightButYday t where
  yday : daysOfYears ((gmtimeR t).year + 1900 - 1970) + (gmtimeR t).yday = t.toNat / 86400

end Nuttx.Libc.Time
