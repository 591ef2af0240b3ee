import Nuttx.Libc.Time.Calendar

/-!
# Where the calendar is right

Years go in groups of four with one leap year each until the group of 2100. From 2102-01-02 on the
forward direction is a day late, and from 2101-01-01 on the backward direction counts a day too
many.
-/

namespace Nuttx.Libc.Time

theorem year_table : ∀ n < 142, daysInYear n = daysBefore (1970 + n) 12 ∧
    daysOfYears n + (if n ≤ 130 then 0 else 1) = n * 365 + (n + 1) / 4 := by
  decide +kernel

theorem daysInYear_pos (value : Nat) : 0 < daysInYear value := by
  rw [daysInYear]
  split_ifs <;> decide

variable {days month : Nat}

theorem yearLoop_spec {fuel value : Nat} (hfuel : days ≤ fuel)
    (hrange : daysOfYears value + days < daysOfYears 141) (hvalue : value < 141) :
    (yearLoop fuel days value).2 < 141 ∧
      (yearLoop fuel days value).1 < daysInYear (yearLoop fuel days value).2 ∧
      daysOfYears (yearLoop fuel days value).2 + (yearLoop fuel days value).1 =
        daysOfYears value + days := by
  induction fuel generalizing days value with
  | zero =>
    have hpos := daysInYear_pos value
    have hzero : days = 0 := Nat.le_zero.mp hfuel
    rw [hzero]
    exact ⟨hvalue, hpos, rfl⟩
  | succ fuel ih =>
    rw [yearLoop]
    have hpos := daysInYear_pos value
    have hyear := (year_table value (by omega)).1
    have hnext : daysOfYears (value + 1) = daysOfYears value + daysInYear value := by
      rw [daysOfYears, hyear]
    split_ifs with hdays
    · have hlt : value + 1 < 141 := by
        rcases Nat.lt_or_ge (value + 1) 141 with hlt | hge
        · exact hlt
        · have : value + 1 = 141 := by omega
          rw [this] at hnext
          omega
      have hless : days - daysInYear value ≤ fuel := by omega
      have hrest : daysOfYears (value + 1) + (days - daysInYear value) = daysOfYears value + days := by
        omega
      rw [← hrest] at hrange ⊢
      exact ih hless hrange hlt
    · exact ⟨hvalue, Nat.lt_of_not_le hdays, rfl⟩

theorem month_table : ∀ n < 141, ∀ month < 13,
    clockDaysbeforemonth month (clockIsleapyear (1970 + n)) = daysBefore (1970 + n) month ∧
      daysBefore (1970 + n) month ≤ (if n = 130 then 365 else 366) ∧
      (month < 12 → clockDayoftheweek 1 (month + 1) (1970 + n) =
        (daysOfYears n + daysBefore (1970 + n) month + 4) % 7) := by
  decide +kernel

theorem clockDaysbeforemonth_eq {n : Nat} (hn : n < 141) (hmonth : month < 13) :
    clockDaysbeforemonth month (clockIsleapyear (1970 + n)) = daysBefore (1970 + n) month :=
  (month_table n hn month hmonth).1

theorem monthLoop_spec : ∀ leapyear : Bool, ∀ days < (if leapyear then 366 else 365),
    monthLoop days leapyear 12 0 11 < 12 ∧
      clockDaysbeforemonth (monthLoop days leapyear 12 0 11) leapyear ≤ days ∧
      days < clockDaysbeforemonth (monthLoop days leapyear 12 0 11 + 1) leapyear := by
  decide +kernel

def late (days : Nat) : Nat := if days < 48213 then 0 else 1

theorem yearLoop_days (hdays : days < 49711) :
    ∃ rem value, yearLoop (days - days / 1461 * 1461) (days - days / 1461 * 1461) (days / 1461 * 4) =
      (rem, value) ∧ value < 141 ∧ rem < daysInYear value ∧
        daysOfYears value + rem = days - late days := by
  have hcycle : daysOfYears (days / 1461 * 4) + (days - days / 1461 * 1461) = days - late days := by
    have hclosed := (year_table (days / 1461 * 4) (by omega)).2
    have hlate : late days = if days / 1461 * 4 ≤ 130 then 0 else 1 := by
      rw [late]
      split_ifs <;> omega
    rw [hlate]
    split_ifs at hclosed ⊢ <;> omega
  have htop := (year_table 141 (by decide)).2
  rw [if_neg (by decide)] at htop
  have hrange : daysOfYears (days / 1461 * 4) + (days - days / 1461 * 1461) < daysOfYears 141 := by
    omega
  obtain ⟨hyear, hrem, hsum⟩ := yearLoop_spec le_rfl hrange (by omega)
  exact ⟨_, _, rfl, hyear, hrem, hsum.trans hcycle⟩

theorem clockUtc2calendar_spec (hdays : days < 49711) :
    ∃ value month day, clockUtc2calendar days = (1970 + value, month + 1, day) ∧ value < 141 ∧
      IsDate (days - late days) (1970 + value) month day := by
  obtain ⟨rem, value, hloop, hvalue, hrem, hsum⟩ := yearLoop_days hdays
  have hleap : rem < (if clockIsleapyear (1970 + value) then 366 else 365) := by
    rw [daysInYear, Nat.add_comm] at hrem
    exact hrem
  obtain ⟨hmonth, hbefore, hafter⟩ := monthLoop_spec _ rem hleap
  generalize hm : monthLoop rem (clockIsleapyear (1970 + value)) 12 0 11 = month at *
  rw [clockDaysbeforemonth_eq hvalue (by omega)] at hbefore hafter
  refine ⟨value, month, rem - daysBefore (1970 + value) month + 1, ?_, hvalue, ?_⟩
  · have hunfold : clockUtc2calendar days =
        (1970 + value, monthLoop rem (clockIsleapyear (value + 1970)) 12 0 11 + 1,
          rem - clockDaysbeforemonth (monthLoop rem (clockIsleapyear (value + 1970)) 12 0 11)
            (clockIsleapyear (value + 1970)) + 1) := by
      simp only [clockUtc2calendar, Nat.reduceMul, Nat.reduceAdd, hloop]
    rw [hunfold, Nat.add_comm value, hm, clockDaysbeforemonth_eq hvalue (by omega)]
  · rw [daysBefore] at hafter
    constructor
    case epoch => omega
    case inYear => exact hmonth
    case inMonth => omega
    case count =>
      rw [Nat.add_sub_cancel_left, ← hsum]
      omega

theorem clockDayoftheweek_add (day month year : Nat) (hday : 1 ≤ day) :
    clockDayoftheweek day month year = (clockDayoftheweek 1 month year + (day - 1)) % 7 := by
  -- what the year and the month contribute, with the centuries taken off
  have hstep : ∀ y a b c : Nat, b ≤ y →
      (day + y + a - b + c) % 7 = ((1 + y + a - b + c) % 7 + (day - 1)) % 7 := by
    intro y a b c hb
    omega
  rw [clockDayoftheweek, clockDayoftheweek]
  split_ifs
  all_goals
    dsimp only
    rw [Nat.add_assoc, Nat.add_assoc (1 + _ + _ - _)]
    exact hstep _ _ _ _ (Nat.div_le_self _ _)

theorem clockCalendar2utc_of_isDate {value day : Nat} (hvalue : value < 141)
    (h : IsDate days (1970 + value) month day) :
    clockCalendar2utc (1970 + value) month day = days + (if days < 47847 then 0 else 1) := by
  have hyear := (year_table value (by omega)).2
  have hmonth := clockDaysbeforemonth_eq hvalue (Nat.lt_succ_of_lt h.inYear)
  have hle := (month_table value hvalue (month + 1) (Nat.succ_lt_succ h.inYear)).2.1
  have hcount := h.count
  have hday := h.inMonth
  rw [daysBefore] at hle
  rw [Nat.add_sub_cancel_left] at hcount
  -- the days before 2101 are those of the years up to 130
  have hcentury : days < 47847 ↔ value ≤ 130 := by
    split_ifs at hyear hle <;> omega
  rw [clockCalendar2utc, hmonth, Nat.add_sub_cancel_left]
  split_ifs at hyear ⊢ <;> omega

theorem gmtimeR_eq {t : UInt32} {year day : Nat}
    (h : clockUtc2calendar (t.toNat / 86400) = (year, month + 1, day)) :
    gmtimeR t =
      { sec := t.toNat % 60, min := t.toNat % 3600 / 60, hour := t.toNat % 86400 / 3600,
        mday := day, mon := month, year := year - 1900,
        wday := clockDayoftheweek day (month + 1) year,
        yday := day + clockDaysbeforemonth month (clockIsleapyear year) } := by
  simp only [gmtimeR, h, Nat.add_sub_cancel, Tm.mk.injEq, and_true]
  omega

theorem gmtimeR_spec (t : UInt32) :
    ∃ value month day, gmtimeR t =
      { sec := t.toNat % 60, min := t.toNat % 3600 / 60, hour := t.toNat % 86400 / 3600,
        mday := day, mon := month, year := 70 + value,
        wday := (t.toNat / 86400 - late (t.toNat / 86400) + 4) % 7,
        yday := day + daysBefore (1970 + value) month } ∧ value < 141 ∧
      IsDate (t.toNat / 86400 - late (t.toNat / 86400)) (1970 + value) month day := by
  have hdays : t.toNat / 86400 < 49711 := by
    have hlt := t.toNat_lt
    omega
  obtain ⟨value, month, day, hcalendar, hvalue, hdate⟩ := clockUtc2calendar_spec hdays
  refine ⟨value, month, day, ?_, hvalue, hdate⟩
  have hfirst := (month_table value hvalue month (Nat.lt_succ_of_lt hdate.inYear)).2.2 hdate.inYear
  rw [gmtimeR_eq hcalendar, clockDayoftheweek_add day _ _ hdate.inMonth.1, hfirst, ← hdate.count,
    Nat.add_sub_cancel_left, clockDaysbeforemonth_eq hvalue (Nat.lt_succ_of_lt hdate.inYear)]
  simp only [Tm.mk.injEq, and_true, true_and]
  omega

theorem seconds_eq (days n : Nat) :
    ((days * 24 + n % 86400 / 3600) * 60 + n % 3600 / 60) * 60 + n % 60 = days * 86400 + n % 86400 := by
  omega

theorem mktime_gmtimeR_iff (t : UInt32) :
    mktime (gmtimeR t) = t ↔ t.toNat / 86400 < 47847 ∨ 48213 ≤ t.toNat / 86400 := by
  obtain ⟨value, month, day, hgmtime, hvalue, hdate⟩ := gmtimeR_spec t
  have hback := clockCalendar2utc_of_isDate hvalue hdate
  have hyear : 70 + value + 1900 = 1970 + value := by omega
  have hmktime : mktime (gmtimeR t) = UInt32.ofNat
      (clockCalendar2utc (1970 + value) month day * 86400 + t.toNat % 86400) := by
    rw [hgmtime, mktime, ← seconds_eq, ← hyear]
  rw [hmktime, hback, ← UInt32.toNat_inj, UInt32.toNat_ofNat']
  have hlt := t.toNat_lt
  generalize t.toNat = n at hlt ⊢
  have hlate : late (n / 86400) = if n / 86400 < 48213 then 0 else 1 := rfl
  rw [hlate]
  by_cases hfirst : n / 86400 < 47847
  · have hsecond : n / 86400 < 48213 := by omega
    rw [if_pos hsecond, Nat.sub_zero, if_pos hfirst]
    omega
  by_cases hsecond : n / 86400 < 48213
  · rw [if_pos hsecond, Nat.sub_zero, if_neg hfirst]
    omega
  · have hthird : ¬ n / 86400 - 1 < 47847 := by omega
    rw [if_neg hsecond, if_neg hthird]
    omega

/-- **The calendar** is never right in all its fields, because `tm_yday` counts from one; the other
fields and the way back are right exactly before 2101-01-01. -/
theorem gmtime_right_iff (t : UInt32) :
    (Right t ↔ False) ∧ (RightButYday t ↔ t.toNat < 4133980800) := by
  obtain ⟨value, month, day, hgmtime, hvalue, hdate⟩ := gmtimeR_spec t
  have hyear : 70 + value + 1900 = 1970 + value := by omega
  have hback := mktime_gmtimeR_iff t
  have hlate : late (t.toNat / 86400) = if t.toNat / 86400 < 48213 then 0 else 1 := rfl
  have hbut : RightButYday t ↔ t.toNat < 4133980800 := by
    constructor
    · intro h
      have hright := h.date.count
      rw [hgmtime] at hright
      rw [hyear, hdate.count, hlate] at hright
      have hway := hback.mp h.back
      split_ifs at hright <;> omega
    intro h
    have hzero : late (t.toNat / 86400) = 0 := by
      rw [hlate, if_pos (by omega)]
    rw [hzero, Nat.sub_zero] at hdate hgmtime
    have hmktime := hback.mpr (.inl (by omega))
    constructor
    case date => rw [hgmtime]; exact hyear ▸ hdate
    case wday => rw [hgmtime]
    case hour => rw [hgmtime]; dsimp only; omega
    case min => rw [hgmtime]; dsimp only; omega
    case sec => rw [hgmtime]; dsimp only; omega
    case time => rw [hgmtime]; dsimp only; omega
    case back => exact hmktime
  refine ⟨⟨fun h => ?_, False.elim⟩, hbut⟩
  have hcount := hdate.count
  have hyday := h.yday
  have hday := hdate.inMonth.1
  have hsmall := hbut.mp h.toRightButYday
  rw [hgmtime] at hyday
  dsimp only at hyday
  rw [hyear] at hyday
  rw [hlate, if_pos (by omega)] at hcount
  omega

theorem gmtime_right_epoch : (gmtimeR 0).yday = 1 ∧ ¬ Right 0 := by
  have hepoch : (gmtimeR 0).yday = 1 ∧
      daysOfYears ((gmtimeR 0).year + 1900 - 1970) + (gmtimeR 0).yday ≠ (0 : UInt32).toNat / 86400 := by
    decide +kernel
  exact ⟨hepoch.1, fun h => hepoch.2 h.yday⟩

end Nuttx.Libc.Time
