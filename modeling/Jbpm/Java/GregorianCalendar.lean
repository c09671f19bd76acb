/-
  The calendar of Java, in a time zone.

  * `TimeZone`: the offsets of instants, and of local times;
  * `moveMonths`: months of a calendar that is Julian before 15 October 1582;
  * `TimeZone.addMonths`, `TimeZone.addDays`: what is added to an instant;
  * `moveMonths_eq`, `addMonths_eq`, `addDays_eq`: where it is as in the Gregorian calendar, at one
    offset.
-/
import Jbpm.Calendar.Duration

namespace Java

open Jbpm
open Jbpm.Calendar (monthStart monthOf lastDay dayOf dayOfMonth daysBefore yearStart pinDayOfMonth
  dayMillis)

/-! ## Time zones -/

/-- The offset of each instant, and the one that a calendar takes for a local time: if there are
    instants with that local time, it is the offset of one of them. -/
structure TimeZone where
  offset : ℤ → ℤ
  wallOffset : ℤ → ℤ
  offset_wall : ∀ t, offset (t + offset t - wallOffset (t + offset t)) = wallOffset (t + offset t)

namespace TimeZone

def fixed (offset : ℤ) : TimeZone := ⟨fun _ => offset, fun _ => offset, fun _ => rfl⟩

/-- `GMT` -/
def gmt : TimeZone := fixed 0

variable (z : TimeZone)

def toLocal (t : ℤ) : ℤ := t + z.offset t

def toInstant (l : ℤ) : ℤ := l - z.wallOffset l

variable {z} {t l : ℤ}

theorem toLocal_toInstant (h : z.toLocal t = l) : z.toLocal (z.toInstant l) = l := by
  subst h
  have hwall : z.offset (z.toInstant (z.toLocal t)) = z.wallOffset (z.toLocal t) := z.offset_wall t
  show z.toInstant (z.toLocal t) + z.offset (z.toInstant (z.toLocal t)) = z.toLocal t
  rw [hwall, toInstant, sub_add_cancel]

end TimeZone

/-! ## Months -/

/-- 15 October 1582, the first day of the Gregorian calendar. -/
def gregorianCutover : ℤ := -141427

def julianMonthStart (year month : ℤ) : ℤ :=
  yearStart 1 - 2 + 365 * (year - 1) + (year - 1) / 4 + daysBefore (decide (year % 4 = 0)) month

def julianLastDay (year month : ℤ) : ℤ :=
  (if month = 11 then julianMonthStart (year + 1) 0 else julianMonthStart year (month + 1)) - 1 -
    julianMonthStart year month

/-- Four years have 1461 days, and the first of them has 366. -/
def julianYearOf (day : ℤ) : ℤ :=
  let n := day - julianMonthStart 0 0
  4 * (n / 1461) + if n % 1461 < 366 then 0 else (n % 1461 - 1) / 365

/-- The month of a day, counted from January of the year 0. -/
def julianMonthOf (day : ℤ) : ℤ :=
  let year := julianYearOf day
  12 * year + ((List.range 12).countP fun month => julianMonthStart year month ≤ day) - 1

def monthIndex (day : ℤ) : ℤ :=
  if gregorianCutover ≤ day then monthOf day else julianMonthOf day

/-- The first day of a month in the calendar of a day. -/
def monthBegin (day m : ℤ) : ℤ :=
  if gregorianCutover ≤ day then monthStart m else julianMonthStart (m / 12) (m % 12)

/-- The last day of a month; the calendars do not differ in the months of 1582. -/
def actualMaximum (m : ℤ) : ℤ :=
  if m / 12 < 1582 then julianLastDay (m / 12) (m % 12) else lastDay m

/-- The day of a date; one that is missing between the calendars is Julian. -/
def dayOfDate (m dayOfMonth : ℤ) : ℤ :=
  if gregorianCutover ≤ monthStart m + dayOfMonth then monthStart m + dayOfMonth
  else julianMonthStart (m / 12) (m % 12) + dayOfMonth

/-- `add(Calendar.MONTH, n)`, and `add(Calendar.YEAR, n / 12)`, of local times -/
def moveMonths (l n : ℤ) : ℤ :=
  let m := monthIndex (dayOf l)
  let pinned := pinDayOfMonth (dayOf l - monthBegin (dayOf l) m) (actualMaximum (m + n))
  dayOfDate (m + n) pinned * dayMillis + l % dayMillis

section Months

variable {l n : ℤ}

theorem cutover_le_monthOf {day : ℤ} (h : gregorianCutover ≤ day) :
    12 * 1582 ≤ monthOf day := by
  have hspec := Calendar.monthOf_spec day
  by_contra hlt
  have hmono := Calendar.monthStart_mono (show monthOf day + 1 ≤ 12 * 1582 by omega)
  have hstart : monthStart (12 * 1582) < gregorianCutover := by decide
  omega

/-- In the Gregorian calendar, months are added as usual. -/
theorem moveMonths_eq (h : gregorianCutover ≤ dayOf l)
    (hsum : gregorianCutover ≤ dayOf (Calendar.addMonths l n)) :
    moveMonths l n = Calendar.addMonths l n := by
  obtain ⟨-, hmonth, hpin⟩ := Calendar.addMonths_spec l n
  have hyear : ¬ (monthOf (dayOf l) + n) / 12 < 1582 := by
    have hle := cutover_le_monthOf hsum
    omega
  have hday : dayOf (Calendar.addMonths l n) = monthStart (monthOf (dayOf l) + n) +
      pinDayOfMonth (dayOfMonth l) (lastDay (monthOf (dayOf l) + n)) := by
    rw [dayOfMonth, hmonth] at hpin
    omega
  rw [hday] at hsum
  rw [moveMonths, monthIndex, if_pos h, monthBegin, if_pos h, actualMaximum, if_neg hyear,
    Calendar.addMonths_eq, dayOfDate]
  exact congrArg (· * dayMillis + l % dayMillis) (if_pos hsum)

end Months

/-! ## Adding to a calendar -/

namespace TimeZone

variable (z : TimeZone)

/-- `add(Calendar.MONTH, n)`, and `add(Calendar.YEAR, n / 12)` -/
def addMonths (t n : ℤ) : ℤ :=
  if n = 0 then t else z.toInstant (moveMonths (z.toLocal t) n)

/-- `add(Calendar.DAY_OF_MONTH, n)`: the time of the day stays, if the date does then. -/
def addDays (t n : ℤ) : ℤ :=
  let moved := t + n * dayMillis
  let adjusted := moved + (z.offset t - z.offset moved)
  if n = 0 then t
  else if dayOf (z.toLocal adjusted) = dayOf (z.toLocal t) + n then adjusted else moved

variable {z} {t n : ℤ}

theorem addMonths_eq {l : ℤ} (hl : z.toLocal t = l)
    (hmove : moveMonths l n = Calendar.addMonths l n)
    (hwall : z.wallOffset (Calendar.addMonths l n) = z.offset t) :
    z.addMonths t n = Calendar.addMonths l n - z.offset t := by
  rw [addMonths]
  split
  · next hn =>
    rw [hn, Calendar.addMonths_zero, ← hl, toLocal]
    omega
  · rw [hl, hmove, toInstant, hwall]

theorem addDays_eq (h : z.offset (t + n * dayMillis) = z.offset t) :
    z.addDays t n = t + n * dayMillis := by
  rw [addDays, h, sub_self, add_zero]
  split
  · next hn => rw [hn, zero_mul, add_zero]
  · split <;> rfl

end TimeZone

example : moveMonths (-141428 * dayMillis) 1 = (-141428 + 21) * dayMillis := by decide +kernel

end Java
