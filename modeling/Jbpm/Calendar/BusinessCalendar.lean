/-
  The business calendar: durations of business time are added to dates.

  * `DayPart`, `Day`, `Holiday`, `BusinessCalendar`: the calendar;
  * `findNextDayPartStart`, `addInDayPart`, `add`: the recursion over day parts and days, with
    fuel.

  Dates are milliseconds of local time, without changes of daylight saving time; day 0 is a
  Thursday.
-/
import Jbpm.Lib.Elapsed

namespace Jbpm

namespace Calendar

/-! ## Dates -/

def minuteMillis : ℤ := 60000
def hourMillis : ℤ := 3600000
def dayMillis : ℤ := 86400000

def dayOf (date : ℤ) : ℤ := date / dayMillis
/-- `Calendar.HOUR_OF_DAY` -/
def hour (date : ℤ) : ℤ := date % dayMillis / hourMillis
/-- `Calendar.MINUTE` -/
def minute (date : ℤ) : ℤ := date % hourMillis / minuteMillis
/-- `Calendar.DAY_OF_WEEK`, counted from Thursday -/
def weekday (date : ℤ) : ℤ := dayOf date % 7

/-! ## The calendar -/

/-- `toHour` is 24 for midnight. -/
structure DayPart where
  fromHour : ℤ
  fromMinute : ℤ
  toHour : ℤ
  toMinute : ℤ
  hour_nonneg : 0 ≤ fromHour
  minute_range : 0 ≤ fromMinute ∧ fromMinute < 60 ∧ 0 ≤ toMinute ∧ toMinute < 60
  from_lt_to : fromHour * 60 + fromMinute < toHour * 60 + toMinute
  to_le : toHour * 60 + toMinute ≤ 1440

/-- The minutes of the day at which a day part begins and ends. -/
def DayPart.start (p : DayPart) : ℤ := p.fromHour * 60 + p.fromMinute
def DayPart.stop (p : DayPart) : ℤ := p.toHour * 60 + p.toMinute

/-- Whole days, from the first one to the last one. -/
structure Holiday where
  first : ℤ
  last : ℤ

def Holiday.includes (h : Holiday) (date : ℤ) : Bool :=
  decide (h.first * dayMillis ≤ date) && decide (date < (h.last + 1) * dayMillis)

structure BusinessCalendar where
  weekDays : ℤ → List DayPart
  holidays : List Holiday
  ordered : ∀ w, (weekDays w).Pairwise fun p q => p.stop ≤ q.start
  exists_dayPart : ∃ w, 0 ≤ w ∧ w < 7 ∧ weekDays w ≠ []

/-! ## Day parts -/

namespace DayPart

def isStartAfter (p : DayPart) (date : ℤ) : Bool :=
  decide (hour date < p.fromHour) ||
    decide (hour date = p.fromHour) && decide (minute date ≤ p.fromMinute)

def includes (p : DayPart) (date : ℤ) : Bool :=
  (decide (p.fromHour < hour date) ||
    decide (p.fromHour = hour date) && decide (p.fromMinute ≤ minute date)) &&
  (decide (hour date < p.toHour) ||
    decide (hour date = p.toHour) && decide (minute date ≤ p.toMinute))

/-- The date with another hour and minute. -/
def getStartTime (p : DayPart) (date : ℤ) : ℤ :=
  dayOf date * dayMillis + p.fromHour * hourMillis + p.fromMinute * minuteMillis +
    date % minuteMillis

def millisInThisDayPart (p : DayPart) (date : ℤ) : ℤ :=
  (p.toHour - hour date) * hourMillis + (p.toMinute - minute date) * minuteMillis

end DayPart

namespace BusinessCalendar

variable (c : BusinessCalendar)

/-! ## Holidays -/

def isHoliday (date : ℤ) : Bool := c.holidays.any (·.includes date)

/-- No day after this one is a holiday. -/
def lastHoliday : ℤ := c.holidays.foldr (fun h d => if d ≤ h.last then h.last else d) 0

theorem le_lastHoliday {h : Holiday} (hh : h ∈ c.holidays) : h.last ≤ c.lastHoliday := by
  rw [lastHoliday]
  generalize c.holidays = hs at hh ⊢
  induction hs with
  | nil => cases hh
  | cons g gs ih =>
    rw [List.foldr_cons]
    rcases List.mem_cons.1 hh with rfl | hh
    · split <;> omega
    · have := ih hh
      split <;> omega

theorem lt_of_isHoliday {date : ℤ} (h : c.isHoliday date = true) :
    date < (c.lastHoliday + 1) * dayMillis := by
  obtain ⟨g, hg, hi⟩ := List.any_eq_true.1 h
  have hle := c.le_lastHoliday hg
  rw [Holiday.includes, Bool.and_eq_true, decide_eq_true_iff, decide_eq_true_iff] at hi
  simp only [dayMillis] at hi ⊢
  omega

/-- The loop of `findStartOfNextDay`. -/
def skipHolidays (date : ℤ) : ℤ :=
  if _h : c.isHoliday date = true then skipHolidays (date + dayMillis) else date
termination_by ((c.lastHoliday + 1) * dayMillis - date).toNat
decreasing_by
  have hlt := c.lt_of_isHoliday _h
  simp only [dayMillis] at hlt ⊢
  omega

def findStartOfNextDay (date : ℤ) : ℤ := c.skipHolidays ((dayOf date + 1) * dayMillis)

/-! ## Business time -/

/-- A day part: the one with a number on a day of the week. -/
def dayPart? (w : ℤ) (i : ℕ) : Option DayPart := (c.weekDays w)[i]?

/-- `findDayPart(date)`, as the number of the day part on the day of the week. -/
def findDayPart (date : ℤ) : Option ℕ :=
  if c.isHoliday date then none else (c.weekDays (weekday date)).findIdx? (·.includes date)

/-- `findNextDayPartStart`, of a day of the week: the date, and the day part. -/
def findNextDayPartStart : ℕ → ℤ → ℕ → ℤ → Option (ℤ × ℤ × ℕ)
  | 0, _, _, _ => none
  | n + 1, w, dayPartIndex, date =>
    match c.dayPart? w dayPartIndex with
    | some p =>
      if p.isStartAfter date then some (p.getStartTime date, w, dayPartIndex)
      else findNextDayPartStart n w (dayPartIndex + 1) date
    | none =>
      let date := c.findStartOfNextDay date
      findNextDayPartStart n (weekday date) 0 date

/-- `DayPart.add(date, duration)` -/
def addInDayPart : ℕ → ℤ → ℕ → ℤ → ℤ → Option ℤ
  | 0, _, _, _, _ => none
  | n + 1, w, i, date, duration =>
    match c.dayPart? w i with
    | none => none
    | some p =>
      if duration ≤ p.millisInThisDayPart date then some (date + duration)
      else
        (c.findNextDayPartStart n w (i + 1) (date + p.millisInThisDayPart date)).bind
          fun result => addInDayPart n result.2.1 result.2.2 result.1
            (duration - p.millisInThisDayPart date)

/-- `add(date, duration)`, for a duration of business time -/
def add (n : ℕ) (date duration : ℤ) : Option ℤ :=
  match c.findDayPart date with
  | some i => c.addInDayPart n (weekday date) i date duration
  | none =>
    (c.findNextDayPartStart n (weekday date) 0 date).bind fun result =>
      c.addInDayPart n result.2.1 result.2.2 result.1 duration

end BusinessCalendar

end Calendar

end Jbpm
