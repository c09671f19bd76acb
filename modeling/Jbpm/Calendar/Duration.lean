/-
  Durations: their textual descriptions, and dates to which they are added.

  * `monthStart`, `monthOf`, `addMonths`: the months of the Gregorian calendar;
  * `Duration`, `parseDuration`, `Duration.addTo`;
  * `BusinessCalendar.addDuration`: the addition of any duration.

  Numbers with a fraction are of a type `δ`, of which nothing is known.
-/
import Jbpm.Calendar.BusinessCalendar

namespace Jbpm

namespace Calendar

/-! ## Months -/

def isLeap (year : ℤ) : Bool :=
  decide (year % 4 = 0) && (decide (year % 100 ≠ 0) || decide (year % 400 = 0))

/-- The days from the beginning of 1970 to that of a year. -/
def yearStart (year : ℤ) : ℤ :=
  365 * (year - 1970) + ((year - 1) / 4 - (year - 1) / 100 + (year - 1) / 400 - 477)

/-- The days of a year before a month; January is month 0. -/
def daysBefore (leap : Bool) (month : ℤ) : ℤ :=
  if month < 2 then 31 * month else (153 * (month - 2) + 2) / 5 + (if leap then 60 else 59)

/-- The first day of a month; month 0 is January of the year 0. -/
def monthStart (m : ℤ) : ℤ := yearStart (m / 12) + daysBefore (isLeap (m / 12)) (m % 12)

theorem yearStart_succ (year : ℤ) :
    yearStart (year + 1) = yearStart year + if isLeap year then 366 else 365 := by
  simp only [yearStart, isLeap, Bool.and_eq_true, Bool.or_eq_true, decide_eq_true_eq]
  split <;> omega

theorem monthStart_succ (m : ℤ) :
    monthStart m + 28 ≤ monthStart (m + 1) ∧ monthStart (m + 1) ≤ monthStart m + 31 := by
  have hyear := yearStart_succ (m / 12)
  have hm : 0 ≤ m % 12 ∧ m % 12 < 12 := by omega
  by_cases hlast : m % 12 = 11
  · rw [monthStart, monthStart, show (m + 1) / 12 = m / 12 + 1 by omega,
      show (m + 1) % 12 = 0 by omega, hlast, hyear]
    cases isLeap (m / 12) <;> cases isLeap (m / 12 + 1) <;> simp [daysBefore] <;> omega
  · rw [monthStart, monthStart, show (m + 1) / 12 = m / 12 by omega,
      show (m + 1) % 12 = m % 12 + 1 by omega]
    simp only [daysBefore]
    cases isLeap (m / 12) <;> simp only [if_true, Bool.false_eq_true, if_false] <;>
      (split <;> split <;> omega)

theorem monthStart_mono {m n : ℤ} (h : m ≤ n) : monthStart m ≤ monthStart n := by
  obtain ⟨k, rfl⟩ : ∃ k : ℕ, n = m + k := ⟨(n - m).toNat, by omega⟩
  induction k with
  | zero => rw [Nat.cast_zero, add_zero]
  | succ k ih =>
    have := monthStart_succ (m + k)
    have := ih (by omega)
    rw [Nat.cast_succ, ← add_assoc]
    omega

/-- The month of a day, from a month that begins before it. -/
def monthFrom (m day : ℤ) : ℤ :=
  if monthStart (m + 1) ≤ day then monthFrom (m + 1) day else m
termination_by (day - monthStart m).toNat
decreasing_by
  have := monthStart_succ m
  omega

/-- Months have at least 28 days and at most 31. -/
def monthOf (day : ℤ) : ℤ := monthFrom (1970 * 12 + (if day < 0 then day / 28 else day / 31)) day

theorem monthFrom_spec (m day : ℤ) (h : monthStart m ≤ day) :
    monthStart (monthFrom m day) ≤ day ∧ day < monthStart (monthFrom m day + 1) := by
  fun_induction monthFrom m day with
  | case1 m hle ih => exact ih hle
  | case2 m hgt => exact ⟨h, not_le.1 hgt⟩

theorem monthStart_estimate (k : ℕ) :
    monthStart (1970 * 12 + k) ≤ 31 * k ∧ monthStart (1970 * 12 - k) ≤ -28 * k := by
  induction k with
  | zero => decide
  | succ k ih =>
    have hup := monthStart_succ (1970 * 12 + k)
    have hdown := monthStart_succ (1970 * 12 - (k + 1 : ℕ))
    rw [show (1970 * 12 - (k + 1 : ℕ) + 1 : ℤ) = 1970 * 12 - k by omega] at hdown
    rw [show (1970 * 12 + (k + 1 : ℕ) : ℤ) = 1970 * 12 + k + 1 by omega]
    omega

theorem monthOf_spec (day : ℤ) :
    monthStart (monthOf day) ≤ day ∧ day < monthStart (monthOf day + 1) := by
  refine monthFrom_spec _ _ ?_
  split
  · have := (monthStart_estimate (-(day / 28)).toNat).2
    rw [show (1970 * 12 - ((-(day / 28)).toNat : ℤ)) = 1970 * 12 + day / 28 by omega] at this
    omega
  · have := (monthStart_estimate (day / 31).toNat).1
    rw [show ((day / 31).toNat : ℤ) = day / 31 by omega] at this
    omega

/-- The day of the month is at most the last one. -/
def pinDayOfMonth (dayOfMonth last : ℤ) : ℤ := if last < dayOfMonth then last else dayOfMonth

theorem pinDayOfMonth_spec (dayOfMonth last : ℤ) :
    pinDayOfMonth dayOfMonth last ≤ last ∧ pinDayOfMonth dayOfMonth last ≤ dayOfMonth ∧
      (pinDayOfMonth dayOfMonth last = last ∨ pinDayOfMonth dayOfMonth last = dayOfMonth) := by
  rw [pinDayOfMonth]
  split <;> omega

/-- `Calendar.add(Calendar.MONTH, n)` -/
def addMonths (date n : ℤ) : ℤ :=
  let m := monthOf (dayOf date)
  (monthStart (m + n) + pinDayOfMonth (dayOf date - monthStart m)
    (monthStart (m + n + 1) - 1 - monthStart (m + n))) * dayMillis + date % dayMillis

section AddMonths

variable {date n : ℤ}

theorem addMonths_lt_iff {D : ℤ} : D * dayMillis ≤ addMonths date n ↔
    D ≤ monthStart (monthOf (dayOf date) + n) + pinDayOfMonth
      (dayOf date - monthStart (monthOf (dayOf date)))
      (monthStart (monthOf (dayOf date) + n + 1) - 1 - monthStart (monthOf (dayOf date) + n)) := by
  simp only [addMonths, dayMillis]
  omega

theorem lt_addMonths (h : 0 < n) : date < addMonths date n := by
  have hspec := monthOf_spec (dayOf date)
  have hsucc := monthStart_succ (monthOf (dayOf date) + n)
  have hpin := pinDayOfMonth_spec (dayOf date - monthStart (monthOf (dayOf date)))
    (monthStart (monthOf (dayOf date) + n + 1) - 1 - monthStart (monthOf (dayOf date) + n))
  have hle := monthStart_mono (show monthOf (dayOf date) + 1 ≤ monthOf (dayOf date) + n by omega)
  have hday : (dayOf date + 1) * dayMillis ≤ addMonths date n := addMonths_lt_iff.2 (by omega)
  simp only [dayOf, dayMillis] at *
  omega

theorem addMonths_lt (h : n < 0) : addMonths date n < date := by
  have hspec := monthOf_spec (dayOf date)
  have hpin := pinDayOfMonth_spec (dayOf date - monthStart (monthOf (dayOf date)))
    (monthStart (monthOf (dayOf date) + n + 1) - 1 - monthStart (monthOf (dayOf date) + n))
  have hle := monthStart_mono (show monthOf (dayOf date) + n + 1 ≤ monthOf (dayOf date) by omega)
  have hday : ¬ dayOf date * dayMillis ≤ addMonths date n := fun h => by
    have := addMonths_lt_iff.1 h
    omega
  simp only [dayOf, dayMillis] at *
  omega

theorem monthOf_unique {m day : ℤ} (h : monthStart m ≤ day) (hlt : day < monthStart (m + 1)) :
    monthOf day = m := by
  obtain ⟨hle, hlt'⟩ := monthOf_spec day
  rcases lt_trichotomy (monthOf day) m with hm | hm | hm
  · have := monthStart_mono (show monthOf day + 1 ≤ m by omega)
    omega
  · exact hm
  · have := monthStart_mono (show m + 1 ≤ monthOf day by omega)
    omega

/-- The last day of a month; the first one is 0. -/
def lastDay (m : ℤ) : ℤ := monthStart (m + 1) - 1 - monthStart m

/-- The day of the month, from 0. -/
def dayOfMonth (date : ℤ) : ℤ := dayOf date - monthStart (monthOf (dayOf date))

theorem addMonths_eq (date n : ℤ) : addMonths date n =
    (monthStart (monthOf (dayOf date) + n) +
      pinDayOfMonth (dayOfMonth date) (lastDay (monthOf (dayOf date) + n))) * dayMillis +
        date % dayMillis := rfl

/-- Where the months that are added begin, and which day of the last of them it is. -/
theorem addMonths_spec (date n : ℤ) : addMonths date n % dayMillis = date % dayMillis ∧
    monthOf (dayOf (addMonths date n)) = monthOf (dayOf date) + n ∧
      dayOfMonth (addMonths date n) =
        pinDayOfMonth (dayOfMonth date) (lastDay (monthOf (dayOf date) + n)) := by
  have hspec := monthOf_spec (dayOf date)
  have hsucc := monthStart_succ (monthOf (dayOf date) + n)
  have hpin := pinDayOfMonth_spec (dayOfMonth date) (lastDay (monthOf (dayOf date) + n))
  have hday : dayOf (addMonths date n) = monthStart (monthOf (dayOf date) + n) +
      pinDayOfMonth (dayOfMonth date) (lastDay (monthOf (dayOf date) + n)) := by
    rw [addMonths_eq]
    simp only [dayOf, dayMillis]
    omega
  have hmonth : monthOf (dayOf (addMonths date n)) = monthOf (dayOf date) + n := by
    refine monthOf_unique ?_ ?_
    · rw [hday]
      simp only [dayOfMonth, lastDay] at *
      omega
    · rw [hday]
      simp only [dayOfMonth, lastDay] at *
      omega
  refine ⟨?_, hmonth, ?_⟩
  · rw [addMonths_eq]
    simp only [dayMillis]
    omega
  · rw [dayOfMonth, hmonth, hday]
    omega

/-- Months are added in two steps as in one if the day is in the month between, or the last month is
    not longer than that. -/
theorem addMonths_addMonths_iff (a b : ℤ) :
    addMonths (addMonths date a) b = addMonths date (a + b) ↔
      dayOfMonth date ≤ lastDay (monthOf (dayOf date) + a) ∨
        lastDay (monthOf (dayOf date) + (a + b)) ≤ lastDay (monthOf (dayOf date) + a) := by
  obtain ⟨hmod, hmonth, hday⟩ := addMonths_spec date a
  rw [addMonths_eq (addMonths date a) b, addMonths_eq date (a + b), hmod, hmonth, hday, add_assoc]
  simp only [pinDayOfMonth, dayMillis]
  split_ifs <;> omega

theorem addMonths_zero : addMonths date 0 = date := by
  have hspec := monthOf_spec (dayOf date)
  have hpin := pinDayOfMonth_spec (dayOfMonth date) (lastDay (monthOf (dayOf date)))
  rw [addMonths_eq, add_zero]
  simp only [dayOfMonth, lastDay, dayOf, dayMillis] at *
  omega

theorem addMonths_le (h : n ≤ 0) : addMonths date n ≤ date := by
  rcases h.eq_or_lt with rfl | h
  · exact addMonths_zero.le
  · exact (addMonths_lt h).le

end AddMonths

/-! ## Durations -/

/-- The fields of `java.util.Calendar` that durations are counted in. -/
inductive Field where
  | millisecond | second | minute | hour | dayOfMonth | weekOfMonth | month | year
  deriving DecidableEq

/-- `isBusinessTime` only with a number of milliseconds. -/
structure Duration where
  field : Field
  amount : ℤ
  isBusinessTime : Bool
  business_field : isBusinessTime = true → field = .millisecond
  deriving DecidableEq

/-- The fields that have a fixed duration. -/
def Field.millis : Field → Option ℤ
  | .millisecond => some 1
  | .second => some 1000
  | .minute => some minuteMillis
  | .hour => some hourMillis
  | .dayOfMonth => some dayMillis
  | .weekOfMonth => some (7 * dayMillis)
  | .month | .year => none

/-- What is added in the field; `calendar.add` takes an `int`. -/
def Duration.added (d : Duration) : ℤ :=
  if d.field = .millisecond then d.amount else d.amount.bmod (2 ^ 32)

def Duration.addTo (d : Duration) (date : ℤ) : ℤ :=
  match d.field.millis with
  | some millis => date + d.added * millis
  | none => addMonths date (if d.field = .year then 12 * d.added else d.added)

theorem Duration.added_of_business (d : Duration) (h : d.isBusinessTime = true) :
    d.added = d.amount := by
  rw [added, if_pos (d.business_field h)]

theorem Field.millis_pos {f : Field} {n : ℤ} (h : f.millis = some n) : 0 < n := by
  cases f <;> cases h <;> decide

theorem Duration.lt_addTo {d : Duration} (h : 0 < d.added) (date : ℤ) : date < d.addTo date := by
  rw [addTo]
  split
  · next n hn =>
    have := Int.mul_pos h (Field.millis_pos hn)
    omega
  · exact lt_addMonths (by split <;> omega)

theorem Duration.addTo_le {d : Duration} (h : d.added ≤ 0) (date : ℤ) : d.addTo date ≤ date := by
  rw [addTo]
  split
  · next n hn =>
    have := Int.mul_nonpos_of_nonpos_of_nonneg h (Field.millis_pos hn).le
    omega
  · exact addMonths_le (by split <;> omega)

/-! ## Descriptions -/

/-- `java.lang.Number`, as a number format returns it. -/
inductive Quantity (δ : Type) where
  | long (n : ℤ)
  | double (x : δ)

/-- `NumberFormat` for a number at the beginning of a text, and the arithmetic of fractions:
`(double) n` and `(long) (x * n)`. -/
structure NumberFormat (δ : Type) where
  parse : List Char → Option (Quantity δ × List Char)
  ofLong : ℤ → δ
  times : δ → ℤ → ℤ

/-- A whole number as a `long`. -/
def toLong (n : ℤ) : ℤ := n.bmod (2 ^ 64)

/-- What business days, weeks, months and years are expressed in. -/
structure BusinessAmounts where
  day : ℤ
  week : ℤ
  month : ℤ
  year : ℤ

def calendarFields : List (String × Field) :=
  [("millisecond", .millisecond), ("milliseconds", .millisecond),
    ("second", .second), ("seconds", .second), ("minute", .minute), ("minutes", .minute),
    ("hour", .hour), ("hours", .hour), ("day", .dayOfMonth), ("days", .dayOfMonth),
    ("week", .weekOfMonth), ("weeks", .weekOfMonth), ("month", .month), ("months", .month),
    ("year", .year), ("years", .year)]

def businessAmounts (b : BusinessAmounts) : List (String × ℤ) :=
  [("business second", 1000), ("business seconds", 1000),
    ("business minute", minuteMillis), ("business minutes", minuteMillis),
    ("business hour", hourMillis), ("business hours", hourMillis),
    ("business day", b.day), ("business days", b.day),
    ("business week", b.week), ("business weeks", b.week),
    ("business month", b.month), ("business months", b.month),
    ("business year", b.year), ("business years", b.year)]

/-- What `String.trim` takes for white space. -/
def isWhite (c : Char) : Bool := c ≤ ' '

def trim (text : List Char) : List Char :=
  ((text.dropWhile isWhite).reverse.dropWhile isWhite).reverse

section Parse

variable {δ : Type} (f : NumberFormat δ) (b : BusinessAmounts)

def Quantity.multiply (q : Quantity δ) (unit : ℤ) : ℤ :=
  match q with
  | .long n => toLong (n * unit)
  | .double x => f.times x unit

def Quantity.doubleValue : Quantity δ → δ
  | .long n => f.ofLong n
  | .double x => x

/-- A quantity that is an `int` is counted in the field, any other in milliseconds. -/
def Quantity.inField (q : Quantity δ) (unit : Field) : Option Duration :=
  match q with
  | .long n =>
    if -2 ^ 31 ≤ n ∧ n < 2 ^ 31 then some ⟨unit, n, false, nofun⟩ else inMillis unit
  | .double _ => inMillis unit
where
  inMillis (unit : Field) : Option Duration :=
    if unit = .millisecond then none
    else unit.millis.map fun millis =>
      ⟨.millisecond, f.times (q.doubleValue f) millis, false, nofun⟩

def Duration.negate (d : Duration) : Duration := { d with amount := toLong (-d.amount) }

/-- `Duration(duration)` -/
def parseDuration (text : List Char) : Option Duration :=
  match text.dropWhile isWhite with
  | [] => none
  | lead :: rest =>
    let quantityText := if lead = '+' ∨ lead = '-' then rest else lead :: rest
    match f.parse (quantityText.dropWhile isWhite) with
    | none => none
    | some (quantity, rest) =>
      let unitText := String.ofList (trim rest)
      let duration :=
        if unitText.startsWith "business" then
          ((businessAmounts b).lookup unitText).map fun unit =>
            ⟨.millisecond, quantity.multiply f unit, true, fun _ => rfl⟩
        else (calendarFields.lookup unitText).bind (quantity.inField f)
      if lead = '-' then duration.map Duration.negate else duration

end Parse

/-- `add(date, duration)` -/
def BusinessCalendar.addDuration (c : BusinessCalendar) (n : ℕ) (date : ℤ) (d : Duration) :
    Option ℤ :=
  if d.isBusinessTime then c.add n date d.amount else some (d.addTo date)

end Calendar

end Jbpm
