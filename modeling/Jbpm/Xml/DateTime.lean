/-
  Dates and times of XML Schema.

  * `DateTimeLiteral`, `matchDateTime`: the literals that the pattern matches;
  * `parseDateTime`, `Fields.getTime`: the calendar of a literal, and its time;
  * `dateTime_iff`: the texts that are read as XML Schema means them.
-/
import Jbpm.Java.DecimalFormat
import Jbpm.Xml.Duration

namespace Jbpm

namespace Xml

open Calendar (monthStart lastDay isLeap daysBefore yearStart dayOf dayMillis hourMillis
  minuteMillis)
open Java (TimeZone gregorianCutover julianMonthStart julianLastDay)

/-! ## The pattern -/

structure TimeOfDay where
  hour : List Char
  minute : List Char
  second : List Char
  fraction : Option (List Char)

inductive Zone
  | utc
  | offset (negative : Bool) (hours minutes : List Char)

/-- The groups of `dateTimePattern`. -/
structure DateTimeLiteral where
  negative : Bool
  year : List Char
  month : List Char
  day : List Char
  time : Option TimeOfDay
  zone : Option Zone

def expect (c : Char) : List Char → Option (List Char)
  | [] => none
  | c' :: rest => if c' = c then some rest else none

/-- `\p{Digit}{2}` -/
def takeTwo : List Char → Option (List Char × List Char)
  | a :: b :: rest => if a.isDigit ∧ b.isDigit then some ([a, b], rest) else none
  | _ => none

/-- The time zone, up to the end. -/
def matchZone : List Char → Option (Option Zone)
  | [] => some none
  | c :: rest =>
    if c = 'Z' then (if rest = [] then some (some .utc) else none)
    else if c = '+' ∨ c = '-' then
      (takeTwo rest).bind fun hours => (expect ':' hours.2).bind fun rest =>
        (takeTwo rest).bind fun minutes =>
          if minutes.2 = [] then some (some (.offset (c = '-') hours.1 minutes.1)) else none
    else none

def matchFraction : List Char → Option (Option (List Char) × List Char)
  | [] => some (none, [])
  | c :: rest =>
    if c = '.' then
      if rest.takeWhile Char.isDigit = [] then none
      else some (some (rest.takeWhile Char.isDigit), rest.dropWhile Char.isDigit)
    else some (none, c :: rest)

def matchTimeOfDay : List Char → Option (Option TimeOfDay × List Char)
  | [] => some (none, [])
  | c :: rest =>
    if c = 'T' then
      (takeTwo rest).bind fun hour => (expect ':' hour.2).bind fun rest =>
        (takeTwo rest).bind fun minute => (expect ':' minute.2).bind fun rest =>
          (takeTwo rest).bind fun second => (matchFraction second.2).map fun fraction =>
            (some ⟨hour.1, minute.1, second.1, fraction.1⟩, fraction.2)
    else some (none, c :: rest)

/-- The groups after the sign of the year. -/
def matchYear (negative : Bool) (text : List Char) : Option DateTimeLiteral :=
  let year := text.takeWhile Char.isDigit
  if 4 ≤ year.length then
    (expect '-' (text.dropWhile Char.isDigit)).bind fun rest => (takeTwo rest).bind fun month =>
      (expect '-' month.2).bind fun rest => (takeTwo rest).bind fun day =>
        (matchTimeOfDay day.2).bind fun time => (matchZone time.2).map fun zone =>
          ⟨negative, year, month.1, day.1, time.1, zone⟩
  else none

/-- `dateTimePattern.matcher(text)`, if it `matches()` -/
def matchDateTime (text : List Char) : Option DateTimeLiteral :=
  if text.head? = some '-' then matchYear true text.tail else matchYear false text

/-! ## Calendars -/

/-- The fields of a calendar, which of those of the time have been set, and its time zone. -/
structure Fields where
  year : ℤ
  month : ℤ
  dayOfMonth : ℤ
  hourOfDay : ℤ
  minute : ℤ
  second : ℤ
  millisecond : ℤ
  timeIsSet : Bool
  millisecondIsSet : Bool
  zone : TimeZone

/-- `TimeZone.getTimeZone("GMT" + group)`; a zone that is not understood is GMT. -/
def Zone.getTimeZone : Zone → TimeZone
  | .utc => .gmt
  | .offset negative hours minutes =>
    if number hours ≤ 23 ∧ number minutes ≤ 59 then
      .fixed ((if negative then -1 else 1) *
        (number hours * hourMillis + number minutes * minuteMillis))
    else .gmt

/-- The fields that are set; `none` if a number is not an `int`. -/
def DateTimeLiteral.setFields (g : DateTimeLiteral) (defaultZone : TimeZone) : Option Fields :=
  (Java.parseInt ((if g.negative then ['-'] else []) ++ g.year)).bind fun year =>
    (Java.parseInt g.month).bind fun month => (Java.parseInt g.day).bind fun day =>
      ((g.time.map TimeOfDay.hour).elim (some 0) Java.parseInt).bind fun hour =>
        ((g.time.map TimeOfDay.minute).elim (some 0) Java.parseInt).bind fun minute =>
          ((g.time.map TimeOfDay.second).elim (some 0) Java.parseInt).bind fun second =>
            ((g.time.bind TimeOfDay.fraction).elim (some 0) fun fraction =>
              Java.parseInt (fraction.take 3)).map fun millis =>
                { year := year
                  month := month - 1
                  dayOfMonth := day
                  hourOfDay := hour
                  minute := minute
                  second := second
                  millisecond := millis
                  timeIsSet := g.time.isSome
                  millisecondIsSet := (g.time.bind TimeOfDay.fraction).isSome
                  zone := g.zone.elim defaultZone Zone.getTimeZone }

/-- `parseDateTime`, with the default time zone; `none` if it throws, and `some none` for null -/
def parseDateTime (defaultZone : TimeZone) (text : List Char) : Option (Option Fields) :=
  match matchDateTime text with
  | none => some none
  | some g => (g.setFields defaultZone).map some

/-- The day of a date in a calendar that is not lenient, if the date exists. -/
def fixedDay (year month dayOfMonth : ℤ) : Option ℤ :=
  let gregorian := monthStart (12 * year + month) + dayOfMonth - 1
  let julian := julianMonthStart year month + dayOfMonth - 1
  if gregorianCutover ≤ gregorian then
    if dayOfMonth - 1 ≤ lastDay (12 * year + month) then some gregorian else none
  else if julian < gregorianCutover then
    if dayOfMonth - 1 ≤ julianLastDay year month then some julian else none
  else none

/-- The fields are between their minimum and their maximum. -/
structure Fields.InRange (c : Fields) : Prop where
  year : 1 ≤ c.year ∧ c.year ≤ 292278994
  month : 0 ≤ c.month ∧ c.month ≤ 11
  dayOfMonth : 1 ≤ c.dayOfMonth ∧ c.dayOfMonth ≤ 31
  hourOfDay : 0 ≤ c.hourOfDay ∧ c.hourOfDay ≤ 23
  minute : 0 ≤ c.minute ∧ c.minute ≤ 59
  second : 0 ≤ c.second ∧ c.second ≤ 59
  millisecond : 0 ≤ c.millisecond ∧ c.millisecond ≤ 999

instance (c : Fields) : Decidable c.InRange :=
  decidable_of_iff
    ((1 ≤ c.year ∧ c.year ≤ 292278994) ∧ (0 ≤ c.month ∧ c.month ≤ 11) ∧
      (1 ≤ c.dayOfMonth ∧ c.dayOfMonth ≤ 31) ∧ (0 ≤ c.hourOfDay ∧ c.hourOfDay ≤ 23) ∧
        (0 ≤ c.minute ∧ c.minute ≤ 59) ∧ (0 ≤ c.second ∧ c.second ≤ 59) ∧
          (0 ≤ c.millisecond ∧ c.millisecond ≤ 999))
    ⟨fun ⟨h₁, h₂, h₃, h₄, h₅, h₆, h₇⟩ => ⟨h₁, h₂, h₃, h₄, h₅, h₆, h₇⟩,
      fun h => ⟨h.1, h.2, h.3, h.4, h.5, h.6, h.7⟩⟩

def Fields.localTime (c : Fields) (day : ℤ) : ℤ :=
  day * dayMillis + c.hourOfDay * hourMillis + c.minute * minuteMillis + c.second * 1000 +
    c.millisecond

/-- The fields that have been set are those of a local time. -/
def Fields.AreOf (c : Fields) (day l : ℤ) : Prop :=
  dayOf l = day ∧
    (c.timeIsSet → l % dayMillis / 1000 = c.hourOfDay * 3600 + c.minute * 60 + c.second) ∧
      (c.millisecondIsSet → l % 1000 = c.millisecond)

instance (c : Fields) (day l : ℤ) : Decidable (c.AreOf day l) :=
  inferInstanceAs (Decidable (_ ∧ _))

/-- `getTime` of a calendar that is not lenient, unless it throws: no field that has been set is
    another one at that time. -/
def Fields.getTime (c : Fields) : Option ℤ :=
  if c.InRange then
    (fixedDay c.year c.month c.dayOfMonth).bind fun day =>
      let t := c.zone.toInstant (c.localTime day)
      if Java.IsLong t ∧ c.AreOf day (c.zone.toLocal t) then some t else none
  else none

/-! ## Literals -/

def IsPair (ds : List Char) : Prop := ds.length = 2 ∧ ds.all Char.isDigit

def fractionText (fraction : Option (List Char)) : List Char := fraction.elim [] ('.' :: ·)

def TimeOfDay.text (t : TimeOfDay) : List Char :=
  'T' :: (t.hour ++ ':' :: (t.minute ++ ':' :: (t.second ++ fractionText t.fraction)))

def Zone.text : Zone → List Char
  | .utc => ['Z']
  | .offset negative hours minutes =>
    (if negative then '-' else '+') :: (hours ++ ':' :: minutes)

def DateTimeLiteral.text (g : DateTimeLiteral) : List Char :=
  (if g.negative then ['-'] else []) ++ unsigned g
where
  unsigned (g : DateTimeLiteral) : List Char :=
    g.year ++ '-' :: (g.month ++ '-' :: (g.day ++ (g.time.elim [] TimeOfDay.text ++
      g.zone.elim [] Zone.text)))

structure TimeOfDay.WellFormed (t : TimeOfDay) : Prop where
  hour : IsPair t.hour
  minute : IsPair t.minute
  second : IsPair t.second
  fraction : ∀ fs ∈ t.fraction, IsNumber fs

def Zone.WellFormed : Zone → Prop
  | .utc => True
  | .offset _ hours minutes => IsPair hours ∧ IsPair minutes

structure DateTimeLiteral.WellFormed (g : DateTimeLiteral) : Prop where
  year : 4 ≤ g.year.length ∧ g.year.all Char.isDigit
  month : IsPair g.month
  day : IsPair g.day
  time : ∀ t ∈ g.time, t.WellFormed
  zone : ∀ z ∈ g.zone, z.WellFormed

section Parts

variable {c : Char} {ds text rest : List Char}

theorem expect_eq_some_iff : expect c text = some rest ↔ text = c :: rest := by
  cases text with
  | nil => exact iff_of_false nofun nofun
  | cons c' cs =>
    rw [expect]
    split
    · next h => rw [h, Option.some.injEq, List.cons_inj_right]
    · next h => exact iff_of_false nofun fun h' => h (List.cons.inj h').1

theorem takeTwo_eq_some_iff :
    takeTwo text = some (ds, rest) ↔ text = ds ++ rest ∧ IsPair ds := by
  constructor
  · intro h
    rw [takeTwo.eq_def] at h
    split at h
    · split at h
      · next hd =>
        obtain ⟨rfl, rfl⟩ := Prod.mk.inj (Option.some.inj h)
        exact ⟨rfl, rfl, by simp [hd.1, hd.2]⟩
      · cases h
    · cases h
  · rintro ⟨rfl, hlength, hdigits⟩
    match ds with
    | [a, b] =>
      have hall := List.all_eq_true.mp hdigits
      exact if_pos ⟨hall a (by simp), hall b (by simp)⟩

theorem matchZone_eq_some_iff {zone : Option Zone} : matchZone text = some zone ↔
    text = zone.elim [] Zone.text ∧ ∀ z ∈ zone, z.WellFormed := by
  constructor
  · intro h
    cases text with
    | nil =>
      obtain ⟨rfl⟩ := h
      exact ⟨rfl, nofun⟩
    | cons c rest =>
      rw [matchZone] at h
      split at h
      · next hc =>
        split at h
        · next hrest =>
          obtain ⟨rfl⟩ := h
          subst hc hrest
          refine ⟨rfl, ?_⟩
          rintro z ⟨rfl⟩
          trivial
        · cases h
      · split at h
        · next hc =>
          simp only [Option.bind_eq_some_iff, Prod.exists, takeTwo_eq_some_iff,
            expect_eq_some_iff] at h
          obtain ⟨hours, rest₁, ⟨rfl, hhours⟩, rest₂, rfl, minutes, rest₃, ⟨rfl, hminutes⟩, h⟩ := h
          split at h
          · next hrest =>
            obtain ⟨rfl⟩ := h
            subst hrest
            constructor
            · rcases hc with rfl | rfl <;>
                simp [Zone.text]
            · rintro z ⟨rfl⟩
              exact ⟨hhours, hminutes⟩
          · cases h
        · cases h
  · rintro ⟨rfl, hwell⟩
    match zone with
    | none => rfl
    | some .utc => rfl
    | some (.offset negative hours minutes) =>
      obtain ⟨hhours, hminutes⟩ := hwell _ rfl
      have hmatch : ∀ c, c = '+' ∨ c = '-' → matchZone (c :: (hours ++ ':' :: minutes)) =
          some (some (.offset (c = '-') hours minutes)) := by
        intro c hc
        have hZ : c ≠ 'Z' := by rcases hc with rfl | rfl <;> decide
        have hlast : takeTwo minutes = some (minutes, []) :=
          takeTwo_eq_some_iff.mpr ⟨(List.append_nil _).symm, hminutes⟩
        rw [matchZone, if_neg hZ, if_pos hc, takeTwo_eq_some_iff.mpr ⟨rfl, hhours⟩,
          Option.bind_some, expect_eq_some_iff.mpr rfl, Option.bind_some, hlast, Option.bind_some,
          if_pos rfl]
      rw [Option.elim_some, Zone.text]
      cases negative with
      | true => exact hmatch '-' (.inr rfl)
      | false => exact hmatch '+' (.inl rfl)

/-- What a fraction and a time of day do not go on with. -/
def Stops (text : List Char) : Prop :=
  ∀ c ∈ text.head?, c ≠ 'T' ∧ c ≠ '.' ∧ c.isDigit = false

theorem stops_zone (zone : Option Zone) : Stops (zone.elim [] Zone.text) := by
  match zone with
  | none => exact nofun
  | some .utc =>
    rintro c ⟨rfl⟩
    decide
  | some (.offset true _ _) | some (.offset false _ _) =>
    rintro c ⟨rfl⟩
    decide

theorem matchFraction_spec {fraction : Option (List Char)}
    (h : matchFraction text = some (fraction, rest)) :
    text = fractionText fraction ++ rest ∧ ∀ fs ∈ fraction, IsNumber fs := by
  cases text with
  | nil =>
    obtain ⟨rfl, rfl⟩ := Prod.mk.inj (Option.some.inj h)
    exact ⟨rfl, nofun⟩
  | cons c cs =>
    rw [matchFraction] at h
    split at h
    · next hc =>
      split at h
      · cases h
      · next hne =>
        obtain ⟨rfl, rfl⟩ := Prod.mk.inj (Option.some.inj h)
        constructor
        · rw [fractionText, Option.elim_some, List.cons_append, List.takeWhile_append_dropWhile, hc]
        · rintro fs ⟨rfl⟩
          exact ⟨hne, List.all_takeWhile⟩
    · obtain ⟨rfl, rfl⟩ := Prod.mk.inj (Option.some.inj h)
      exact ⟨rfl, nofun⟩

theorem matchFraction_text {fraction : Option (List Char)} (h : ∀ fs ∈ fraction, IsNumber fs)
    (hrest : Stops rest) :
    matchFraction (fractionText fraction ++ rest) = some (fraction, rest) := by
  cases fraction with
  | none =>
    cases rest with
    | nil => rfl
    | cons c cs => exact if_neg (hrest c rfl).2.1
  | some fs =>
    obtain ⟨hne, hdigits⟩ := h fs rfl
    have htake : (fs ++ rest).takeWhile Char.isDigit = fs ∧
        (fs ++ rest).dropWhile Char.isDigit = rest := by
      rw [List.takeWhile_append_of_pos (List.all_eq_true.mp hdigits),
        List.dropWhile_append_of_pos (List.all_eq_true.mp hdigits)]
      cases rest with
      | nil => exact ⟨List.append_nil _, rfl⟩
      | cons c cs =>
        have hc : ¬ c.isDigit = true := by
          rw [(hrest c rfl).2.2]
          exact Bool.false_ne_true
        rw [List.takeWhile_cons_of_neg hc, List.dropWhile_cons_of_neg hc, List.append_nil]
        exact ⟨rfl, rfl⟩
    rw [fractionText, Option.elim_some, List.cons_append, matchFraction, if_pos rfl, htake.1,
      htake.2, if_neg hne]

theorem matchTimeOfDay_spec {time : Option TimeOfDay}
    (h : matchTimeOfDay text = some (time, rest)) :
    text = time.elim [] TimeOfDay.text ++ rest ∧ ∀ t ∈ time, t.WellFormed := by
  cases text with
  | nil =>
    obtain ⟨rfl, rfl⟩ := Prod.mk.inj (Option.some.inj h)
    exact ⟨rfl, nofun⟩
  | cons c cs =>
    rw [matchTimeOfDay] at h
    split at h
    · next hc =>
      simp only [Option.bind_eq_some_iff, Option.map_eq_some_iff, Prod.exists, takeTwo_eq_some_iff,
        expect_eq_some_iff, Prod.mk.injEq] at h
      obtain ⟨hour, rest₁, ⟨rfl, hhour⟩, rest₂, rfl, minute, rest₃, ⟨rfl, hminute⟩, rest₄, rfl,
        second, rest₅, ⟨rfl, hsecond⟩, fraction, rest₆, hfraction, rfl, rfl⟩ := h
      obtain ⟨rfl, hwell⟩ := matchFraction_spec hfraction
      constructor
      · subst hc
        simp only [Option.elim_some, TimeOfDay.text, List.cons_append, List.append_assoc]
      · rintro t ⟨rfl⟩
        exact ⟨hhour, hminute, hsecond, hwell⟩
    · obtain ⟨rfl, rfl⟩ := Prod.mk.inj (Option.some.inj h)
      exact ⟨rfl, nofun⟩

theorem matchTimeOfDay_text {time : Option TimeOfDay} (h : ∀ t ∈ time, t.WellFormed)
    (hrest : Stops rest) :
    matchTimeOfDay (time.elim [] TimeOfDay.text ++ rest) = some (time, rest) := by
  cases time with
  | none =>
    cases rest with
    | nil => rfl
    | cons c cs => exact if_neg (hrest c rfl).1
  | some t =>
    have hwell := h t rfl
    simp only [Option.elim_some, TimeOfDay.text, List.cons_append, List.append_assoc]
    rw [matchTimeOfDay, if_pos rfl, takeTwo_eq_some_iff.mpr ⟨rfl, hwell.hour⟩, Option.bind_some,
      expect_eq_some_iff.mpr rfl, Option.bind_some, takeTwo_eq_some_iff.mpr ⟨rfl, hwell.minute⟩,
      Option.bind_some, expect_eq_some_iff.mpr rfl, Option.bind_some,
      takeTwo_eq_some_iff.mpr ⟨rfl, hwell.second⟩, Option.bind_some,
      matchFraction_text hwell.fraction hrest]
    rfl

theorem matchYear_eq_some_iff {negative : Bool} {g : DateTimeLiteral} :
    matchYear negative text = some g ↔
      g.negative = negative ∧ text = DateTimeLiteral.text.unsigned g ∧ g.WellFormed := by
  constructor
  · intro h
    rw [matchYear] at h
    split at h
    · next hlength =>
      simp only [Option.bind_eq_some_iff, Option.map_eq_some_iff, Prod.exists, takeTwo_eq_some_iff,
        expect_eq_some_iff, matchZone_eq_some_iff] at h
      obtain ⟨rest₁, hdrop, month, rest₂, ⟨rfl, hmonth⟩, rest₃, rfl, day, rest₄, ⟨rfl, hday⟩, time,
        rest₅, htime, zone, ⟨rfl, hzone⟩, rfl⟩ := h
      obtain ⟨rfl, hwell⟩ := matchTimeOfDay_spec htime
      refine ⟨rfl, ?_, ⟨hlength, List.all_takeWhile⟩, hmonth, hday, hwell, hzone⟩
      rw [DateTimeLiteral.text.unsigned, ← hdrop, List.takeWhile_append_dropWhile]
    · cases h
  · rintro ⟨rfl, rfl, h⟩
    obtain ⟨hlength, hdigits⟩ := h.year
    have hyear : IsNumber g.year := ⟨List.ne_nil_of_length_pos (by omega), hdigits⟩
    rw [DateTimeLiteral.text.unsigned, matchYear, hyear.takeWhile (by decide),
      hyear.dropWhile (by decide), if_pos hlength, expect_eq_some_iff.mpr rfl,
      Option.bind_some, takeTwo_eq_some_iff.mpr ⟨rfl, h.month⟩, Option.bind_some,
      expect_eq_some_iff.mpr rfl, Option.bind_some, takeTwo_eq_some_iff.mpr ⟨rfl, h.day⟩,
      Option.bind_some, matchTimeOfDay_text h.time (stops_zone g.zone), Option.bind_some,
      matchZone_eq_some_iff.mpr ⟨rfl, h.zone⟩]
    rfl

/-- The pattern matches the texts of literals. -/
theorem matchDateTime_eq_some_iff {g : DateTimeLiteral} :
    matchDateTime text = some g ↔ text = g.text ∧ g.WellFormed := by
  rw [matchDateTime]
  split
  · next hsign =>
    obtain ⟨rest, rfl⟩ : ∃ rest, text = '-' :: rest := List.head?_eq_some_iff.mp hsign
    rw [List.tail_cons, matchYear_eq_some_iff, DateTimeLiteral.text]
    cases hnegative : g.negative with
    | true => rw [and_iff_right rfl, if_pos rfl, List.singleton_append, List.cons_inj_right]
    | false =>
      refine iff_of_false (fun h => Bool.false_ne_true h.1) ?_
      rintro ⟨h, hwell⟩
      obtain ⟨hlength, hdigits⟩ := hwell.year
      obtain ⟨y, ys, hyear⟩ := List.exists_cons_of_length_pos (show 0 < g.year.length by omega)
      rw [if_neg Bool.false_ne_true, DateTimeLiteral.text.unsigned, hyear] at h
      have hy : y.isDigit = true := List.all_eq_true.mp hdigits y (by rw [hyear]; exact .head _)
      rw [← (List.cons.inj h).1] at hy
      cases hy
  · next hsign =>
    rw [matchYear_eq_some_iff, DateTimeLiteral.text]
    cases hnegative : g.negative with
    | true =>
      refine iff_of_false (fun h => Bool.false_ne_true h.1.symm) ?_
      rintro ⟨rfl, -⟩
      exact hsign rfl
    | false => rw [and_iff_right rfl, if_neg Bool.false_ne_true, List.nil_append]

end Parts

/-! ## The calendar of a literal -/

namespace DateTimeLiteral

variable (g : DateTimeLiteral)

def hour : ℕ := (g.time.map TimeOfDay.hour).elim 0 number

def minute : ℕ := (g.time.map TimeOfDay.minute).elim 0 number

def second : ℕ := (g.time.map TimeOfDay.second).elim 0 number

def fraction : Option (List Char) := g.time.bind TimeOfDay.fraction

/-- The year, after the sign. -/
def signedYear : ℤ := if g.negative then -number g.year else number g.year

/-- What is set for a fraction. -/
def readMillis : ℕ := g.fraction.elim 0 fun fs => number (fs.take 3)

def fields (defaultZone : TimeZone) : Fields where
  year := g.signedYear
  month := number g.month - 1
  dayOfMonth := number g.day
  hourOfDay := g.hour
  minute := g.minute
  second := g.second
  millisecond := g.readMillis
  timeIsSet := g.time.isSome
  millisecondIsSet := g.fraction.isSome
  zone := g.zone.elim defaultZone Zone.getTimeZone

end DateTimeLiteral

theorem IsPair.isNumber {ds : List Char} (h : IsPair ds) : IsNumber ds :=
  ⟨List.ne_nil_of_length_pos (by rw [h.1]; exact two_pos), h.2⟩

theorem IsPair.number_lt {ds : List Char} (h : IsPair ds) : number ds < 100 := by
  have hlt := Xml.number_lt h.2
  rwa [h.1] at hlt

theorem parseInt_pair {ds : List Char} (h : IsPair ds) :
    Java.parseInt ds = some (number ds : ℤ) := by
  have hlt := h.number_lt
  rw [parseInt_number h.isNumber, if_pos (by omega)]

theorem parseInt_signed {ds : List Char} (h : IsNumber ds) (negative : Bool) :
    Java.parseInt ((if negative then ['-'] else []) ++ ds) =
      if Java.IsInt (if negative then -number ds else number ds) then
        some (if negative then -number ds else number ds : ℤ) else none := by
  cases negative with
  | true =>
    rw [if_pos rfl, if_pos rfl, Java.parseInt]
    simp only [List.singleton_append, List.head?_cons, if_true, List.tail_cons]
    by_cases hint : Java.IsInt (-number ds)
    · rw [if_pos hint]
      exact if_pos ⟨h.1, h.2, hint⟩
    · rw [if_neg hint]
      exact if_neg fun h' => hint h'.2.2
  | false =>
    simp only [Bool.false_eq_true, if_false, List.nil_append]
    rw [parseInt_number h]
    refine if_congr ?_ rfl rfl
    unfold Java.IsInt
    omega

/-- The fields of a literal, if its year is an `int`. -/
theorem setFields_eq {g : DateTimeLiteral} (h : g.WellFormed) (defaultZone : TimeZone) :
    g.setFields defaultZone =
      if Java.IsInt g.signedYear then some (g.fields defaultZone) else none := by
  have hyear : IsNumber g.year := by
    obtain ⟨hlength, hdigits⟩ := h.year
    exact ⟨List.ne_nil_of_length_pos (by omega), hdigits⟩
  have htime : ∀ f : TimeOfDay → List Char, (∀ t ∈ g.time, IsPair (f t)) →
      (g.time.map f).elim (some 0) Java.parseInt =
        some (((g.time.map f).elim 0 number : ℕ) : ℤ) := by
    intro f hf
    cases ht : g.time with
    | none => rfl
    | some t => exact parseInt_pair (hf t ht)
  have hmillis : (g.fraction.elim (some 0) fun fraction => Java.parseInt (fraction.take 3)) =
      some (g.readMillis : ℤ) := by
    rw [DateTimeLiteral.readMillis]
    cases hf : g.fraction with
    | none => rfl
    | some fs =>
      obtain ⟨t, ht, hfs⟩ := Option.bind_eq_some_iff.mp hf
      have hnumber := isNumber_take ((h.time t ht).fraction fs hfs)
      have hlt := number_lt hnumber.2
      have hle : 10 ^ (fs.take 3).length ≤ 10 ^ 3 :=
        Nat.pow_le_pow_right (by decide) (List.length_take_le _ _)
      rw [Option.elim_some, Option.elim_some, parseInt_number hnumber, if_pos (by omega)]
  have hsigned : Java.parseInt ((if g.negative then ['-'] else []) ++ g.year) =
      if Java.IsInt g.signedYear then some g.signedYear else none :=
    parseInt_signed hyear g.negative
  rw [DateTimeLiteral.setFields, hsigned]
  by_cases hint : Java.IsInt g.signedYear
  · rw [if_pos hint, if_pos hint, Option.bind_some, parseInt_pair h.month, Option.bind_some,
      parseInt_pair h.day, Option.bind_some, htime _ fun t ht => (h.time t ht).hour,
      Option.bind_some, htime _ fun t ht => (h.time t ht).minute, Option.bind_some,
      htime _ fun t ht => (h.time t ht).second, Option.bind_some]
    exact congrArg (Option.map _) hmillis
  · rw [if_neg hint, if_neg hint]
    rfl

theorem parseDateTime_text {g : DateTimeLiteral} (h : g.WellFormed) (defaultZone : TimeZone) :
    parseDateTime defaultZone g.text = (g.setFields defaultZone).map some := by
  rw [parseDateTime, matchDateTime_eq_some_iff.mpr ⟨rfl, h⟩]

theorem dateTimeText_injective {g g' : DateTimeLiteral} (h : g.WellFormed) (h' : g'.WellFormed)
    (htext : g.text = g'.text) : g = g' :=
  Option.some.inj ((matchDateTime_eq_some_iff.mpr ⟨rfl, h⟩).symm.trans
    (matchDateTime_eq_some_iff.mpr ⟨htext, h'⟩))

/-! ## What literals mean -/

namespace DateTimeLiteral

variable (g : DateTimeLiteral)

/-- The year before the year 1 is that of -0001. -/
def astronomicalYear : ℤ := if g.negative then 1 - number g.year else number g.year

/-- The month, counted from January of the year 0. -/
def monthIndex : ℤ := 12 * g.astronomicalYear + (number g.month - 1)

def gregorianDay : ℤ := monthStart g.monthIndex + number g.day - 1

def julianDay : ℤ := julianMonthStart g.astronomicalYear (number g.month - 1) + number g.day - 1

def millis : ℕ := g.fraction.elim 0 fractionMillis

/-- The zone of the literal, or the default one. -/
def timeZone (defaultZone : TimeZone) : TimeZone :=
  g.zone.elim defaultZone fun
    | .utc => .gmt
    | .offset negative hours minutes =>
      .fixed ((if negative then -1 else 1) *
        (number hours * hourMillis + number minutes * minuteMillis))

/-- The local time, to the millisecond. -/
def localTime : ℤ :=
  g.gregorianDay * dayMillis + g.hour * hourMillis + g.minute * minuteMillis + g.second * 1000 +
    g.millis

/-- An instant with that local time; a zone that puts its clocks back has two of them, and where
    it puts them forward there is none. -/
def Denotes (defaultZone : TimeZone) (t : ℤ) : Prop :=
  (g.timeZone defaultZone).toLocal t = g.localTime

def instant (defaultZone : TimeZone) : ℤ := (g.timeZone defaultZone).toInstant g.localTime

/-- The ranges of the fields, and the other rules for literals. -/
structure Valid : Prop where
  year : number g.year ≠ 0 ∧ (4 < g.year.length → g.year.head? ≠ some '0')
  month : 1 ≤ number g.month ∧ number g.month ≤ 12
  day : 1 ≤ number g.day ∧ number g.day - 1 ≤ lastDay g.monthIndex
  time : (g.hour ≤ 23 ∧ g.minute ≤ 59 ∧ g.second ≤ 59) ∨
    (g.hour = 24 ∧ g.minute = 0 ∧ g.second = 0 ∧ ∀ fs ∈ g.fraction, number fs = 0)
  zone : ∀ negative hours minutes, g.zone = some (.offset negative hours minutes) →
    (number hours ≤ 13 ∧ number minutes ≤ 59) ∨ (number hours = 14 ∧ number minutes = 0)

/-- Valid literals that are read right: the year is positive and small enough, the hour is not 24,
    a fraction has three digits unless it is zero in them, the date is one of the Gregorian
    calendar, or the same one in the Julian calendar, and the time zone has the local time. -/
structure Readable (defaultZone : TimeZone) : Prop extends g.Valid where
  positive : g.negative = false
  hours : g.hour ≠ 24
  fraction : g.readMillis = g.millis
  calendar : gregorianCutover ≤ g.gregorianDay ∨
    (g.julianDay < gregorianCutover ∧ g.julianDay = g.gregorianDay)
  denotes : ∃ t, g.Denotes defaultZone t
  range : number g.year ≤ 292278994 ∧ Java.IsLong (g.instant defaultZone)

end DateTimeLiteral

def IsDateTime (text : List Char) : Prop :=
  ∃ g : DateTimeLiteral, text = g.text ∧ g.WellFormed ∧ g.Valid

structure DateTimeRight (defaultZone : TimeZone) (text : List Char) : Prop where
  literal : ∀ g : DateTimeLiteral, text = g.text → g.WellFormed → g.Valid →
    ∃ c t, parseDateTime defaultZone text = some (some c) ∧ c.getTime = some t ∧
      g.Denotes defaultZone t
  other : ¬ IsDateTime text → parseDateTime defaultZone text = some none

theorem timeZone_eq {g : DateTimeLiteral} (h : g.Valid) (defaultZone : TimeZone) :
    (g.fields defaultZone).zone = g.timeZone defaultZone := by
  have hzone := h.zone
  rw [DateTimeLiteral.fields, DateTimeLiteral.timeZone]
  dsimp only
  match hz : g.zone with
  | none => rfl
  | some .utc => rfl
  | some (.offset negative hours minutes) =>
    have hrange := hzone negative hours minutes hz
    exact if_pos (by omega)

theorem mod_four_of_isLeap {year : ℤ} (h : isLeap year = true) : year % 4 = 0 := by
  rw [isLeap, Bool.and_eq_true, decide_eq_true_eq] at h
  exact h.1

/-- Months of the Julian calendar are at least as long. -/
theorem lastDay_le_julianLastDay {year month : ℤ} (hlow : 0 ≤ month) (hhigh : month ≤ 11) :
    lastDay (12 * year + month) ≤ julianLastDay year month := by
  have hstart : monthStart (12 * year + month) =
      yearStart year + daysBefore (isLeap year) month := by
    rw [monthStart, show (12 * year + month) / 12 = year by omega,
      show (12 * year + month) % 12 = month by omega]
  have hyear := Calendar.yearStart_succ year
  have hleap : isLeap year = true → year % 4 = 0 := mod_four_of_isLeap
  rw [lastDay, hstart, julianLastDay]
  split
  · next hlast =>
    subst hlast
    rw [monthStart, show (12 * year + 11 + 1) / 12 = year + 1 by omega,
      show (12 * year + 11 + 1) % 12 = 0 by omega, hyear]
    cases hl : isLeap year with
    | true =>
      have hfour := hleap hl
      simp [julianMonthStart, daysBefore, hfour]
      omega
    | false =>
      by_cases hfour : year % 4 = 0
      · simp [julianMonthStart, daysBefore, hfour]
        omega
      · simp [julianMonthStart, daysBefore, hfour]
        omega
  · have hnext : monthStart (12 * year + month + 1) =
        yearStart year + daysBefore (isLeap year) (month + 1) := by
      rw [monthStart, show (12 * year + month + 1) / 12 = year by omega,
        show (12 * year + month + 1) % 12 = month + 1 by omega]
    rw [hnext]
    cases hl : isLeap year with
    | true =>
      simp only [julianMonthStart, daysBefore, hleap hl, decide_true]
      omega
    | false =>
      by_cases hfour : year % 4 = 0
      · simp only [julianMonthStart, daysBefore, hfour, decide_true, Bool.false_eq_true, if_false,
          if_true]
        split_ifs <;> omega
      · simp only [julianMonthStart, daysBefore, hfour, decide_false, Bool.false_eq_true, if_false]
        omega

/-- The day of a valid literal is the one of a date that exists. -/
theorem fixedDay_eq_some_iff {g : DateTimeLiteral} (h : g.Valid) (hpositive : g.negative = false) :
    fixedDay g.signedYear (number g.month - 1) (number g.day) = some g.gregorianDay ↔
      gregorianCutover ≤ g.gregorianDay ∨
        (g.julianDay < gregorianCutover ∧ g.julianDay = g.gregorianDay) := by
  have hyear : g.astronomicalYear = g.signedYear := by
    rw [DateTimeLiteral.astronomicalYear, DateTimeLiteral.signedYear, hpositive]
    rfl
  have hgregorian : monthStart (12 * g.signedYear + (number g.month - 1)) + number g.day - 1 =
      g.gregorianDay := by
    rw [DateTimeLiteral.gregorianDay, DateTimeLiteral.monthIndex, hyear]
  have hjulian : julianMonthStart g.signedYear (number g.month - 1) + number g.day - 1 =
      g.julianDay := by
    rw [DateTimeLiteral.julianDay, hyear]
  have hlast : (number g.day : ℤ) - 1 ≤ lastDay (12 * g.signedYear + (number g.month - 1)) := by
    rw [← hyear]
    exact h.day.2
  have hjulianLast : (number g.day : ℤ) - 1 ≤ julianLastDay g.signedYear (number g.month - 1) := by
    have hmonth := h.month
    exact hlast.trans (lastDay_le_julianLastDay (by omega) (by omega))
  rw [fixedDay, hgregorian, hjulian, if_pos hlast, if_pos hjulianLast]
  by_cases hcut : gregorianCutover ≤ g.gregorianDay
  · rw [if_pos hcut]
    exact iff_of_true rfl (.inl hcut)
  · rw [if_neg hcut, or_iff_right hcut]
    by_cases hj : g.julianDay < gregorianCutover
    · rw [if_pos hj, and_iff_right hj, Option.some.injEq]
    · rw [if_neg hj]
      exact iff_of_false nofun fun h => hj h.1

theorem Fields.getTime_eq_some_iff {c : Fields} {t : ℤ} : c.getTime = some t ↔
    c.InRange ∧ ∃ day, fixedDay c.year c.month c.dayOfMonth = some day ∧
      (Java.IsLong t ∧ c.AreOf day (c.zone.toLocal t)) ∧
        c.zone.toInstant (c.localTime day) = t := by
  rw [getTime]
  split
  · next h =>
    rw [and_iff_right h, Option.bind_eq_some_iff]
    refine exists_congr fun day => and_congr_right fun _ => ?_
    dsimp only
    constructor
    · intro h
      split at h
      · next hlong =>
        obtain rfl := Option.some.inj h
        exact ⟨hlong, rfl⟩
      · cases h
    · rintro ⟨hlong, rfl⟩
      exact if_pos hlong
  · next h => exact iff_of_false nofun fun h' => h h'.1

theorem millis_lt {g : DateTimeLiteral} (h : g.WellFormed) :
    g.millis < 1000 ∧ g.readMillis < 1000 := by
  rw [DateTimeLiteral.millis, DateTimeLiteral.readMillis]
  cases hf : g.fraction with
  | none => exact ⟨by decide, by decide⟩
  | some fs =>
    obtain ⟨t, ht, hfs⟩ := Option.bind_eq_some_iff.mp hf
    have hnumber := (h.time t ht).fraction fs hfs
    obtain ⟨n, -, hn, hlt⟩ := parseMillis_take hnumber
    have hread := number_lt (isNumber_take hnumber).2
    have hle : 10 ^ (fs.take 3).length ≤ 10 ^ 3 :=
      Nat.pow_le_pow_right (by decide) (List.length_take_le _ _)
    exact ⟨by rw [Option.elim_some]; omega, by rw [Option.elim_some]; omega⟩

/-- The local time of the calendar of a literal is its own exactly for its own day, if its
    fraction is read right. -/
theorem areOf_iff {g : DateTimeLiteral} (h : g.WellFormed) (defaultZone : TimeZone)
    (hhour : g.hour ≤ 23) (hminute : g.minute ≤ 59) (hsecond : g.second ≤ 59) (day : ℤ) :
    (g.fields defaultZone).AreOf day g.localTime ↔
      day = g.gregorianDay ∧ g.readMillis = g.millis := by
  obtain ⟨hmillis, hread⟩ := millis_lt h
  have hparts : dayOf g.localTime = g.gregorianDay ∧
      g.localTime % dayMillis / 1000 = g.hour * 3600 + g.minute * 60 + g.second ∧
        g.localTime % 1000 = g.millis := by
    simp only [DateTimeLiteral.localTime, dayOf, dayMillis, hourMillis, minuteMillis]
    omega
  obtain ⟨hday, htime, hms⟩ := hparts
  have hset : ((g.fields defaultZone).millisecondIsSet →
      g.localTime % 1000 = (g.fields defaultZone).millisecond) ↔ g.readMillis = g.millis := by
    rw [hms]
    show (g.fraction.isSome = true → (g.millis : ℤ) = g.readMillis) ↔ _
    rw [DateTimeLiteral.millis, DateTimeLiteral.readMillis]
    cases g.fraction with
    | none => exact iff_of_true (fun h => by cases h) rfl
    | some fs =>
      rw [Option.isSome_some, imp_iff_right rfl, Nat.cast_inj]
      exact eq_comm
  have htimes : (g.fields defaultZone).timeIsSet → g.localTime % dayMillis / 1000 =
      (g.fields defaultZone).hourOfDay * 3600 + (g.fields defaultZone).minute * 60 +
        (g.fields defaultZone).second := fun _ => htime
  rw [Fields.AreOf, hday, hset, and_iff_right htimes, eq_comm]

/-- The time of the calendar of a valid literal. -/
theorem getTime_iff {g : DateTimeLiteral} (h : g.WellFormed) (hvalid : g.Valid)
    (defaultZone : TimeZone) :
    (∃ c t, g.setFields defaultZone = some c ∧ c.getTime = some t ∧ g.Denotes defaultZone t) ↔
      g.Readable defaultZone := by
  have hzone := timeZone_eq hvalid defaultZone
  have hlocal : g.readMillis = g.millis →
      (g.fields defaultZone).localTime g.gregorianDay = g.localTime := by
    intro hmillis
    rw [Fields.localTime, DateTimeLiteral.localTime, ← hmillis]
    rfl
  rw [setFields_eq h]
  constructor
  · rintro ⟨c, t, hc, htime, hdenotes⟩
    split at hc
    · next hint =>
      obtain ⟨rfl⟩ := hc
      obtain ⟨hrange, day, hday, ⟨hlong, hareOf⟩, ht⟩ := Fields.getTime_eq_some_iff.mp htime
      have hyear : 1 ≤ g.signedYear ∧ g.signedYear ≤ 292278994 := hrange.year
      have hhour : (g.hour : ℤ) ≤ 23 := hrange.hourOfDay.2
      have hminute : (g.minute : ℤ) ≤ 59 := hrange.minute.2
      have hsecond : (g.second : ℤ) ≤ 59 := hrange.second.2
      have hpositive : g.negative = false := by
        rw [DateTimeLiteral.signedYear] at hyear
        split at hyear
        · omega
        · next hn => exact Bool.eq_false_iff.mpr hn
      rw [hzone, show (g.timeZone defaultZone).toLocal t = g.localTime from hdenotes,
        areOf_iff h defaultZone (by omega) (by omega) (by omega)] at hareOf
      obtain ⟨rfl, hmillis⟩ := hareOf
      rw [hlocal hmillis, hzone] at ht
      refine ⟨hvalid, hpositive, by omega, hmillis,
        (fixedDay_eq_some_iff hvalid hpositive).mp hday, ⟨t, hdenotes⟩, ?_, ?_⟩
      · rw [DateTimeLiteral.signedYear, hpositive, if_neg Bool.false_ne_true] at hyear
        omega
      · rwa [DateTimeLiteral.instant, ht]
    · cases hc
  · intro hreadable
    obtain ⟨t, ht⟩ := hreadable.denotes
    have hyear : g.signedYear = number g.year := by
      rw [DateTimeLiteral.signedYear, hreadable.positive, if_neg Bool.false_ne_true]
    have hmonth := hvalid.month
    have hday := hvalid.day
    have htimes := hvalid.time
    have hhours := hreadable.hours
    have hread := (millis_lt h).2
    have hlast : lastDay g.monthIndex ≤ 30 := by
      have hsucc := Calendar.monthStart_succ g.monthIndex
      rw [lastDay]
      omega
    have hint : Java.IsInt g.signedYear := by
      have hle := hreadable.range.1
      rw [hyear]
      exact ⟨by omega, by omega⟩
    have hdenotes : g.Denotes defaultZone (g.instant defaultZone) :=
      TimeZone.toLocal_toInstant ht
    have hareOf : (g.fields defaultZone).AreOf g.gregorianDay
        ((g.timeZone defaultZone).toLocal (g.instant defaultZone)) := by
      rw [show (g.timeZone defaultZone).toLocal (g.instant defaultZone) = g.localTime from hdenotes]
      exact (areOf_iff h defaultZone (by omega) (by omega) (by omega) _).mpr
        ⟨rfl, hreadable.fraction⟩
    refine ⟨_, g.instant defaultZone, if_pos hint, Fields.getTime_eq_some_iff.mpr
      ⟨?_, g.gregorianDay, ?_, ⟨hreadable.range.2, ?_⟩, ?_⟩, hdenotes⟩
    · have hzero := hvalid.year.1
      have hle := hreadable.range.1
      constructor
      · show 1 ≤ g.signedYear ∧ g.signedYear ≤ 292278994
        omega
      · show 0 ≤ (number g.month : ℤ) - 1 ∧ (number g.month : ℤ) - 1 ≤ 11
        omega
      · show 1 ≤ (number g.day : ℤ) ∧ (number g.day : ℤ) ≤ 31
        omega
      · show 0 ≤ (g.hour : ℤ) ∧ (g.hour : ℤ) ≤ 23
        omega
      · show 0 ≤ (g.minute : ℤ) ∧ (g.minute : ℤ) ≤ 59
        omega
      · show 0 ≤ (g.second : ℤ) ∧ (g.second : ℤ) ≤ 59
        omega
      · show 0 ≤ (g.readMillis : ℤ) ∧ (g.readMillis : ℤ) ≤ 999
        omega
    · exact (fixedDay_eq_some_iff hvalid hreadable.positive).mpr hreadable.calendar
    · rwa [hzone]
    · rw [hzone, hlocal hreadable.fraction]
      rfl

/-- The texts that are read as XML Schema means them: if the pattern matches, the literal is valid,
    and it is one that the calendar of Java takes as it is meant. -/
theorem dateTime_iff (defaultZone : TimeZone) (text : List Char) : DateTimeRight defaultZone text ↔
    ∀ g : DateTimeLiteral, text = g.text → g.WellFormed → g.Readable defaultZone := by
  constructor
  · rintro h g rfl hwell
    by_cases hvalid : g.Valid
    · obtain ⟨c, t, hc, htime⟩ := h.literal g rfl hwell hvalid
      rw [parseDateTime_text hwell, Option.map_eq_some_iff] at hc
      obtain ⟨c', hc', ⟨rfl⟩⟩ := hc
      exact (getTime_iff hwell hvalid defaultZone).mp ⟨_, t, hc', htime⟩
    · have hother := h.other fun ⟨g', htext, hwell', hvalid'⟩ =>
        hvalid (dateTimeText_injective hwell hwell' htext ▸ hvalid')
      rw [parseDateTime_text hwell, Option.map_eq_some_iff] at hother
      obtain ⟨c, -, hc⟩ := hother
      cases hc
  · intro h
    constructor
    · rintro g rfl hwell hvalid
      obtain ⟨c, t, hc, htime⟩ := (getTime_iff hwell hvalid defaultZone).mpr (h g rfl hwell)
      exact ⟨c, t, by rw [parseDateTime_text hwell, hc, Option.map_some], htime⟩
    · intro hother
      rw [parseDateTime]
      cases hmatch : matchDateTime text with
      | none => rfl
      | some g =>
        obtain ⟨htext, hwell⟩ := matchDateTime_eq_some_iff.mp hmatch
        exact absurd ⟨g, htext, hwell, (h g htext hwell).toValid⟩ hother

/-- Half a second after noon. -/
def halfSecond : DateTimeLiteral where
  negative := false
  year := ['2', '0', '0', '8']
  month := ['0', '2']
  day := ['0', '1']
  time := some ⟨['1', '2'], ['0', '0'], ['0', '0'], some ['5']⟩
  zone := some .utc

/-- A fraction of one digit is read as so many milliseconds. -/
theorem halfSecond_misread : ¬ DateTimeRight .gmt "2008-02-01T12:00:00.5Z".toList := by
  intro h
  have hwell : halfSecond.WellFormed := by
    refine ⟨by decide, ⟨rfl, rfl⟩, ⟨rfl, rfl⟩, ?_, ?_⟩
    · rintro t ⟨rfl⟩
      refine ⟨⟨rfl, rfl⟩, ⟨rfl, rfl⟩, ⟨rfl, rfl⟩, ?_⟩
      rintro fs ⟨rfl⟩
      exact ⟨List.cons_ne_nil _ _, rfl⟩
    · rintro z ⟨rfl⟩
      trivial
  have hvalid : halfSecond.Valid :=
    ⟨by decide +kernel, by decide +kernel, by decide +kernel, .inl (by decide +kernel), nofun⟩
  obtain ⟨c, t, hc, htime, hdenotes⟩ := h.literal halfSecond (by decide +kernel) hwell hvalid
  have hread : (parseDateTime .gmt "2008-02-01T12:00:00.5Z".toList).bind (·.bind Fields.getTime) =
      some 1201867200005 := by decide +kernel
  have hlocal : halfSecond.localTime = 1201867200500 := by decide +kernel
  rw [hc, Option.bind_some, Option.bind_some, htime] at hread
  obtain rfl := Option.some.inj hread
  rw [DateTimeLiteral.Denotes, hlocal] at hdenotes
  exact absurd hdenotes (by decide +kernel)

end Xml

end Jbpm
