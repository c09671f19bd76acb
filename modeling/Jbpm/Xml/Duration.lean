/-
  Durations of XML Schema.

  * `Duration`, `valueOf`, `toString`: durations, and their literals;
  * `matchGroups_iff`: what the pattern of literals matches;
  * `Duration.addTo`, `getTimeInMillis`: dates to which durations are added, and their lengths;
  * `duration_iff`: the literals, durations and dates for which they are right.
-/
import Mathlib.Tactic.Ring
import Jbpm.Java.GregorianCalendar
import Jbpm.Java.Integer

namespace Jbpm

namespace Xml

open Calendar (addMonths monthOf lastDay dayOf dayOfMonth dayMillis hourMillis minuteMillis toLong)
open Java (TimeZone gregorianCutover)

/-! ## Durations -/

/-- An `int` that is not negative, as the setters check. -/
abbrev Count := Fin (2 ^ 31)

structure Duration where
  negative : Bool
  years : Count
  months : Count
  days : Count
  hours : Count
  minutes : Count
  seconds : Count
  millis : Count
  deriving DecidableEq

/-- The part of a literal after `T`; seconds with the digits of their fraction. -/
structure Time where
  hours : Option (List Char)
  minutes : Option (List Char)
  seconds : Option (List Char × Option (List Char))

/-- The groups of `durationPattern`. -/
structure Groups where
  negative : Bool
  years : Option (List Char)
  months : Option (List Char)
  days : Option (List Char)
  time : Option Time

/-! ### The pattern -/

/-- `(?:(\p{Digit}+)c)?`; the letter after the digits tells whether the part is there. -/
def takeNumber (c : Char) (text : List Char) : Option (List Char) × List Char :=
  match text.takeWhile Char.isDigit, text.dropWhile Char.isDigit with
  | d :: ds, c' :: rest => if c' = c then (some (d :: ds), rest) else (none, text)
  | _, _ => (none, text)

def takeSeconds (text : List Char) : Option (List Char × Option (List Char)) × List Char :=
  match takeNumber 'S' text, takeNumber '.' text with
  | (some ds, rest), _ => (some (ds, none), rest)
  | (none, _), (none, _) => (none, text)
  | (none, _), (some ds, rest) =>
    match takeNumber 'S' rest with
    | (some fs, rest) => (some (ds, some fs), rest)
    | (none, _) => (none, text)

def matchTime (text : List Char) : Option Time :=
  let (hours, text) := takeNumber 'H' text
  let (minutes, text) := takeNumber 'M' text
  let (seconds, text) := takeSeconds text
  if text = [] then some ⟨hours, minutes, seconds⟩ else none

/-- The groups after the sign. -/
def matchUnsigned (negative : Bool) : List Char → Option Groups
  | 'P' :: text =>
    let (years, text) := takeNumber 'Y' text
    let (months, text) := takeNumber 'M' text
    let (days, text) := takeNumber 'D' text
    match text with
    | [] => some ⟨negative, years, months, days, none⟩
    | 'T' :: text => (matchTime text).map fun t => ⟨negative, years, months, days, some t⟩
    | _ => none
  | _ => none

/-- `durationPattern.matcher(literal)`, if it `matches()` -/
def matchGroups (text : List Char) : Option Groups :=
  if text.head? = some '-' then matchUnsigned true text.tail else matchUnsigned false text

/-! ### Reading and writing -/

/-- `Integer.parseInt` and a setter -/
def count (digits : List Char) : Option Count :=
  (Java.parseInt digits).bind fun n =>
    if h : 0 ≤ n ∧ n < 2 ^ 31 then some ⟨n.toNat, by omega⟩ else none

def parseMillis (literal : List Char) : Option Count :=
  (Java.parseInt literal).bind fun number =>
    let digits := literal.length
    let number := if digits < 3 then number * (if digits = 1 then 100 else 10) else number
    if h : 0 ≤ number ∧ number < 2 ^ 31 then some ⟨number.toNat, by omega⟩ else none

/-- The field of a group; it is 0 without the group. -/
def field (group : Option (List Char)) : Option Count := group.elim (some 0) count

def Groups.duration (g : Groups) : Option Duration := do
  let years ← field g.years
  let months ← field g.months
  let days ← field g.days
  let hours ← field (g.time.bind Time.hours)
  let minutes ← field (g.time.bind Time.minutes)
  let seconds ← field ((g.time.bind Time.seconds).map Prod.fst)
  let millis ← ((g.time.bind Time.seconds).bind Prod.snd).elim (some 0) fun fraction =>
    parseMillis (fraction.take 3)
  some ⟨g.negative, years, months, days, hours, minutes, seconds, millis⟩

/-- `Duration.valueOf`; `none` if it throws a `NumberFormatException`, and `some none` for null -/
def valueOf (literal : List Char) : Option (Option Duration) :=
  match matchGroups literal with
  | none => some none
  | some g => g.duration.map some

def formatMillis (number : ℕ) : List Char :=
  (if number < 100 then (if number < 10 then ['0', '0'] else ['0']) else []) ++
    Nat.toDigits 10
      (if number % 10 = 0 then number / (if number % 100 = 0 then 100 else 10) else number)

def fieldText (n : Count) (c : Char) : List Char :=
  if n.val ≠ 0 then Nat.toDigits 10 n.val ++ [c] else []

def Duration.toString (d : Duration) : List Char :=
  let hasSeconds := d.millis.val ≠ 0 ∨ d.seconds.val ≠ 0
  (if d.negative then ['-'] else []) ++ 'P' ::
    (fieldText d.years 'Y' ++ (fieldText d.months 'M' ++ (fieldText d.days 'D' ++
      if d.hours.val ≠ 0 ∨ d.minutes.val ≠ 0 ∨ hasSeconds then
        'T' :: (fieldText d.hours 'H' ++ (fieldText d.minutes 'M' ++
          if hasSeconds then
            Nat.toDigits 10 d.seconds.val ++
              ((if d.millis.val ≠ 0 then '.' :: formatMillis d.millis.val else []) ++ ['S'])
          else []))
      else [])))

/-! ### Adding -/

def Duration.sign (d : Duration) : ℤ := if d.negative then -1 else 1

/-- `addTo`, of a calendar in a time zone -/
def Duration.addTo (d : Duration) (zone : TimeZone) (date : ℤ) : ℤ :=
  let date := zone.addMonths date (12 * (d.sign * d.years.val))
  let date := zone.addMonths date (d.sign * d.months.val)
  let date := zone.addDays date (d.sign * d.days.val)
  let date := date + d.sign * d.hours.val * hourMillis
  let date := date + d.sign * d.minutes.val * minuteMillis
  let date := date + d.sign * d.seconds.val * 1000
  date + d.sign * d.millis.val

def secondMillis : ℤ := 1000

def yearMillis : ℤ := 365 * dayMillis + 5 * hourMillis + 49 * minuteMillis + 12 * secondMillis

def monthMillis : ℤ := yearMillis / 12

/-- The length without the sign. -/
def Duration.length (d : Duration) : ℤ :=
  d.millis.val + secondMillis * d.seconds.val + minuteMillis * d.minutes.val +
    hourMillis * d.hours.val + dayMillis * d.days.val + monthMillis * d.months.val +
      yearMillis * d.years.val

/-- `getTimeInMillis`; all sums and products are those of `long`. -/
def Duration.getTimeInMillis (d : Duration) : ℤ := toLong d.length

/-! ## Literals -/

def IsNumber (ds : List Char) : Prop := ds ≠ [] ∧ ds.all Char.isDigit

def partText (c : Char) (part : Option (List Char)) : List Char := part.elim [] (· ++ [c])

def secondsText : Option (List Char × Option (List Char)) → List Char
  | none => []
  | some (ds, none) => ds ++ ['S']
  | some (ds, some fs) => ds ++ '.' :: (fs ++ ['S'])

def Time.text (t : Time) : List Char :=
  partText 'H' t.hours ++ (partText 'M' t.minutes ++ secondsText t.seconds)

def Groups.text (g : Groups) : List Char :=
  (if g.negative then ['-'] else []) ++ unsigned g
where
  unsigned (g : Groups) : List Char :=
    'P' :: (partText 'Y' g.years ++ (partText 'M' g.months ++ (partText 'D' g.days ++
      g.time.elim [] fun t => 'T' :: t.text)))

structure Time.WellFormed (t : Time) : Prop where
  hours : ∀ ds ∈ t.hours, IsNumber ds
  minutes : ∀ ds ∈ t.minutes, IsNumber ds
  seconds : ∀ s ∈ t.seconds, IsNumber s.1
  fraction : ∀ s ∈ t.seconds, ∀ fs ∈ s.2, IsNumber fs

structure Groups.WellFormed (g : Groups) : Prop where
  years : ∀ ds ∈ g.years, IsNumber ds
  months : ∀ ds ∈ g.months, IsNumber ds
  days : ∀ ds ∈ g.days, IsNumber ds
  time : ∀ t ∈ g.time, t.WellFormed

/-- The letter after the digits at the beginning of a text. -/
def letter (text : List Char) : Option Char := (text.dropWhile Char.isDigit).head?

section Parts

variable {c c' : Char} {ds fs text rest : List Char} {part : Option (List Char)}

theorem IsNumber.takeWhile (h : IsNumber ds) (hc : c.isDigit = false) :
    (ds ++ c :: rest).takeWhile Char.isDigit = ds := by
  rw [List.takeWhile_append_of_pos (List.all_eq_true.mp h.2),
    List.takeWhile_cons_of_neg (by rw [hc]; exact Bool.false_ne_true), List.append_nil]

theorem IsNumber.dropWhile (h : IsNumber ds) (hc : c.isDigit = false) :
    (ds ++ c :: rest).dropWhile Char.isDigit = c :: rest := by
  rw [List.dropWhile_append_of_pos (List.all_eq_true.mp h.2),
    List.dropWhile_cons_of_neg (by rw [hc]; exact Bool.false_ne_true)]

theorem letter_number (h : IsNumber ds) (hc : c.isDigit = false) :
    letter (ds ++ c :: rest) = some c := by
  rw [letter, h.dropWhile hc]
  rfl

theorem letter_partText (h : ∀ ds ∈ part, IsNumber ds) (hc : c.isDigit = false) :
    letter (partText c part ++ rest) = if part.isSome then some c else letter rest := by
  cases part with
  | none => rfl
  | some ds =>
    rw [partText, Option.elim_some, List.append_assoc, List.singleton_append]
    exact letter_number (h ds rfl) hc

theorem takeNumber_number (h : IsNumber ds) (hc : c.isDigit = false) :
    takeNumber c (ds ++ c :: rest) = (some ds, rest) := by
  obtain ⟨d, ds', rfl⟩ := List.exists_cons_of_ne_nil h.1
  rw [takeNumber, h.takeWhile hc, h.dropWhile hc]
  exact if_pos rfl

theorem takeNumber_of_letter (h : letter text ≠ some c) : takeNumber c text = (none, text) := by
  rw [takeNumber]
  split
  · next c' rest _ hdrop =>
    refine if_neg fun hc => h ?_
    rw [letter, hdrop, hc]
    rfl
  · rfl

theorem takeNumber_text (h : ∀ ds ∈ part, IsNumber ds) (hc : c.isDigit = false)
    (hrest : letter rest ≠ some c) : takeNumber c (partText c part ++ rest) = (part, rest) := by
  cases part with
  | none => exact takeNumber_of_letter hrest
  | some ds =>
    rw [partText, Option.elim_some, List.append_assoc, List.singleton_append]
    exact takeNumber_number (h ds rfl) hc

/-- What is taken is at the beginning of the text. -/
theorem takeNumber_spec (h : takeNumber c text = (part, rest)) :
    text = partText c part ++ rest ∧ ∀ ds ∈ part, IsNumber ds := by
  rw [takeNumber] at h
  split at h
  · next d ds c' rest' htake hdrop =>
    split at h
    · next hc =>
      obtain ⟨rfl, rfl⟩ := Prod.mk.inj h
      have htext := List.takeWhile_append_dropWhile (p := Char.isDigit) (l := text)
      rw [htake, hdrop, hc] at htext
      constructor
      · rw [← htext, partText, Option.elim_some, List.append_assoc, List.singleton_append]
      · rintro ds' ⟨rfl⟩
        refine ⟨List.cons_ne_nil _ _, ?_⟩
        rw [← htake]
        exact List.all_takeWhile
    · obtain ⟨rfl, rfl⟩ := Prod.mk.inj h
      exact ⟨rfl, nofun⟩
  · obtain ⟨rfl, rfl⟩ := Prod.mk.inj h
    exact ⟨rfl, nofun⟩

theorem takeSeconds_text {seconds : Option (List Char × Option (List Char))}
    (h : ∀ s ∈ seconds, IsNumber s.1) (hf : ∀ s ∈ seconds, ∀ fs ∈ s.2, IsNumber fs) :
    takeSeconds (secondsText seconds) = (seconds, []) := by
  match seconds with
  | none => rfl
  | some (ds, none) =>
    rw [takeSeconds, secondsText, takeNumber_number (h _ rfl) (by decide)]
  | some (ds, some fs) =>
    have hds : IsNumber ds := h _ rfl
    have hletter : letter (ds ++ '.' :: (fs ++ ['S'])) ≠ some 'S' := by
      rw [letter_number hds (by decide)]
      decide
    rw [takeSeconds, secondsText, takeNumber_of_letter hletter,
      takeNumber_number hds (by decide)]
    dsimp only
    rw [takeNumber_number (hf _ rfl _ rfl) (by decide)]

theorem takeSeconds_spec {seconds : Option (List Char × Option (List Char))}
    (h : takeSeconds text = (seconds, rest)) : text = secondsText seconds ++ rest ∧
      (∀ s ∈ seconds, IsNumber s.1) ∧ ∀ s ∈ seconds, ∀ fs ∈ s.2, IsNumber fs := by
  rw [takeSeconds] at h
  rcases hwhole : takeNumber 'S' text with ⟨_ | ds, rest'⟩
  · rw [hwhole] at h
    rcases hpoint : takeNumber '.' text with ⟨_ | ds, rest₁⟩
    · rw [hpoint] at h
      obtain ⟨rfl, rfl⟩ := Prod.mk.inj h
      exact ⟨rfl, nofun, nofun⟩
    · obtain ⟨htext, hds⟩ := takeNumber_spec hpoint
      rw [hpoint] at h
      dsimp only at h
      rcases hfraction : takeNumber 'S' rest₁ with ⟨_ | fs, rest₂⟩
      · rw [hfraction] at h
        obtain ⟨rfl, rfl⟩ := Prod.mk.inj h
        exact ⟨rfl, nofun, nofun⟩
      · obtain ⟨hrest, hfs⟩ := takeNumber_spec hfraction
        rw [hfraction] at h
        obtain ⟨rfl, rfl⟩ := Prod.mk.inj h
        refine ⟨?_, ?_, ?_⟩
        · rw [htext, hrest, partText, partText, secondsText]
          simp only [Option.elim_some, List.append_assoc, List.cons_append, List.nil_append]
        · rintro s ⟨rfl⟩
          exact hds ds rfl
        · rintro s ⟨rfl⟩ fs' ⟨rfl⟩
          exact hfs fs rfl
  · obtain ⟨htext, hds⟩ := takeNumber_spec hwhole
    rw [hwhole] at h
    obtain ⟨rfl, rfl⟩ := Prod.mk.inj h
    refine ⟨htext, ?_, ?_⟩
    · rintro s ⟨rfl⟩
      exact hds ds rfl
    · rintro s ⟨rfl⟩ fs hfs
      cases hfs

theorem letter_secondsText {seconds : Option (List Char × Option (List Char))}
    (h : ∀ s ∈ seconds, IsNumber s.1) :
    letter (secondsText seconds) ≠ some 'M' ∧ letter (secondsText seconds) ≠ some 'H' := by
  match seconds with
  | none => decide
  | some (ds, none) =>
    have hds : IsNumber ds := h _ rfl
    rw [secondsText, letter_number hds (by decide)]
    decide
  | some (ds, some fs) =>
    have hds : IsNumber ds := h _ rfl
    rw [secondsText, letter_number hds (by decide)]
    decide

theorem matchTime_iff {t : Time} : matchTime text = some t ↔ text = t.text ∧ t.WellFormed := by
  constructor
  · intro h
    rw [matchTime] at h
    rcases hhours : takeNumber 'H' text with ⟨hours, text₁⟩
    rw [hhours] at h
    dsimp only at h
    rcases hminutes : takeNumber 'M' text₁ with ⟨minutes, text₂⟩
    rw [hminutes] at h
    dsimp only at h
    rcases hseconds : takeSeconds text₂ with ⟨seconds, text₃⟩
    rw [hseconds] at h
    dsimp only at h
    split at h
    · next hend =>
      obtain ⟨rfl⟩ := h
      obtain ⟨htext, hwell⟩ := takeNumber_spec hhours
      obtain ⟨htext₁, hwell₁⟩ := takeNumber_spec hminutes
      obtain ⟨htext₂, hwell₂, hwell₃⟩ := takeSeconds_spec hseconds
      rw [hend, List.append_nil] at htext₂
      exact ⟨by rw [htext, htext₁, htext₂]; rfl, hwell, hwell₁, hwell₂, hwell₃⟩
    · cases h
  · rintro ⟨rfl, h⟩
    have hseconds := letter_secondsText h.seconds
    have hminutes : letter (partText 'M' t.minutes ++ secondsText t.seconds) ≠ some 'H' := by
      rw [letter_partText h.minutes (by decide)]
      split
      · decide
      · exact hseconds.2
    rw [matchTime, Time.text, takeNumber_text h.hours (by decide) hminutes]
    dsimp only
    rw [takeNumber_text h.minutes (by decide) hseconds.1]
    dsimp only
    rw [takeSeconds_text h.seconds h.fraction]
    exact if_pos rfl

/-- What is after the days. -/
theorem letter_time (time : Option Time) : letter (time.elim [] fun t => 'T' :: t.text) ≠ some 'Y' ∧
    letter (time.elim [] fun t => 'T' :: t.text) ≠ some 'M' ∧
      letter (time.elim [] fun t => 'T' :: t.text) ≠ some 'D' := by
  cases time with
  | none => decide
  | some t =>
    have hletter : letter ('T' :: t.text) = some 'T' := rfl
    rw [Option.elim_some, hletter]
    decide

theorem matchUnsigned_iff {negative : Bool} {g : Groups} : matchUnsigned negative text = some g ↔
    g.negative = negative ∧ text = Groups.text.unsigned g ∧ g.WellFormed := by
  constructor
  · intro h
    rw [matchUnsigned.eq_def] at h
    split at h
    · next text =>
      rcases hyears : takeNumber 'Y' text with ⟨years, text₁⟩
      rw [hyears] at h
      dsimp only at h
      rcases hmonths : takeNumber 'M' text₁ with ⟨months, text₂⟩
      rw [hmonths] at h
      dsimp only at h
      rcases hdays : takeNumber 'D' text₂ with ⟨days, text₃⟩
      rw [hdays] at h
      dsimp only at h
      obtain ⟨htext, hwell⟩ := takeNumber_spec hyears
      obtain ⟨htext₁, hwell₁⟩ := takeNumber_spec hmonths
      obtain ⟨htext₂, hwell₂⟩ := takeNumber_spec hdays
      rw [htext, htext₁, htext₂]
      split at h
      · obtain ⟨rfl⟩ := h
        exact ⟨rfl, rfl, hwell, hwell₁, hwell₂, nofun⟩
      · obtain ⟨t, ht, rfl⟩ := Option.map_eq_some_iff.mp h
        obtain ⟨rfl, htime⟩ := matchTime_iff.mp ht
        refine ⟨rfl, rfl, hwell, hwell₁, hwell₂, ?_⟩
        rintro t' ⟨rfl⟩
        exact htime
      · cases h
    · cases h
  · rintro ⟨rfl, rfl, h⟩
    obtain ⟨hY, hM, hD⟩ := letter_time g.time
    have hdays : letter (partText 'D' g.days ++ g.time.elim [] fun t => 'T' :: t.text) ≠
          some 'M' ∧
        letter (partText 'D' g.days ++ g.time.elim [] fun t => 'T' :: t.text) ≠ some 'Y' := by
      rw [letter_partText h.days (by decide)]
      split
      · decide
      · exact ⟨hM, hY⟩
    have hmonths : letter (partText 'M' g.months ++ (partText 'D' g.days ++
        g.time.elim [] fun t => 'T' :: t.text)) ≠ some 'Y' := by
      rw [letter_partText h.months (by decide)]
      split
      · decide
      · exact hdays.2
    rw [Groups.text.unsigned, matchUnsigned, takeNumber_text h.years (by decide) hmonths]
    dsimp only
    rw [takeNumber_text h.months (by decide) hdays.1]
    dsimp only
    rw [takeNumber_text h.days (by decide) hD]
    have htime := h.time
    obtain ⟨negative, years, months, days, time⟩ := g
    cases time with
    | none => rfl
    | some t =>
      exact congrArg (Option.map _) (matchTime_iff.mpr ⟨rfl, htime t rfl⟩)

/-- The pattern matches the texts of groups. -/
theorem matchGroups_iff {g : Groups} :
    matchGroups text = some g ↔ text = g.text ∧ g.WellFormed := by
  rw [matchGroups]
  split
  · next hsign =>
    obtain ⟨rest, rfl⟩ : ∃ rest, text = '-' :: rest := List.head?_eq_some_iff.mp hsign
    rw [List.tail_cons, matchUnsigned_iff, Groups.text]
    cases g.negative with
    | true =>
      rw [and_iff_right rfl, if_pos rfl, List.singleton_append, List.cons_inj_right]
    | false =>
      refine iff_of_false (fun h => Bool.false_ne_true h.1) ?_
      rintro ⟨h, -⟩
      cases h
  · next hsign =>
    rw [matchUnsigned_iff, Groups.text]
    cases g.negative with
    | true =>
      refine iff_of_false (fun h => Bool.false_ne_true h.1.symm) ?_
      rintro ⟨rfl, -⟩
      exact hsign rfl
    | false => rw [and_iff_right rfl, if_neg Bool.false_ne_true, List.nil_append]

end Parts

/-! ### Their values -/

def number (ds : List Char) : ℕ := Nat.ofDigitChars 10 ds 0

def value (part : Option (List Char)) : ℕ := part.elim 0 number

/-- The milliseconds of a fraction; what is below them is left out. -/
def fractionMillis (fs : List Char) : ℕ := number ((fs ++ ['0', '0', '0']).take 3)

def Groups.hours (g : Groups) : Option (List Char) := g.time.bind Time.hours

def Groups.minutes (g : Groups) : Option (List Char) := g.time.bind Time.minutes

def Groups.seconds (g : Groups) : Option (List Char) := (g.time.bind Time.seconds).map Prod.fst

def Groups.fraction (g : Groups) : Option (List Char) := (g.time.bind Time.seconds).bind Prod.snd

structure Denotes (g : Groups) (d : Duration) : Prop where
  negative : d.negative = g.negative
  years : d.years.val = value g.years
  months : d.months.val = value g.months
  days : d.days.val = value g.days
  hours : d.hours.val = value g.hours
  minutes : d.minutes.val = value g.minutes
  seconds : d.seconds.val = value g.seconds
  millis : d.millis.val = g.fraction.elim 0 fractionMillis

/-- The numbers are `int`s. -/
def Groups.Fits (g : Groups) : Prop :=
  ∀ part ∈ [g.years, g.months, g.days, g.hours, g.minutes, g.seconds], value part < 2 ^ 31

theorem IsNumber.head?_ne {ds : List Char} (h : IsNumber ds) : ds.head? ≠ some '-' :=
  Java.head?_ne_of_isDigit h.2 rfl

theorem parseInt_number {ds : List Char} (h : IsNumber ds) :
    Java.parseInt ds = if number ds < 2 ^ 31 then some (number ds : ℤ) else none := by
  rw [Java.parseInt]
  simp only [if_neg h.head?_ne]
  by_cases hlt : number ds < 2 ^ 31
  · have hint : Java.IsInt (number ds) := ⟨by omega, by omega⟩
    rw [if_pos hlt]
    exact if_pos ⟨h.1, h.2, hint⟩
  · rw [if_neg hlt]
    refine if_neg fun h' => hlt ?_
    have hint : Java.IsInt (number ds) := h'.2.2
    have hbound := hint.2
    omega

theorem field_eq_some_iff {part : Option (List Char)} (h : ∀ ds ∈ part, IsNumber ds) {n : Count} :
    field part = some n ↔ value part < 2 ^ 31 ∧ n.val = value part := by
  cases part with
  | none =>
    rw [field, value, Option.elim_none, Option.elim_none, Option.some.injEq, eq_comm, Fin.ext_iff]
    exact (and_iff_right (by decide)).symm
  | some ds =>
    rw [field, value, Option.elim_some, Option.elim_some, count, parseInt_number (h ds rfl)]
    by_cases hlt : number ds < 2 ^ 31
    · rw [if_pos hlt, Option.bind_some, dif_pos ⟨by omega, by omega⟩, Option.some.injEq,
        and_iff_right hlt, Fin.ext_iff, eq_comm]
      rfl
    · rw [if_neg hlt]
      exact iff_of_false nofun fun h => hlt h.1

theorem digit_le {c : Char} (h : c.isDigit = true) : c.toNat - '0'.toNat ≤ 9 := by
  rw [Char.isDigit_iff_toNat] at h
  have hzero : '0'.toNat = 48 := rfl
  have hnine : '9'.toNat = 57 := rfl
  omega

theorem ofDigitChars_lt {ds : List Char} (h : ∀ c ∈ ds, c.isDigit = true) (init : ℕ) :
    Nat.ofDigitChars 10 ds init < 10 ^ ds.length * (init + 1) := by
  induction ds generalizing init with
  | nil =>
    rw [Nat.ofDigitChars_nil, List.length_nil, pow_zero, one_mul]
    exact Nat.lt_succ_self init
  | cons c cs ih =>
    have hc := digit_le (h c (.head _))
    have hlt := ih (fun c hc => h c (.tail _ hc)) (10 * init + (c.toNat - '0'.toNat))
    rw [Nat.ofDigitChars_cons]
    refine hlt.trans_le ?_
    rw [List.length_cons, pow_succ, mul_assoc]
    exact Nat.mul_le_mul_left _ (by omega)

theorem number_lt {ds : List Char} (h : ds.all Char.isDigit) : number ds < 10 ^ ds.length := by
  have hlt := ofDigitChars_lt (List.all_eq_true.mp h) 0
  rwa [zero_add, mul_one] at hlt

theorem parseMillis_eq {literal : List Char} (h : IsNumber literal) {n : ℕ} (hn : n < 1000)
    (hliteral : number literal * (if literal.length < 3 then
      (if literal.length = 1 then 100 else 10) else 1) = n) :
    parseMillis literal = some ⟨n, by omega⟩ := by
  have hnumber : number literal < 2 ^ 31 := by
    split at hliteral
    · split at hliteral <;> omega
    · omega
  have hscaled : (if literal.length < 3 then
      (number literal : ℤ) * (if literal.length = 1 then 100 else 10) else number literal) = n := by
    rw [← hliteral]
    split
    · split <;> omega
    · omega
  rw [parseMillis, parseInt_number h, if_pos hnumber, Option.bind_some]
  simp only [hscaled]
  rw [dif_pos ⟨by omega, by omega⟩]
  rfl

theorem isNumber_take {fs : List Char} (h : IsNumber fs) : IsNumber (fs.take 3) := by
  refine ⟨?_, List.all_eq_true.mpr fun c hc =>
    List.all_eq_true.mp h.2 c (List.mem_of_mem_take hc)⟩
  rw [ne_eq, List.take_eq_nil_iff]
  rintro (h' | h')
  · cases h'
  · exact h.1 h'

/-- The first three digits of a fraction, with zeros after them. -/
theorem parseMillis_take {fs : List Char} (h : IsNumber fs) :
    ∃ n, parseMillis (fs.take 3) = some n ∧ n.val = fractionMillis fs ∧ n.val < 1000 := by
  have hdigits := List.all_eq_true.mp h.2
  have htake := isNumber_take h
  have hmillis : fractionMillis fs < 1000 ∧ number (fs.take 3) * (if (fs.take 3).length < 3 then
      (if (fs.take 3).length = 1 then 100 else 10) else 1) = fractionMillis fs := by
    match fs with
    | [] => exact absurd rfl h.1
    | [a] =>
      have ha := digit_le (hdigits a (by simp))
      simp [fractionMillis, number, Nat.ofDigitChars_cons] at *
      omega
    | [a, b] =>
      have ha := digit_le (hdigits a (by simp))
      have hb := digit_le (hdigits b (by simp))
      simp [fractionMillis, number, Nat.ofDigitChars_cons] at *
      omega
    | a :: b :: c :: rest =>
      have ha := digit_le (hdigits a (by simp))
      have hb := digit_le (hdigits b (by simp))
      have hc := digit_le (hdigits c (by simp))
      simp [fractionMillis, number, Nat.ofDigitChars_cons] at *
      omega
  exact ⟨_, parseMillis_eq htake hmillis.1 hmillis.2, rfl, hmillis.1⟩

theorem Groups.duration_eq {g : Groups} {millis : Count}
    (h : (g.fraction.elim (some 0) fun fraction => parseMillis (fraction.take 3)) = some millis) :
    ((field g.years).bind fun years => (field g.months).bind fun months =>
      (field g.days).bind fun days => (field g.hours).bind fun hours =>
        (field g.minutes).bind fun minutes => (field g.seconds).bind fun seconds =>
          some ⟨g.negative, years, months, days, hours, minutes, seconds, millis⟩) =
      g.duration := by
  have hdo : g.duration = (field g.years).bind fun years => (field g.months).bind fun months =>
      (field g.days).bind fun days => (field g.hours).bind fun hours =>
        (field g.minutes).bind fun minutes => (field g.seconds).bind fun seconds =>
          (g.fraction.elim (some 0) fun fraction => parseMillis (fraction.take 3)).bind
            fun millis =>
              some ⟨g.negative, years, months, days, hours, minutes, seconds, millis⟩ := rfl
  rw [hdo]
  simp only [h, Option.bind_some]

theorem Groups.WellFormed.exists_millis {g : Groups} (h : g.WellFormed) :
    ∃ n, (g.fraction.elim (some 0) fun fraction => parseMillis (fraction.take 3)) = some n ∧
      n.val = g.fraction.elim 0 fractionMillis := by
  cases hf : g.fraction with
  | none => exact ⟨0, rfl, rfl⟩
  | some fs =>
    obtain ⟨s, hs, hfs⟩ := Option.bind_eq_some_iff.mp hf
    obtain ⟨t, ht, hs⟩ := Option.bind_eq_some_iff.mp hs
    obtain ⟨n, hn, hvalue, -⟩ := parseMillis_take ((h.time t ht).fraction s hs fs hfs)
    exact ⟨n, hn, hvalue⟩

/-- The duration of groups, if their numbers are `int`s. -/
theorem duration_eq_some_iff {g : Groups} (h : g.WellFormed) {d : Duration} :
    g.duration = some d ↔ g.Fits ∧ Denotes g d := by
  have hhours : ∀ ds ∈ g.hours, IsNumber ds := fun ds hds => by
    obtain ⟨t, ht, hds⟩ := Option.bind_eq_some_iff.mp hds
    exact (h.time t ht).hours ds hds
  have hminutes : ∀ ds ∈ g.minutes, IsNumber ds := fun ds hds => by
    obtain ⟨t, ht, hds⟩ := Option.bind_eq_some_iff.mp hds
    exact (h.time t ht).minutes ds hds
  have hseconds : ∀ ds ∈ g.seconds, IsNumber ds := fun ds hds => by
    obtain ⟨s, hs, rfl⟩ := Option.map_eq_some_iff.mp hds
    obtain ⟨t, ht, hs⟩ := Option.bind_eq_some_iff.mp hs
    exact (h.time t ht).seconds s hs
  obtain ⟨millis, hmillis, hvalue⟩ := h.exists_millis
  have hduration : g.duration = some d ↔ ∃ years months days hours minutes seconds,
      field g.years = some years ∧ field g.months = some months ∧ field g.days = some days ∧
        field g.hours = some hours ∧ field g.minutes = some minutes ∧
          field g.seconds = some seconds ∧ Duration.mk g.negative years months days hours minutes
            seconds millis = d := by
    rw [← Groups.duration_eq hmillis]
    simp only [Option.bind_eq_some_iff, Option.some.injEq]
    constructor
    · rintro ⟨years, hy, months, hm, days, hd, hours, hh, minutes, hmin, seconds, hs, h⟩
      exact ⟨years, months, days, hours, minutes, seconds, hy, hm, hd, hh, hmin, hs, h⟩
    · rintro ⟨years, months, days, hours, minutes, seconds, hy, hm, hd, hh, hmin, hs, h⟩
      exact ⟨years, hy, months, hm, days, hd, hours, hh, minutes, hmin, seconds, hs, h⟩
  rw [hduration]
  simp only [field_eq_some_iff h.years, field_eq_some_iff h.months, field_eq_some_iff h.days,
    field_eq_some_iff hhours, field_eq_some_iff hminutes, field_eq_some_iff hseconds]
  constructor
  · rintro ⟨years, months, days, hours, minutes, seconds, hy, hm, hd, hh, hmin, hs, rfl⟩
    refine ⟨?_, rfl, hy.2, hm.2, hd.2, hh.2, hmin.2, hs.2, hvalue⟩
    simp only [Groups.Fits, List.forall_mem_cons, List.not_mem_nil, false_implies, implies_true,
      and_true]
    exact ⟨hy.1, hm.1, hd.1, hh.1, hmin.1, hs.1⟩
  · rintro ⟨hfits, hd⟩
    simp only [Groups.Fits, List.forall_mem_cons, List.not_mem_nil, false_implies, implies_true,
      and_true] at hfits
    obtain ⟨hy, hm, hd', hh, hmin, hs⟩ := hfits
    refine ⟨d.years, d.months, d.days, d.hours, d.minutes, d.seconds, ⟨hy, hd.years⟩,
      ⟨hm, hd.months⟩, ⟨hd', hd.days⟩, ⟨hh, hd.hours⟩, ⟨hmin, hd.minutes⟩, ⟨hs, hd.seconds⟩, ?_⟩
    have hmillis : millis = d.millis := Fin.ext (hvalue.trans hd.millis.symm)
    rw [← hd.negative, hmillis]

theorem exists_duration {g : Groups} (h : g.WellFormed) (hfits : g.Fits) :
    ∃ d, g.duration = some d ∧ Denotes g d := by
  obtain ⟨millis, -, hvalue⟩ := h.exists_millis
  have hfits' := hfits
  simp only [Groups.Fits, List.forall_mem_cons, List.not_mem_nil, false_implies, implies_true,
    and_true] at hfits'
  obtain ⟨hy, hm, hd, hh, hmin, hs⟩ := hfits'
  have hdenotes : Denotes g
      ⟨g.negative, ⟨_, hy⟩, ⟨_, hm⟩, ⟨_, hd⟩, ⟨_, hh⟩, ⟨_, hmin⟩, ⟨_, hs⟩, millis⟩ :=
    ⟨rfl, rfl, rfl, rfl, rfl, rfl, rfl, hvalue⟩
  exact ⟨_, (duration_eq_some_iff h).mpr ⟨hfits, hdenotes⟩, hdenotes⟩

/-! ## What is read -/

/-- There is a part, and also one after `T`. -/
def Groups.Complete (g : Groups) : Prop :=
  (g.years ≠ none ∨ g.months ≠ none ∨ g.days ≠ none ∨ g.time ≠ none) ∧
    ∀ t ∈ g.time, t.hours ≠ none ∨ t.minutes ≠ none ∨ t.seconds ≠ none

/-- The lexical space of durations. -/
def IsLiteral (text : List Char) : Prop := ∃ g : Groups, text = g.text ∧ g.WellFormed ∧ g.Complete

structure ReadRight (text : List Char) : Prop where
  literal : ∀ g : Groups, text = g.text → g.WellFormed → g.Complete →
    ∃ d, valueOf text = some (some d) ∧ Denotes g d
  other : ¬ IsLiteral text → valueOf text = some none

def Readable (text : List Char) : Prop :=
  ∀ g : Groups, text = g.text → g.WellFormed → g.Complete ∧ g.Fits

theorem valueOf_text {g : Groups} (h : g.WellFormed) : valueOf g.text = g.duration.map some := by
  rw [valueOf, matchGroups_iff.mpr ⟨rfl, h⟩]

theorem text_injective {g g' : Groups} (h : g.WellFormed) (h' : g'.WellFormed)
    (htext : g.text = g'.text) : g = g' :=
  Option.some.inj ((matchGroups_iff.mpr ⟨rfl, h⟩).symm.trans (matchGroups_iff.mpr ⟨htext, h'⟩))

theorem readRight_iff {text : List Char} : ReadRight text ↔ Readable text := by
  constructor
  · rintro h g rfl hwell
    by_cases hcomplete : g.Complete
    · obtain ⟨d, hd, -⟩ := h.literal g rfl hwell hcomplete
      rw [valueOf_text hwell, Option.map_eq_some_iff] at hd
      obtain ⟨d', hd', -⟩ := hd
      exact ⟨hcomplete, ((duration_eq_some_iff hwell).mp hd').1⟩
    · have hother := h.other fun ⟨g', htext, hwell', hcomplete'⟩ =>
        hcomplete (text_injective hwell hwell' htext ▸ hcomplete')
      rw [valueOf_text hwell, Option.map_eq_some_iff] at hother
      obtain ⟨d, -, hd⟩ := hother
      cases hd
  · intro h
    constructor
    · rintro g rfl hwell -
      obtain ⟨d, hd, hdenotes⟩ := exists_duration hwell (h g rfl hwell).2
      exact ⟨d, by rw [valueOf_text hwell, hd, Option.map_some], hdenotes⟩
    · intro hother
      rw [valueOf]
      cases hmatch : matchGroups text with
      | none => rfl
      | some g =>
        obtain ⟨htext, hwell⟩ := matchGroups_iff.mp hmatch
        exact absurd ⟨g, htext, hwell, (h g htext hwell).1⟩ hother

/-! ## What is written -/

def partOf (n : Count) : Option (List Char) :=
  if n.val ≠ 0 then some (Nat.toDigits 10 n.val) else none

/-- The groups of the literal that is written. -/
def Duration.groups (d : Duration) : Groups where
  negative := d.negative
  years := partOf d.years
  months := partOf d.months
  days := partOf d.days
  time :=
    if d.hours.val ≠ 0 ∨ d.minutes.val ≠ 0 ∨ d.millis.val ≠ 0 ∨ d.seconds.val ≠ 0 then
      some
        { hours := partOf d.hours
          minutes := partOf d.minutes
          seconds :=
            if d.millis.val ≠ 0 ∨ d.seconds.val ≠ 0 then
              some (Nat.toDigits 10 d.seconds.val,
                if d.millis.val ≠ 0 then some (formatMillis d.millis.val) else none)
            else none }
    else none

theorem fieldText_eq (n : Count) (c : Char) : fieldText n c = partText c (partOf n) := by
  rw [fieldText, partOf]
  split <;> rfl

theorem toString_eq (d : Duration) : d.toString = d.groups.text := by
  rw [Duration.toString, Groups.text, Groups.text.unsigned, Duration.groups]
  simp only [fieldText_eq]
  by_cases htime : d.hours.val ≠ 0 ∨ d.minutes.val ≠ 0 ∨ d.millis.val ≠ 0 ∨ d.seconds.val ≠ 0
  · rw [if_pos htime, if_pos htime, Option.elim_some, Time.text]
    by_cases hseconds : d.millis.val ≠ 0 ∨ d.seconds.val ≠ 0
    · rw [if_pos hseconds, if_pos hseconds]
      by_cases hmillis : d.millis.val ≠ 0
      · rw [if_pos hmillis, if_pos hmillis]
        rfl
      · rw [if_neg hmillis, if_neg hmillis]
        rfl
    · rw [if_neg hseconds, if_neg hseconds]
      rfl
  · rw [if_neg htime, if_neg htime, Option.elim_none]

theorem isNumber_toDigits (n : ℕ) : IsNumber (Nat.toDigits 10 n) :=
  ⟨Nat.toDigits_ne_nil, Java.all_isDigit_toDigits n⟩

theorem isNumber_formatMillis (n : ℕ) : IsNumber (formatMillis n) := by
  obtain ⟨hne, hall⟩ := isNumber_toDigits
    (if n % 10 = 0 then n / (if n % 100 = 0 then 100 else 10) else n)
  rw [formatMillis]
  refine ⟨List.append_ne_nil_of_right_ne_nil _ hne, ?_⟩
  rw [List.all_append, hall, Bool.and_true]
  split
  · split <;> rfl
  · rfl

theorem isNumber_partOf (n : Count) : ∀ ds ∈ partOf n, IsNumber ds := by
  intro ds hds
  rw [partOf] at hds
  split at hds
  · obtain ⟨rfl⟩ := hds
    exact isNumber_toDigits _
  · cases hds

theorem value_partOf (n : Count) : value (partOf n) = n.val := by
  rw [partOf]
  split
  · exact Nat.ofDigitChars_ten_toDigits
  · next h => exact (not_not.mp h).symm

theorem groups_time {d : Duration} {t : Time} (h : t ∈ d.groups.time) :
    t.hours = partOf d.hours ∧ t.minutes = partOf d.minutes ∧
      t.seconds = if d.millis.val ≠ 0 ∨ d.seconds.val ≠ 0 then
        some (Nat.toDigits 10 d.seconds.val,
          if d.millis.val ≠ 0 then some (formatMillis d.millis.val) else none)
      else none := by
  rw [Duration.groups] at h
  dsimp only at h
  split at h
  · obtain ⟨rfl⟩ := h
    exact ⟨rfl, rfl, rfl⟩
  · cases h

theorem groups_wellFormed (d : Duration) : d.groups.WellFormed where
  years := isNumber_partOf _
  months := isNumber_partOf _
  days := isNumber_partOf _
  time t ht := by
    obtain ⟨hhours, hminutes, hseconds⟩ := groups_time ht
    constructor
    · rw [hhours]
      exact isNumber_partOf _
    · rw [hminutes]
      exact isNumber_partOf _
    · intro s hs
      rw [hseconds] at hs
      split at hs
      · obtain ⟨rfl⟩ := hs
        exact isNumber_toDigits _
      · cases hs
    · intro s hs fs hfs
      rw [hseconds] at hs
      split at hs
      · obtain ⟨rfl⟩ := hs
        dsimp only at hfs
        split at hfs
        · obtain ⟨rfl⟩ := hfs
          exact isNumber_formatMillis _
        · cases hfs
      · cases hs

/-- The values that are written. -/
theorem groups_values (d : Duration) : value d.groups.hours = d.hours.val ∧
    value d.groups.minutes = d.minutes.val ∧ value d.groups.seconds = d.seconds.val ∧
      d.groups.fraction =
        if d.millis.val ≠ 0 then some (formatMillis d.millis.val) else none := by
  rw [Groups.hours, Groups.minutes, Groups.seconds, Groups.fraction, Duration.groups]
  dsimp only
  by_cases htime : d.hours.val ≠ 0 ∨ d.minutes.val ≠ 0 ∨ d.millis.val ≠ 0 ∨ d.seconds.val ≠ 0
  · rw [if_pos htime, Option.bind_some, Option.bind_some, Option.bind_some]
    refine ⟨value_partOf _, value_partOf _, ?_, ?_⟩
    · by_cases hseconds : d.millis.val ≠ 0 ∨ d.seconds.val ≠ 0
      · rw [if_pos hseconds]
        exact Nat.ofDigitChars_ten_toDigits
      · rw [if_neg hseconds]
        exact (not_not.mp (not_or.mp hseconds).2).symm
    · by_cases hseconds : d.millis.val ≠ 0 ∨ d.seconds.val ≠ 0
      · rw [if_pos hseconds]
        rfl
      · rw [if_neg hseconds, if_neg (not_or.mp hseconds).1]
        rfl
  · rw [if_neg htime]
    simp only [not_or, not_not] at htime
    obtain ⟨hhours, hminutes, hmillis, hseconds⟩ := htime
    rw [if_neg (not_not.mpr hmillis)]
    exact ⟨hhours.symm, hminutes.symm, hseconds.symm, rfl⟩

/-- The fraction that is written for milliseconds. -/
theorem fractionMillis_formatMillis {n : ℕ} (h : n < 1000) (hpos : n ≠ 0) :
    fractionMillis (formatMillis n) = n := by
  have hall : ∀ n : Fin 1000, n ≠ 0 → fractionMillis (formatMillis n) = n := by decide +kernel
  exact hall ⟨n, h⟩ fun h0 => hpos (Fin.ext_iff.mp h0)

/-- A duration is read as it was written if its milliseconds are less than a second. -/
theorem valueOf_toString_iff (d : Duration) :
    valueOf d.toString = some (some d) ↔ d.millis.val < 1000 := by
  have hwell := groups_wellFormed d
  obtain ⟨hhours, hminutes, hseconds, hfraction⟩ := groups_values d
  have hread : valueOf d.toString = some (some d) ↔ d.groups.duration = some d := by
    rw [toString_eq, valueOf_text hwell, Option.map_eq_some_iff]
    simp only [Option.some.injEq, exists_eq_right]
  have hfits : d.groups.Fits := by
    simp only [Groups.Fits, List.forall_mem_cons, List.not_mem_nil, false_implies, implies_true,
      and_true, hhours, hminutes, hseconds]
    simp only [Duration.groups, value_partOf]
    exact ⟨d.years.isLt, d.months.isLt, d.days.isLt, d.hours.isLt, d.minutes.isLt, d.seconds.isLt⟩
  have hdenotes : Denotes d.groups d ↔ d.millis.val = d.groups.fraction.elim 0 fractionMillis :=
    ⟨Denotes.millis, fun h => ⟨rfl, (value_partOf _).symm, (value_partOf _).symm,
      (value_partOf _).symm, hhours.symm, hminutes.symm, hseconds.symm, h⟩⟩
  rw [hread, duration_eq_some_iff hwell, and_iff_right hfits, hdenotes, hfraction]
  by_cases hmillis : d.millis.val = 0
  · rw [if_neg (not_not.mpr hmillis), hmillis]
    exact iff_of_true rfl (by decide)
  · rw [if_pos hmillis, Option.elim_some]
    constructor
    · intro h
      obtain ⟨n, -, hn, hlt⟩ := parseMillis_take (isNumber_formatMillis d.millis.val)
      omega
    · exact fun h => (fractionMillis_formatMillis h hmillis).symm

/-! ## What is added -/

def Duration.monthCount (d : Duration) : ℤ := 12 * d.years.val + d.months.val

/-- What is less than a day. -/
def Duration.time (d : Duration) : ℤ :=
  d.hours.val * hourMillis + d.minutes.val * minuteMillis + d.seconds.val * 1000 + d.millis.val

/-- The days, and what is less than a day. -/
def Duration.rest (d : Duration) : ℤ := d.days.val * dayMillis + d.time

/-- The addition of XML Schema, at an offset: years and months together, then the rest. -/
def Duration.schemaAdd (d : Duration) (offset date : ℤ) : ℤ :=
  addMonths (date + offset) (d.sign * d.monthCount) - offset + d.sign * d.rest

/-- Its years, months and days. -/
def Duration.schemaDate (d : Duration) (offset date : ℤ) : ℤ :=
  addMonths (date + offset) (d.sign * d.monthCount) - offset + d.sign * d.days.val * dayMillis

/-- The years, then the months, then the days, in a calendar. -/
def Duration.addDate (d : Duration) (zone : TimeZone) (date : ℤ) : ℤ :=
  zone.addDays (zone.addMonths (zone.addMonths date (12 * (d.sign * d.years.val)))
    (d.sign * d.months.val)) (d.sign * d.days.val)

/-- The local times when the years have been added, and when the months have. -/
def Duration.afterYears (d : Duration) (l : ℤ) : ℤ := addMonths l (12 * (d.sign * d.years.val))

def Duration.afterMonths (d : Duration) (l : ℤ) : ℤ :=
  addMonths (d.afterYears l) (d.sign * d.months.val)

/-- On the way, no date is one of the Julian calendar, and the offset does not change. -/
structure Duration.Straight (d : Duration) (zone : TimeZone) (date : ℤ) : Prop where
  gregorian : ∀ l ∈ [zone.toLocal date, d.afterYears (zone.toLocal date),
    d.afterMonths (zone.toLocal date)], gregorianCutover ≤ dayOf l
  months : ∀ l ∈ [d.afterYears (zone.toLocal date), d.afterMonths (zone.toLocal date)],
    zone.wallOffset l = zone.offset date ∧ zone.offset (l - zone.offset date) = zone.offset date
  days : zone.offset (d.afterMonths (zone.toLocal date) - zone.offset date +
    d.sign * d.days.val * dayMillis) = zone.offset date

/-- The day of the month is in the month to which the years lead, or the last month is not longer
    than that. -/
def Duration.AddsMonths (d : Duration) (l : ℤ) : Prop :=
  dayOfMonth l ≤ lastDay (monthOf (dayOf l) + 12 * (d.sign * d.years.val)) ∨
    lastDay (monthOf (dayOf l) + d.sign * d.monthCount) ≤
      lastDay (monthOf (dayOf l) + 12 * (d.sign * d.years.val))

/-- The date is added right: by the days of the months if the way is straight, and otherwise if
    the calendar comes to the same instant. -/
structure Duration.AddsDate (d : Duration) (zone : TimeZone) (date : ℤ) : Prop where
  straight : d.Straight zone date → d.AddsMonths (zone.toLocal date)
  other : ¬ d.Straight zone date → d.addDate zone date = d.schemaDate (zone.offset date) date

structure AddedRight (d : Duration) (date : ℤ) : Prop where
  sum : d.addTo .gmt date = d.schemaAdd 0 date
  direction : (d.addTo .gmt date - date).sign = d.getTimeInMillis.sign

/-- The date is added right, and the length has the sign of the duration. -/
structure Addable (d : Duration) (date : ℤ) : Prop where
  date : d.AddsDate .gmt date
  sign : d.length = 0 ∨ 0 < d.sign * toLong d.length

theorem addTo_eq (d : Duration) (zone : TimeZone) (date : ℤ) :
    d.addTo zone date = d.addDate zone date + d.sign * d.time := by
  unfold Duration.addTo Duration.addDate Duration.time
  ring

theorem schemaAdd_eq (d : Duration) (offset date : ℤ) :
    d.schemaAdd offset date = d.schemaDate offset date + d.sign * d.time := by
  unfold Duration.schemaAdd Duration.schemaDate Duration.rest
  ring

theorem Duration.Straight.addDate_eq {d : Duration} {zone : TimeZone} {date : ℤ}
    (h : d.Straight zone date) : d.addDate zone date =
      d.afterMonths (zone.toLocal date) - zone.offset date + d.sign * d.days.val * dayMillis := by
  obtain ⟨hgregorian, hmonths, hdays⟩ := h
  simp only [List.forall_mem_cons] at hgregorian hmonths
  obtain ⟨hstart, hyears, hend, -⟩ := hgregorian
  obtain ⟨⟨hwallYears, hoffsetYears⟩, ⟨hwallMonths, hoffsetMonths⟩, -⟩ := hmonths
  have hafterYears : zone.addMonths date (12 * (d.sign * d.years.val)) =
      d.afterYears (zone.toLocal date) - zone.offset date :=
    TimeZone.addMonths_eq rfl (Java.moveMonths_eq hstart hyears) hwallYears
  have hlocal : zone.toLocal (d.afterYears (zone.toLocal date) - zone.offset date) =
      d.afterYears (zone.toLocal date) := by
    rw [TimeZone.toLocal, hoffsetYears, sub_add_cancel]
  have hafterMonths : zone.addMonths (d.afterYears (zone.toLocal date) - zone.offset date)
      (d.sign * d.months.val) = d.afterMonths (zone.toLocal date) - zone.offset date := by
    have hmove := Java.moveMonths_eq hyears hend
    rw [TimeZone.addMonths_eq hlocal hmove (hwallMonths.trans hoffsetYears.symm), hoffsetYears]
    rfl
  rw [Duration.addDate, hafterYears, hafterMonths]
  exact TimeZone.addDays_eq (hdays.trans hoffsetMonths.symm)

theorem addTo_eq_schemaAdd_iff (d : Duration) (zone : TimeZone) (date : ℤ) :
    d.addTo zone date = d.schemaAdd (zone.offset date) date ↔ d.AddsDate zone date := by
  have hcount : d.sign * d.monthCount = 12 * (d.sign * d.years.val) + d.sign * d.months.val := by
    unfold Duration.monthCount
    ring
  rw [addTo_eq, schemaAdd_eq, add_left_inj]
  by_cases h : d.Straight zone date
  · have hiff : d.addDate zone date = d.schemaDate (zone.offset date) date ↔
        d.AddsMonths (zone.toLocal date) := by
      rw [h.addDate_eq, Duration.schemaDate, add_left_inj, sub_left_inj, Duration.AddsMonths,
        hcount]
      exact Calendar.addMonths_addMonths_iff _ _
    rw [hiff]
    exact ⟨fun hmonths => ⟨fun _ => hmonths, absurd h⟩, fun hdate => hdate.straight h⟩
  · exact ⟨fun heq => ⟨fun hs => absurd hs h, fun _ => heq⟩, fun hdate => hdate.other h⟩

/-- The direction in which dates are moved. -/
theorem schemaAdd_direction (d : Duration) (date : ℤ) :
    0 ≤ d.length ∧ (d.length = 0 → d.schemaAdd 0 date = date) ∧
      (0 < d.length → (d.schemaAdd 0 date - date).sign = d.sign) := by
  have hzero : 0 ≤ d.length ∧ 0 ≤ d.monthCount ∧ 0 ≤ d.rest ∧
      (d.length = 0 ↔ d.monthCount = 0 ∧ d.rest = 0) := by
    simp only [Duration.length, Duration.monthCount, Duration.rest, Duration.time, yearMillis, monthMillis,
      secondMillis, dayMillis, hourMillis, minuteMillis]
    omega
  obtain ⟨hlength, hmonths, hrest, hiff⟩ := hzero
  refine ⟨hlength, fun h => ?_, fun h => ?_⟩
  · rw [Duration.schemaAdd, (hiff.mp h).1, (hiff.mp h).2, mul_zero, Calendar.addMonths_zero,
      add_zero, sub_zero, add_zero]
  · have hpos : 0 < d.monthCount ∨ 0 < d.rest := by omega
    rw [Duration.schemaAdd, Duration.sign, add_zero, sub_zero]
    cases d.negative with
    | true =>
      rw [if_pos rfl, Int.sign_eq_neg_one_iff_neg]
      rcases hpos with hpos | hpos
      · have hlt : addMonths date (-1 * d.monthCount) < date := Calendar.addMonths_lt (by omega)
        omega
      · have hle : addMonths date (-1 * d.monthCount) ≤ date := Calendar.addMonths_le (by omega)
        omega
    | false =>
      rw [if_neg Bool.false_ne_true, Int.sign_eq_one_iff_pos]
      rcases hpos with hpos | hpos
      · have hlt : date < addMonths date (1 * d.monthCount) := Calendar.lt_addMonths (by omega)
        omega
      · rcases hmonths.eq_or_lt with h0 | hlt
        · rw [← h0, mul_zero, Calendar.addMonths_zero]
          omega
        · have hlt : date < addMonths date (1 * d.monthCount) := Calendar.lt_addMonths (by omega)
          omega

theorem addedRight_iff (d : Duration) (date : ℤ) : AddedRight d date ↔ Addable d date := by
  obtain ⟨hlength, hzero, hpos⟩ := schemaAdd_direction d date
  have hdirection : (d.schemaAdd 0 date - date).sign = d.getTimeInMillis.sign ↔
      d.length = 0 ∨ 0 < d.sign * toLong d.length := by
    rcases hlength.eq_or_lt with h0 | hlt
    · have hlong : d.getTimeInMillis = 0 := by
        rw [Duration.getTimeInMillis, ← h0]
        rfl
      rw [hzero h0.symm, sub_self, hlong]
      exact iff_of_true rfl (.inl h0.symm)
    · rw [hpos hlt, or_iff_right hlt.ne', Duration.getTimeInMillis, Duration.sign]
      cases d.negative with
      | true =>
        rw [if_pos rfl, eq_comm, Int.sign_eq_neg_one_iff_neg]
        omega
      | false =>
        rw [if_neg Bool.false_ne_true, eq_comm, Int.sign_eq_one_iff_pos]
        omega
  constructor
  · intro h
    have hsum := h.sum
    refine ⟨(addTo_eq_schemaAdd_iff d .gmt date).mp hsum, hdirection.mp ?_⟩
    rw [← hsum]
    exact h.direction
  · intro h
    have hsum : d.addTo .gmt date = d.schemaAdd 0 date :=
      (addTo_eq_schemaAdd_iff d .gmt date).mpr h.date
    refine ⟨hsum, ?_⟩
    rw [hsum]
    exact hdirection.mpr h.sign

end Xml

end Jbpm
