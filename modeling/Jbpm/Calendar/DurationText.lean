/-
  What the texts of durations mean.

  * `newDuration`: a text is rejected, or it is a duration;
  * `Describes`: a text is a sign, a number and a unit;
  * `means_iff`: the texts that are read as they are meant.
-/
import Mathlib.Data.List.DropRight
import Jbpm.Calendar.BusinessSubtraction
import Jbpm.Java.DecimalFormat

namespace Jbpm

namespace Calendar

open Java

inductive Rejection
  | illegalArgument
  | stringIndexOutOfBounds
  deriving DecidableEq

/-- A text without a character that is not white has no `charAt`. -/
def newDuration {δ : Type} (f : NumberFormat δ) (b : BusinessAmounts) (text : List Char) :
    Except Rejection Duration :=
  if text.dropWhile isWhite = [] then .error .stringIndexOutOfBounds
  else (parseDuration f b text).elim (.error .illegalArgument) .ok

/-- `getMilliseconds`, unless the field has no fixed duration -/
def Duration.getMilliseconds (d : Duration) : Option ℤ :=
  d.field.millis.map fun millis => toLong (d.amount * millis)

/-- A whole number is a `long` if it is in its range; a negative zero is not. -/
def quantity : Java.Number → Quantity Java.Double
  | .finite negative value =>
    let x := if negative then -value else value
    if x.den = 1 ∧ IsLong x.num ∧ ¬ (negative = true ∧ x = 0) then .long x.num
    else .double (.finite (roundDouble x))
  | .infinite negative => .double (.infinite negative)
  | .nan => .double .nan

/-- The number format of the US. -/
def usFormat (digit : Char → Option (Fin 10)) : NumberFormat Java.Double where
  parse text := (parseNumber digit text).map fun n => (quantity n.1, n.2)
  ofLong n := .finite (roundDouble n)
  times x n := x.times n

/-! ## The parts of a text -/

inductive TimeUnit
  | plain (field : Field)
  | business (millis : ℤ)
  deriving DecidableEq

/-- What is before the number: whether it is a minus, and the text from the number on. -/
def signed (text : List Char) : Option (Bool × List Char) :=
  match text.dropWhile isWhite with
  | [] => none
  | lead :: rest =>
    some (lead = '-', (if lead = '+' ∨ lead = '-' then rest else lead :: rest).dropWhile isWhite)

def unitOf (b : BusinessAmounts) (text : List Char) : Option TimeUnit :=
  if (String.ofList text).startsWith "business" then
    ((businessAmounts b).lookup (String.ofList text)).map .business
  else (calendarFields.lookup (String.ofList text)).map .plain

def create {δ : Type} (f : NumberFormat δ) (q : Quantity δ) : TimeUnit → Option Duration
  | .plain field => q.inField f field
  | .business millis => some ⟨.millisecond, q.multiply f millis, true, fun _ => rfl⟩

def applySign (negative : Bool) (d : Duration) : Duration := if negative then d.negate else d

/-- The duration of a text is created from its parts. -/
theorem parseDuration_eq {δ : Type} (f : NumberFormat δ) (b : BusinessAmounts)
    (text : List Char) : parseDuration f b text =
      (signed text).bind fun s => (f.parse s.2).bind fun q =>
        (unitOf b (trim q.2)).bind fun unit => (create f q.1 unit).map (applySign s.1) := by
  rw [parseDuration, signed]
  cases text.dropWhile isWhite with
  | nil => rfl
  | cons lead rest =>
    dsimp only [Option.bind_some]
    cases f.parse ((if lead = '+' ∨ lead = '-' then rest else lead :: rest).dropWhile isWhite) with
    | none => rfl
    | some q =>
      have hunit : (if (String.ofList (trim q.2)).startsWith "business" then
          ((businessAmounts b).lookup (String.ofList (trim q.2))).map fun unit =>
            (⟨.millisecond, q.1.multiply f unit, true, fun _ => rfl⟩ : Duration)
          else (calendarFields.lookup (String.ofList (trim q.2))).bind (q.1.inField f)) =
          (unitOf b (trim q.2)).bind (create f q.1) := by
        rw [unitOf]
        split
        · cases (businessAmounts b).lookup (String.ofList (trim q.2)) <;> rfl
        · cases calendarFields.lookup (String.ofList (trim q.2)) <;> rfl
      dsimp only [Option.bind_some]
      rw [hunit]
      cases unitOf b (trim q.2) with
      | none => exact ite_self none
      | some unit =>
        by_cases hlead : lead = '-'
        · rw [if_pos hlead, Option.bind_some, Option.bind_some, decide_eq_true hlead]
          rfl
        · rw [if_neg hlead, Option.bind_some, Option.bind_some, decide_eq_false hlead]
          exact Option.map_id'.symm

theorem newDuration_blank {δ : Type} {f : NumberFormat δ} {b : BusinessAmounts} {text : List Char} :
    newDuration f b text = .error .stringIndexOutOfBounds ↔ signed text = none := by
  rw [newDuration, signed]
  cases text.dropWhile isWhite with
  | nil => exact iff_of_true rfl rfl
  | cons =>
    rw [if_neg (List.cons_ne_nil _ _)]
    cases parseDuration f b text with
    | none => exact iff_of_false nofun nofun
    | some => exact iff_of_false nofun nofun

theorem newDuration_ok {δ : Type} {f : NumberFormat δ} {b : BusinessAmounts} {text : List Char}
    {d : Duration} : newDuration f b text = .ok d ↔ parseDuration f b text = some d := by
  rw [newDuration]
  split
  · next h =>
    refine iff_of_false nofun ?_
    rw [parseDuration, h]
    exact nofun
  · cases parseDuration f b text with
    | none => exact iff_of_false nofun nofun
    | some =>
      exact ⟨fun h => congrArg some (Except.ok.inj h), fun h => congrArg _ (Option.some.inj h)⟩

/-! ## What a text means -/

section Means

variable (digit : Char → Option (Fin 10)) (b : BusinessAmounts)

/-- The text is a sign, if there is one, a number without a sign of its own, and a unit. -/
def Describes (text : List Char) (negative : Bool) (number : Java.Number) (unit : TimeUnit) :
    Prop :=
  ∃ numberText rest, signed text = some (negative, numberText) ∧ numberText.head? ≠ some '-' ∧
    parseNumber digit numberText = some (number, rest) ∧ unitOf b (trim rest) = some unit

def sign (negative : Bool) : ℤ := if negative then -1 else 1

def TimeUnit.millis : TimeUnit → Option ℤ
  | .plain field => field.millis
  | .business millis => some millis

/-- A date that is moved by `k` units. -/
def Field.move (field : Field) (k date : ℤ) : ℤ :=
  match field.millis with
  | some millis => date + k * millis
  | none => addMonths date (if field = .year then 12 * k else k)

abbrev ofText (text : List Char) : Except Rejection Duration :=
  newDuration (usFormat digit) b text

/-- The text is rejected as it should be, or it is a description and does what it says. -/
structure Means (text : List Char) : Prop where
  rejected : ofText digit b text ≠ .error .stringIndexOutOfBounds
  described : ∀ d, ofText digit b text = .ok d →
    ∃ negative number unit, Describes digit b text negative number unit
  millis : ∀ d negative unit (n m : ℤ), ofText digit b text = .ok d →
    Describes digit b text negative (.finite false n) unit → unit.millis = some m →
      d.getMilliseconds = some (sign negative * (n * m))
  moves : ∀ d negative field (n : ℤ), ofText digit b text = .ok d →
    Describes digit b text negative (.finite false n) (.plain field) →
      ∀ date, d.addTo date = field.move (sign negative * n) date
  undone : ∀ d negative unit (n m : ℤ), ofText digit b text = .ok d →
    Describes digit b text negative (.finite false n) unit → unit.millis = some m →
      ∀ text' d', Describes digit b text' (!negative) (.finite false n) unit →
        ofText digit b text' = .ok d' → ∀ date, d'.addTo (d.addTo date) = date

/-- Units that take a quantity; those without a fixed length, and milliseconds, only take an
    `int`. -/
def Takes (number : Java.Number) : TimeUnit → Prop
  | .business _ => True
  | .plain field =>
    (field ≠ .millisecond ∧ field.millis ≠ none) ∨
      ∃ n, quantity number = .long n ∧ -2 ^ 31 ≤ n ∧ n < 2 ^ 31

/-- The product with the unit is a `long`, and no `int` is multiplied as a double without a
    loss. -/
def Exact (n : ℤ) : TimeUnit → Prop
  | .business millis => -2 ^ 63 < n * millis ∧ n * millis < 2 ^ 63
  | .plain field => n < 2 ^ 31 ∨ ∀ millis, field.millis = some millis →
      roundDouble (roundDouble n * roundDouble millis) = (n * millis : ℤ) ∧ n * millis < 2 ^ 63

structure Meaningful (text : List Char) : Prop where
  notBlank : signed text ≠ none
  unsigned : ∀ negative numberText number rest unit, signed text = some (negative, numberText) →
    parseNumber digit numberText = some (number, rest) → unitOf b (trim rest) = some unit →
      Takes number unit → numberText.head? ≠ some '-'
  exact : ∀ negative (n : ℤ) unit, Describes digit b text negative (.finite false n) unit →
    Takes (.finite false n) unit → Exact n unit

variable {digit b}

/-! ### What is created -/

theorem quantity_intCast (n : ℤ) : quantity (.finite false n) =
    if IsLong n then .long n else .double (.finite (roundDouble n)) := by
  simp only [quantity, Bool.false_eq_true, if_false, Rat.den_intCast, Rat.num_intCast, false_and,
    not_false_eq_true, and_true, true_and]

theorem ofText_eq_ok_iff {text : List Char} {d : Duration} : ofText digit b text = .ok d ↔
    ∃ negative numberText number rest unit d₀, signed text = some (negative, numberText) ∧
      parseNumber digit numberText = some (number, rest) ∧ unitOf b (trim rest) = some unit ∧
        create (usFormat digit) (quantity number) unit = some d₀ ∧ applySign negative d₀ = d := by
  rw [newDuration_ok, parseDuration_eq]
  simp only [Option.bind_eq_some_iff, Option.map_eq_some_iff, usFormat]
  constructor
  · rintro ⟨⟨negative, numberText⟩, hsigned, -, ⟨⟨number, rest⟩, hnumber, rfl⟩, unit, hunit, d₀,
      hd₀, rfl⟩
    exact ⟨negative, numberText, number, rest, unit, d₀, hsigned, hnumber, hunit, hd₀, rfl⟩
  · rintro ⟨negative, numberText, number, rest, unit, d₀, hsigned, hnumber, hunit, hd₀, rfl⟩
    exact ⟨_, hsigned, _, ⟨_, hnumber, rfl⟩, unit, hunit, d₀, hd₀, rfl⟩

theorem ofText_of_describes {text : List Char} {negative : Bool} {number : Java.Number}
    {unit : TimeUnit} {d : Duration} (h : Describes digit b text negative number unit) :
    ofText digit b text = .ok d ↔
      ∃ d₀, create (usFormat digit) (quantity number) unit = some d₀ ∧
        applySign negative d₀ = d := by
  obtain ⟨numberText, rest, hsigned, -, hnumber, hunit⟩ := h
  rw [ofText_eq_ok_iff]
  constructor
  · rintro ⟨negative', numberText', number', rest', unit', d₀, hsigned', hnumber', hunit', h⟩
    obtain ⟨rfl, rfl⟩ := Prod.mk.inj (Option.some.inj (hsigned.symm.trans hsigned'))
    obtain ⟨rfl, rfl⟩ := Prod.mk.inj (Option.some.inj (hnumber.symm.trans hnumber'))
    obtain rfl := Option.some.inj (hunit.symm.trans hunit')
    exact ⟨d₀, h⟩
  · rintro ⟨d₀, h⟩
    exact ⟨negative, numberText, number, rest, unit, d₀, hsigned, hnumber, hunit, h⟩

theorem takes_iff {number : Java.Number} {unit : TimeUnit} : Takes number unit ↔
    ∃ d₀, create (usFormat digit) (quantity number) unit = some d₀ := by
  cases unit with
  | business millis => exact iff_of_true trivial ⟨_, rfl⟩
  | plain field =>
    have hmillis : (∃ d₀, Quantity.inField.inMillis (usFormat digit) (quantity number) field =
        some d₀) ↔ field ≠ .millisecond ∧ field.millis ≠ none := by
      rw [Quantity.inField.inMillis]
      split
      · next h => exact iff_of_false nofun fun h' => h'.1 h
      · next h =>
        rw [and_iff_right h]
        cases field.millis with
        | none => exact iff_of_false nofun fun h => h rfl
        | some => exact iff_of_true ⟨_, rfl⟩ nofun
    rw [Takes, create]
    cases hq : quantity number with
    | long n =>
      rw [hq] at hmillis
      rw [Quantity.inField]
      split
      · next h => exact iff_of_true (.inr ⟨n, rfl, h⟩) ⟨_, rfl⟩
      · next h =>
        rw [hmillis, or_iff_left]
        rintro ⟨n', hn', h'⟩
        obtain rfl := Quantity.long.inj hn'
        exact h h'
    | double x =>
      rw [hq] at hmillis
      rw [Quantity.inField, hmillis, or_iff_left]
      rintro ⟨n', hn', -⟩
      cases hn'

theorem toLong_of_isLong {n : ℤ} (h : IsLong n) : toLong n = n := by
  unfold IsLong at h
  exact Int.bmod_eq_of_le_mul_two (by omega) (by omega)

/-- The least `long` is its own negation. -/
theorem toLong_neg {n : ℤ} (h : IsLong n) :
    toLong (-n) = if n = -2 ^ 63 then -2 ^ 63 else -n := by
  split
  · next hn =>
    subst hn
    decide
  · unfold IsLong at h
    exact toLong_of_isLong ⟨by omega, by omega⟩

theorem isLong_toLong (n : ℤ) : IsLong (toLong n) := by
  have hlow := Int.le_bmod (x := n) (m := 2 ^ 64) (by decide)
  have hhigh := Int.bmod_lt (x := n) (m := 2 ^ 64) (by decide)
  unfold IsLong toLong
  omega

theorem Field.millis_thousand {field : Field} {m : ℤ} (h : field ≠ .millisecond)
    (hm : field.millis = some m) : ∃ c, m = 1000 * c := by
  cases field with
  | millisecond => exact absurd rfl h
  | second | minute | hour | dayOfMonth | weekOfMonth =>
    obtain ⟨rfl⟩ := hm
    exact ⟨_, (Int.mul_ediv_cancel' (by decide)).symm⟩
  | month | year => cases hm

theorem Field.millis_le {field : Field} {m : ℤ} (hm : field.millis = some m) : m ≤ 604800000 := by
  cases field <;> cases hm <;> decide

/-- A plain unit that is not counted in its field is multiplied as a double. -/
theorem times_eq_iff {n m : ℤ} (hn : 0 ≤ n) {field : Field} (hf : field ≠ .millisecond)
    (hm : field.millis = some m) :
    (roundDouble (roundDouble n * roundDouble m) = (n * m : ℤ) ∧ n * m < 2 ^ 63) ↔
      (Java.Double.finite (roundDouble n)).times m = n * m ∧
        -2 ^ 63 < (Java.Double.finite (roundDouble n)).times m := by
  obtain ⟨k₁, h₁⟩ := Lib.exists_roundBits_intCast 53 n
  obtain ⟨k₂, h₂⟩ := Lib.exists_roundBits_intCast 53 m
  obtain ⟨k, hk⟩ := Lib.exists_roundBits_intCast 53 (k₁ * k₂)
  have hround : roundDouble (roundDouble n * roundDouble m) = k := by
    rw [roundDouble, roundDouble, roundDouble, h₁, h₂, ← Int.cast_mul, hk]
  obtain ⟨c, rfl⟩ := field.millis_thousand hf hm
  have hpos := Int.mul_nonneg hn (Field.millis_pos hm).le
  have hthousand : n * (1000 * c) = 1000 * (n * c) := by rw [Int.mul_left_comm]
  rw [Java.Double.times, hround, longOf_intCast, Int.cast_inj]
  omega

/-- What is created for a whole number: an `int` is counted in the field of the unit, and any other
    in milliseconds. -/
theorem create_amount {n : ℤ} (hn : 0 ≤ n) {unit : TimeUnit} {d₀ : Duration}
    (h : create (usFormat digit) (quantity (.finite false n)) unit = some d₀) :
    (∃ field, unit = .plain field ∧ n < 2 ^ 31 ∧ d₀.field = field ∧ d₀.amount = n) ∨
      ∃ m, unit.millis = some m ∧ d₀.field = .millisecond ∧ IsLong d₀.amount ∧
        (Exact n unit ↔ d₀.amount = n * m ∧ -2 ^ 63 < d₀.amount) := by
  rw [quantity_intCast] at h
  cases unit with
  | plain field =>
    by_cases hint : n < 2 ^ 31
    · have hlong : IsLong n := ⟨by omega, by omega⟩
      rw [if_pos hlong, create, Quantity.inField, if_pos ⟨by omega, hint⟩] at h
      obtain ⟨rfl⟩ := h
      exact .inl ⟨field, rfl, hint, rfl, rfl⟩
    · right
      have hmillis : (if field = .millisecond then none else field.millis.map fun millis =>
          (⟨.millisecond, (Java.Double.finite (roundDouble n)).times millis, false,
            fun h => absurd h Bool.false_ne_true⟩ :
            Duration)) = some d₀ := by
        by_cases hlong : IsLong n
        · rwa [if_pos hlong, create, Quantity.inField, if_neg fun h => hint h.2] at h
        · rwa [if_neg hlong, create, Quantity.inField] at h
      split at hmillis
      · cases hmillis
      · next hf =>
        obtain ⟨m, hm, rfl⟩ := Option.map_eq_some_iff.mp hmillis
        refine ⟨m, hm, rfl, isLong_longOf _, ?_⟩
        rw [← times_eq_iff hn hf hm, Exact, or_iff_right hint]
        constructor
        · exact fun h => h m hm
        · rintro h m' hm'
          obtain rfl := Option.some.inj (hm.symm.trans hm')
          exact h
  | business m =>
    right
    by_cases hlong : IsLong n
    · rw [if_pos hlong, create, Quantity.multiply] at h
      obtain ⟨rfl⟩ := h
      have hA := isLong_toLong (n * m)
      refine ⟨m, rfl, rfl, hA, ?_⟩
      constructor
      · intro h
        dsimp only
        rw [toLong_of_isLong ⟨h.1.le, h.2⟩]
        exact ⟨rfl, h.1⟩
      · rintro ⟨heq, hlow⟩
        rw [Exact, ← heq]
        exact ⟨hlow, hA.2⟩
    · rw [if_neg hlong, create, Quantity.multiply] at h
      obtain ⟨rfl⟩ := h
      have hA : IsLong ((Java.Double.finite (roundDouble n)).times m) := isLong_longOf _
      refine ⟨m, rfl, rfl, hA, ?_⟩
      constructor
      · intro h
        have hbig : 2 ^ 63 ≤ n := not_lt.mp fun hlt => hlong ⟨by omega, hlt⟩
        -- no other product is a `long`
        have hm : m = 0 := by
          obtain ⟨hlow, hhigh⟩ := h
          rcases lt_trichotomy m 0 with hm | hm | hm
          · have hle := Int.mul_le_mul_of_nonneg_left (show m ≤ -1 by omega) hn
            omega
          · exact hm
          · have hle := Int.mul_le_mul_of_nonneg_left (show 1 ≤ m by omega) hn
            omega
        have hzero : (Java.Double.finite (roundDouble n)).times 0 = 0 := by
          have hlongOf := longOf_intCast 0
          rw [Int.cast_zero] at hlongOf
          rw [Java.Double.times, Int.cast_zero, roundDouble, roundDouble, roundDouble,
            Lib.roundBits_zero, mul_zero, Lib.roundBits_zero, hlongOf]
          decide
        subst hm
        rw [mul_zero]
        exact ⟨hzero, (show (-2 ^ 63 : ℤ) < 0 by decide).trans_eq hzero.symm⟩
      · rintro ⟨heq, hlow⟩
        rw [Exact, ← heq]
        exact ⟨hlow, hA.2⟩

theorem applySign_field (negative : Bool) (d : Duration) :
    (applySign negative d).field = d.field := by
  cases negative <;> rfl

theorem applySign_amount (negative : Bool) (d : Duration) : (applySign negative d).amount =
    if negative then toLong (-d.amount) else d.amount := by
  cases negative <;> rfl

theorem applySign_exact {negative : Bool} {d : Duration} (h : IsLong d.amount)
    (hlow : -2 ^ 63 < d.amount) : (applySign negative d).amount = sign negative * d.amount := by
  rw [applySign_amount, toLong_neg h, if_neg hlow.ne', sign]
  split <;> omega

section Described

variable {text : List Char} {negative : Bool} {number : Java.Number} {unit : TimeUnit}
  {n m : ℤ} {d : Duration}

theorem Describes.nonneg (h : Describes digit b text negative (.finite false n) unit) : 0 ≤ n := by
  obtain ⟨numberText, rest, -, hhead, hnumber, -⟩ := h
  exact Int.cast_nonneg_iff.mp (parseNumber_unsigned digit hhead hnumber).2

/-- The same text with the other sign. -/
theorem Describes.opposite (h : Describes digit b text negative number unit) :
    ∃ text', Describes digit b text' (!negative) number unit := by
  obtain ⟨numberText, rest, hsigned, h⟩ := h
  have hdrop : numberText.dropWhile isWhite = numberText := by
    rw [signed] at hsigned
    split at hsigned
    · cases hsigned
    · obtain ⟨-, rfl⟩ := Prod.mk.inj (Option.some.inj hsigned)
      exact List.dropWhile_idempotent _ _
  refine ⟨(if negative then '+' else '-') :: numberText, numberText, rest, ?_, h⟩
  cases negative with
  | true =>
    have hplus : ('+' :: numberText).dropWhile isWhite = '+' :: numberText := rfl
    rw [if_pos rfl, signed, hplus]
    dsimp only
    rw [if_pos (.inl rfl), hdrop]
    rfl
  | false =>
    have hminus : ('-' :: numberText).dropWhile isWhite = '-' :: numberText := rfl
    rw [if_neg Bool.false_ne_true, signed, hminus]
    dsimp only
    rw [if_pos (.inr rfl), hdrop]
    rfl

/-- The duration of a description that is exact. -/
theorem exact_amount (hd : ofText digit b text = .ok d)
    (h : Describes digit b text negative (.finite false n) unit) (hexact : Exact n unit) :
    (∃ field, unit = .plain field ∧ n < 2 ^ 31 ∧ d.field = field ∧ d.amount = sign negative * n) ∨
      ∃ m, unit.millis = some m ∧ d.field = .millisecond ∧ IsLong d.amount ∧
        d.amount = sign negative * (n * m) := by
  obtain ⟨d₀, hd₀, rfl⟩ := (ofText_of_describes h).mp hd
  have hn := h.nonneg
  rw [applySign_field]
  rcases create_amount hn hd₀ with
    ⟨field, hunit, hint, hfield, hamount⟩ | ⟨m, hm, hfield, hlong, hiff⟩
  · left
    refine ⟨field, hunit, hint, hfield, ?_⟩
    rw [applySign_exact (by rw [hamount]; exact ⟨by omega, by omega⟩) (by omega), hamount]
  · right
    obtain ⟨hamount, hlow⟩ := hiff.mp hexact
    refine ⟨m, hm, hfield, ?_, by rw [applySign_exact hlong hlow, hamount]⟩
    rw [applySign_exact hlong hlow, sign]
    unfold IsLong at hlong ⊢
    split <;> omega

theorem exact_added (hd : ofText digit b text = .ok d)
    (h : Describes digit b text negative (.finite false n) unit) (hexact : Exact n unit)
    (hm : unit.millis = some m) (date : ℤ) :
    d.getMilliseconds = some (sign negative * (n * m)) ∧
      d.addTo date = date + sign negative * (n * m) := by
  have hn := h.nonneg
  rcases exact_amount hd h hexact with
    ⟨field, rfl, hint, rfl, hamount⟩ | ⟨m', hm', hfield, hlong, hamount⟩
  · have hm' : d.field.millis = some m := hm
    have hpos := Field.millis_pos hm'
    have hle := Field.millis_le hm'
    have hprod : n * m ≤ 2 ^ 31 * 604800000 := Int.mul_le_mul hint.le hle hpos.le (by decide)
    have hnonneg := Int.mul_nonneg hn hpos.le
    have hadded : d.added = sign negative * n := by
      rw [Duration.added, hamount]
      split
      · rfl
      · rw [sign]
        refine Int.bmod_eq_of_le_mul_two ?_ ?_ <;> split <;> omega
    constructor
    · rw [Duration.getMilliseconds, hm', Option.map_some, hamount, mul_assoc, toLong_of_isLong]
      rw [sign]
      unfold IsLong
      split <;> omega
    · rw [Duration.addTo, hm', hadded]
      dsimp only
      rw [mul_assoc]
  · obtain rfl := Option.some.inj (hm.symm.trans hm')
    have hmillis : d.field.millis = some 1 := by rw [hfield]; rfl
    constructor
    · rw [Duration.getMilliseconds, hmillis, Option.map_some, mul_one, toLong_of_isLong hlong,
        hamount]
    · rw [Duration.addTo, hmillis, Duration.added, if_pos hfield]
      dsimp only
      rw [mul_one, hamount]

end Described

theorem sign_not (negative : Bool) : sign (!negative) = -sign negative := by
  cases negative <;> rfl

theorem move_eq {d : Duration} {field : Field} {k : ℤ} (hfield : d.field = field)
    (hadded : d.added = k) (date : ℤ) : d.addTo date = field.move k date := by
  subst hfield hadded
  rfl

/-- Texts are read as they are meant if they are not blank, a sign is followed by a number without
    a sign, and the product of a whole number with its unit is exact. -/
theorem means_iff {text : List Char} : Means digit b text ↔ Meaningful digit b text := by
  constructor
  · intro h
    constructor
    · exact fun hblank => h.rejected (newDuration_blank.mpr hblank)
    · intro negative numberText number rest unit hsigned hnumber hunit htakes
      obtain ⟨d₀, hd₀⟩ := (@takes_iff digit _ _).mp htakes
      obtain ⟨negative', number', unit', numberText', rest', hsigned', hhead, -⟩ :=
        h.described _ (ofText_eq_ok_iff.mpr
          ⟨negative, numberText, number, rest, unit, d₀, hsigned, hnumber, hunit, hd₀, rfl⟩)
      obtain ⟨-, rfl⟩ := Prod.mk.inj (Option.some.inj (hsigned.symm.trans hsigned'))
      exact hhead
    · intro negative n unit hdescribes htakes
      obtain ⟨d₀, hd₀⟩ := (@takes_iff digit _ _).mp htakes
      have hd := (ofText_of_describes hdescribes).mpr ⟨d₀, hd₀, rfl⟩
      rcases create_amount hdescribes.nonneg hd₀ with
        ⟨field, rfl, hint, -⟩ | ⟨m, hm, hfield, hlong, hiff⟩
      · exact .inl hint
      · -- the amount and its negation, of the text with the other sign
        obtain ⟨text', hdescribes'⟩ := hdescribes.opposite
        have hundone := h.undone _ _ _ n m hd hdescribes hm text' _ hdescribes'
          ((ofText_of_describes hdescribes').mpr ⟨d₀, hd₀, rfl⟩) 0
        have hmillis := h.millis _ _ _ n m hd hdescribes hm
        have hone : ∀ negative, (applySign negative d₀).field.millis = some 1 := fun negative => by
          rw [applySign_field, hfield]
          rfl
        have hadded : ∀ negative, (applySign negative d₀).added = (applySign negative d₀).amount :=
          fun negative => by rw [Duration.added, applySign_field, if_pos hfield]
        rw [Duration.addTo, Duration.addTo, hone, hone, hadded, hadded] at hundone
        dsimp only at hundone
        rw [mul_one, mul_one] at hundone
        rw [Duration.getMilliseconds, hone, Option.map_some, Option.some.injEq, mul_one] at hmillis
        rw [hiff]
        have hneg := toLong_neg hlong
        cases negative with
        | true =>
          rw [applySign_amount, if_pos rfl, hneg, toLong_of_isLong, sign, if_pos rfl] at hmillis
          · rw [applySign_amount, applySign_amount, Bool.not_true, if_neg Bool.false_ne_true,
              if_pos rfl, hneg] at hundone
            unfold IsLong at hlong
            split at hundone <;> omega
          · unfold IsLong at *
            split <;> omega
        | false =>
          rw [applySign_amount, if_neg Bool.false_ne_true, toLong_of_isLong hlong, sign,
            if_neg Bool.false_ne_true, one_mul] at hmillis
          rw [applySign_amount, applySign_amount, Bool.not_false, if_neg Bool.false_ne_true,
            if_pos rfl, hneg] at hundone
          unfold IsLong at hlong
          split at hundone <;> omega
  · intro h
    have hexact : ∀ {text' d negative n unit}, ofText digit b text' = .ok d →
        Describes digit b text' negative (.finite false (n : ℤ)) unit →
          Takes (.finite false n) unit :=
      fun hd hdescribes => by
        obtain ⟨d₀, hd₀, -⟩ := (ofText_of_describes hdescribes).mp hd
        exact takes_iff.mpr ⟨d₀, hd₀⟩
    constructor
    · exact fun hblank => h.notBlank (newDuration_blank.mp hblank)
    · intro d hd
      obtain ⟨negative, numberText, number, rest, unit, d₀, hsigned, hnumber, hunit, hd₀, -⟩ :=
        ofText_eq_ok_iff.mp hd
      exact ⟨negative, number, unit, numberText, rest, hsigned,
        h.unsigned _ _ _ _ _ hsigned hnumber hunit (takes_iff.mpr ⟨d₀, hd₀⟩), hnumber, hunit⟩
    · intro d negative unit n m hd hdescribes hm
      exact (exact_added hd hdescribes (h.exact _ _ _ hdescribes (hexact hd hdescribes)) hm 0).1
    · intro d negative field n hd hdescribes date
      have hfits := h.exact _ _ _ hdescribes (hexact hd hdescribes)
      cases hm : field.millis with
      | some m =>
        rw [(exact_added hd hdescribes hfits hm date).2, Field.move, hm]
        dsimp only
        rw [mul_assoc]
      | none =>
        rcases exact_amount hd hdescribes hfits with
          ⟨field', ⟨rfl⟩, hint, hfield, hamount⟩ | ⟨m, hm', -⟩
        · have hn := hdescribes.nonneg
          refine move_eq hfield ?_ date
          rw [Duration.added, hamount]
          split
          · rfl
          · rw [sign]
            refine Int.bmod_eq_of_le_mul_two ?_ ?_ <;> split <;> omega
        · exact absurd (hm.symm.trans hm') (Option.some_ne_none _).symm
    · intro d negative unit n m hd hdescribes hm text' d' hdescribes' hd' date
      have hfits := h.exact _ _ _ hdescribes (hexact hd hdescribes)
      rw [(exact_added hd hdescribes hfits hm date).2, (exact_added hd' hdescribes' hfits hm _).2,
        sign_not, Int.neg_mul]
      omega

end Means

/-! ### An example -/

def asciiDigit (c : Char) : Option (Fin 10) :=
  if c.isDigit then some (Fin.ofNat 10 (c.toNat - 48)) else none

/-- The product is beyond the range of a `long`. -/
theorem businessDays_wrapped :
    ¬ Means asciiDigit BusinessCalendar.officeAmounts "400000000000 business days".toList := by
  intro h
  have hdescribes : Describes asciiDigit BusinessCalendar.officeAmounts
      "400000000000 business days".toList false (.finite false (400000000000 : ℤ))
      (.business 27000000) := by
    refine ⟨"400000000000 business days".toList, " business days".toList, ?_, ?_, ?_, ?_⟩
    · decide +kernel
    · decide +kernel
    · decide +kernel
    · decide +kernel
  have hmillis := h.millis ⟨.millisecond, -7646744073709551616, true, fun _ => rfl⟩ false _ _ _
    ((ofText_of_describes hdescribes).mpr ⟨_, rfl, rfl⟩) hdescribes rfl
  cases hmillis

end Calendar

end Jbpm
