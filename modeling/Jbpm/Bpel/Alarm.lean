/-
  Alarms, and the timers that they create.

  * `createTimer`: the due date of an alarm, and its repeat as a text of whole seconds;
  * `dueAfter`: the due date after a timer was executed some times;
  * `parseNumber_digits`, `parseDuration_repeatText`: what the timer reads in that text;
  * `fires_iff`: the alarms that fire when they should.
-/
import Jbpm.Calendar.DurationText
import Jbpm.Calendar.RepeatingTimer
import Jbpm.Xml.DateTime
import Jbpm.Xml.Duration

namespace Jbpm

namespace Bpel

open Calendar (BusinessCalendar BusinessAmounts usFormat parseDuration)
open Java (roundDouble TimeZone)
open Lib (Computes)
open Xml (DateTimeLiteral)

inductive AlarmFailure
  | invalidExpressionValue
  | numberFormat
  | illegalArgument
  | assertion
  deriving DecidableEq

/-- The expressions of an alarm are the texts to which they evaluate. -/
structure AlarmAction where
  id : ℕ
  for_ : Option (List Char)
  until_ : Option (List Char)
  repeatEvery : Option (List Char)
  specified : for_ ≠ none ∨ until_ ≠ none ∨ repeatEvery ≠ none

structure AlarmTimer where
  name : String
  repeat_ : Option (List Char)
  dueDate : ℤ

/-- `DatatypeUtil.toDuration` -/
def toDuration (value : List Char) : Except AlarmFailure Xml.Duration :=
  match Xml.valueOf value with
  | none => .error .numberFormat
  | some none => .error .invalidExpressionValue
  | some (some d) => .ok d

/-- `DatatypeUtil.toDateTime` -/
def toDateTime (defaultZone : TimeZone) (value : List Char) : Except AlarmFailure Xml.Fields :=
  match Xml.parseDateTime defaultZone value with
  | none => .error .numberFormat
  | some none => .error .invalidExpressionValue
  | some (some c) => .ok c

/-- Only seconds are given to the scheduler. -/
def repeatText (repeatDurationMs : ℤ) : List Char :=
  Java.intText (repeatDurationMs.tdiv 1000) ++ " seconds".toList

def AlarmAction.dueDate (a : AlarmAction) (defaultZone : TimeZone) (now : ℤ)
    (repeatDuration : Option Xml.Duration) : Except AlarmFailure ℤ :=
  match a.until_ with
  | some value => do
    let dueDate ← toDateTime defaultZone value
    dueDate.getTime.elim (.error .illegalArgument) .ok
  | none =>
    match a.for_, repeatDuration with
    | some value, _ => do
      let dueDuration ← toDuration value
      pure (dueDuration.addTo defaultZone now)
    | none, some dueDuration => pure (dueDuration.addTo defaultZone now)
    | none, none => .error .assertion

/-- The timer that is given to the scheduler; `now` is the present instant. -/
def AlarmAction.createTimer (a : AlarmAction) (defaultZone : TimeZone) (now : ℤ) :
    Except AlarmFailure AlarmTimer := do
  let repeatDuration ← a.repeatEvery.mapM toDuration
  let dueDate ← a.dueDate defaultZone now repeatDuration
  pure
    { name := "a:" ++ toString a.id
      repeat_ := repeatDuration.map fun d => repeatText d.getTimeInMillis
      dueDate := dueDate }

/-! ## What alarms mean -/

/-- The durations and the date-time that the expressions of an alarm denote. -/
structure AlarmValues where
  for_ : Option Xml.Duration
  until_ : Option DateTimeLiteral
  repeatEvery : Option Xml.Duration

/-- The texts are accepted by the parsers, and have these values. -/
structure AlarmAction.Evaluates (a : AlarmAction) (defaultZone : TimeZone) (v : AlarmValues) :
    Prop where
  for_ : a.for_.map Xml.valueOf = v.for_.map fun d => some (some d)
  repeatEvery : a.repeatEvery.map Xml.valueOf = v.repeatEvery.map fun d => some (some d)
  until_ : a.until_ = v.until_.map DateTimeLiteral.text
  literal : ∀ g ∈ v.until_, g.WellFormed ∧ g.Valid ∧ (g.setFields defaultZone).isSome

/-- An instant of the first firing; durations are added at the present offset. -/
def AlarmValues.IsFirst (v : AlarmValues) (defaultZone : TimeZone) (now t : ℤ) : Prop :=
  match v.until_, v.for_, v.repeatEvery with
  | some g, _, _ => g.Denotes defaultZone t
  | none, some d, _ => t = d.schemaAdd (defaultZone.offset now) now
  | none, none, some d => t = d.schemaAdd (defaultZone.offset now) now
  | none, none, none => t = now

def IsPositive (d : Xml.Duration) : Prop := d.negative = false ∧ 0 < d.length

instance (d : Xml.Duration) : Decidable (IsPositive d) := inferInstanceAs (Decidable (_ ∧ _))

/-- Each time is that of a due date, or after it and before the next one. -/
def Punctual (length : ℤ) : List ℤ → ℤ → Prop
  | [], _ => True
  | now :: nows, due => due ≤ now ∧ now < due + length ∧ Punctual length nows (due + length)

section Firing

variable (digit : Char → Option (Fin 10)) (c : BusinessCalendar) (b : BusinessAmounts)

/-- The due date of a timer after it was executed at these times. -/
def dueAfter (repeat_ : List Char) (n : ℕ) : List ℤ → ℤ → Option ℤ
  | [], due => some due
  | now :: nows, due =>
    (c.reschedule (usFormat digit) b repeat_ now n due).bind (dueAfter repeat_ n nows)

/-- A timer that is executed in time is due one length later each time, and one that is late at the
    first such date that has not passed. -/
structure Repeats (repeat_ : List Char) (length : ℤ) : Prop where
  firing : ∀ nows due, Punctual length nows due →
    Computes (fun n => dueAfter digit c b repeat_ n nows due) (due + nows.length * length)
  caughtUp : ∀ now due, due ≤ now → ∃ k : ℕ, due + k * length ≤ now ∧
    now < due + (k + 1) * length ∧ Computes
      (fun n => c.reschedule (usFormat digit) b repeat_ now n due) (due + (k + 1) * length)

/-- A repeat that is not positive is refused with a fault; otherwise the first firing is where the
    expressions put it, and the others follow in steps of the repeat. -/
structure FiresRight (defaultZone : TimeZone) (now : ℤ) (a : AlarmAction) (v : AlarmValues) : Prop where
  refused : ∀ d ∈ v.repeatEvery, ¬ IsPositive d →
    a.createTimer defaultZone now = .error .invalidExpressionValue
  created : (∀ d ∈ v.repeatEvery, IsPositive d) →
    ∃ timer, a.createTimer defaultZone now = .ok timer ∧
      v.IsFirst defaultZone now timer.dueDate ∧
        (v.repeatEvery = none → timer.repeat_ = none) ∧ ∀ d ∈ v.repeatEvery,
          ∃ text, timer.repeat_ = some text ∧ Repeats digit c b text d.length

/-- What the timer adds for so many seconds: more than an `int` are multiplied as a double. -/
def secondsMillis (n : ℤ) : ℤ :=
  if n < 2 ^ 31 then n * 1000 else (Java.Double.finite (roundDouble n)).times 1000

/-- The deadline is one that is read right, the first duration is one that is added right, and the
    repeat is a positive number of whole seconds, of which the timer makes as many milliseconds. -/
structure Schedulable (defaultZone : TimeZone) (now : ℤ) (v : AlarmValues) : Prop where
  deadline : ∀ g ∈ v.until_, g.Readable defaultZone
  first : v.until_ = none → ∀ d, v.for_.or v.repeatEvery = some d → d.AddsDate defaultZone now
  positive : ∀ d ∈ v.repeatEvery, IsPositive d
  seconds : ∀ d ∈ v.repeatEvery, d.length < 2 ^ 63 ∧ secondsMillis (d.length / 1000) = d.length

/-- `Character.digit(c, 10)`, of the characters of the texts that are written -/
def IsDecimal : Prop := ∀ c : Char, c.isDigit ∨ c = ' ' → digit c = Calendar.asciiDigit c

end Firing

/-! ## What the timer reads -/

section Read

variable {digit : Char → Option (Fin 10)} {b : BusinessAmounts}

theorem scan_digits (h : IsDecimal digit) {ds : List Char} (hds : ds.all Char.isDigit)
    (rest : List Char) (n : ℕ) (saw : Bool) :
    Java.scan digit ⟨n, 0, 0, false, saw⟩ none (ds ++ ' ' :: rest) =
      (⟨Nat.ofDigitChars 10 ds n, 0, 0, false, saw || !ds.isEmpty⟩, ' ' :: rest) := by
  induction ds generalizing n saw with
  | nil =>
    have hspace : digit ' ' = none := h ' ' (.inr rfl)
    rw [List.nil_append, Java.scan, hspace, List.isEmpty_nil, Bool.not_true, Bool.or_false]
    rfl
  | cons c ds ih =>
    rw [List.all_cons, Bool.and_eq_true] at hds
    have hc : digit c = some (Fin.ofNat 10 (c.toNat - 48)) := by
      rw [h c (.inl hds.1), Calendar.asciiDigit, if_pos hds.1]
    have hlt : c.toNat - 48 < 10 := by
      have hdigit := hds.1
      simp only [Char.isDigit, Bool.and_eq_true, decide_eq_true_eq] at hdigit
      have hle : c.val.toNat ≤ 57 := UInt32.le_iff_toNat_le.mp hdigit.2
      have hnat : c.toNat = c.val.toNat := rfl
      omega
    rw [List.cons_append, Java.scan, hc]
    dsimp only [Java.Scan.add]
    rw [if_neg Bool.false_ne_true, ih hds.2, Fin.val_ofNat, Nat.mod_eq_of_lt hlt,
      Nat.ofDigitChars_cons, List.isEmpty_cons, Bool.not_false, Bool.or_true, Bool.true_or]
    rfl

theorem parseNumber_digits (h : IsDecimal digit) (n : ℕ) (rest : List Char) :
    Java.parseNumber digit (Nat.toDigits 10 n ++ ' ' :: rest) =
      some (.finite false n, ' ' :: rest) := by
  have hdigits := Java.all_isDigit_toDigits n
  obtain ⟨c, ds, hcons⟩ := List.exists_cons_of_ne_nil (Nat.toDigits_ne_nil (b := 10) (n := n))
  have hhead : ∀ c' : Char, c'.isDigit = false →
      (Nat.toDigits 10 n ++ ' ' :: rest).head? ≠ some c' := fun c' hc' => by
    have hne := Java.head?_ne_of_isDigit hdigits hc'
    rw [hcons] at hne ⊢
    exact hne
  rw [Java.parseNumber, if_neg (hhead _ (by decide)), if_neg (hhead _ (by decide)),
    Java.parseUnsigned, if_neg (hhead _ (by decide)), Java.Scan.start,
    scan_digits h hdigits rest 0 false, Nat.ofDigitChars_ten_toDigits, hcons]
  dsimp only [List.isEmpty_cons, Bool.not_false, Bool.or_true, if_true, Java.Scan.value]
  norm_num

theorem isWhite_of_isDigit {c : Char} (h : c.isDigit = true) : Calendar.isWhite c = false := by
  rw [Char.isDigit, Bool.and_eq_true, decide_eq_true_eq] at h
  rw [Calendar.isWhite, decide_eq_false_iff_not]
  intro hle
  have hzero := UInt32.le_iff_toNat_le.mp h.1
  have hspace := UInt32.le_iff_toNat_le.mp (Char.le_def.mp hle)
  have hlt : (' ' : Char).val.toNat < ('0' : Char).val.toNat := by decide
  omega

theorem signed_intText (n : ℤ) (rest : List Char) :
    Calendar.signed (Java.intText n ++ rest) =
      some (decide (n < 0), Nat.toDigits 10 n.natAbs ++ rest) := by
  have hdigits := Java.all_isDigit_toDigits n.natAbs
  obtain ⟨c, ds, hcons⟩ :=
    List.exists_cons_of_ne_nil (Nat.toDigits_ne_nil (b := 10) (n := n.natAbs))
  rw [hcons, List.all_cons, Bool.and_eq_true] at hdigits
  have hdrop : (c :: (ds ++ rest)).dropWhile Calendar.isWhite = c :: (ds ++ rest) :=
    List.dropWhile_cons_of_neg (by rw [isWhite_of_isDigit hdigits.1]; exact Bool.false_ne_true)
  by_cases hn : n < 0
  · have hminus : ('-' :: (c :: (ds ++ rest))).dropWhile Calendar.isWhite =
        '-' :: (c :: (ds ++ rest)) := rfl
    rw [Java.intText, if_pos hn, hcons, List.cons_append, List.cons_append, Calendar.signed,
      hminus]
    dsimp only
    rw [if_pos (.inr rfl), hdrop, decide_eq_true hn]
    rfl
  · have hsign : ∀ c' : Char, c'.isDigit = false → c ≠ c' := by
      rintro c' hc' rfl
      rw [hdigits.1] at hc'
      cases hc'
    rw [Java.intText, if_neg hn, hcons, List.cons_append, Calendar.signed, hdrop]
    dsimp only
    rw [if_neg (not_or.mpr ⟨hsign _ (by decide), hsign _ (by decide)⟩), hdrop,
      decide_eq_false hn, decide_eq_false (hsign _ (by decide))]

theorem describes_repeatText (h : IsDecimal digit) (n : ℤ) :
    Calendar.Describes digit b (Java.intText n ++ " seconds".toList) (decide (n < 0))
      (.finite false (n.natAbs : ℤ)) (.plain .second) := by
  have htrim : Calendar.trim " seconds".toList = "seconds".toList := by decide
  have hdigits := Java.all_isDigit_toDigits n.natAbs
  refine ⟨_, _, signed_intText n _, ?_, parseNumber_digits h n.natAbs "seconds".toList, ?_⟩
  · obtain ⟨c, ds, hcons⟩ :=
      List.exists_cons_of_ne_nil (Nat.toDigits_ne_nil (b := 10) (n := n.natAbs))
    have hne := Java.head?_ne_of_isDigit hdigits (show '-'.isDigit = false from rfl)
    rw [hcons] at hne ⊢
    exact hne
  · have hplain : (String.ofList "seconds".toList).startsWith "business" = false := by
      decide +kernel
    have hlookup : Calendar.calendarFields.lookup (String.ofList "seconds".toList) =
        some .second := by decide +kernel
    rw [show (' ' :: "seconds".toList) = " seconds".toList from rfl, htrim, Calendar.unitOf,
      hplain, if_neg Bool.false_ne_true, hlookup]
    rfl

/-- What the timer adds to its due date. -/
theorem parseDuration_repeatText (h : IsDecimal digit) (n : ℤ) :
    ∃ d millis, parseDuration (usFormat digit) b (Java.intText n ++ " seconds".toList) = some d ∧
      d.isBusinessTime = false ∧ d.field.millis = some millis ∧ 0 < millis ∧
        d.added * millis < 2 ^ 63 ∧ (0 ≤ n → d.added * millis = secondsMillis n) := by
  have hread := fun d => (Calendar.newDuration_ok (d := d)).symm.trans
    (Calendar.ofText_of_describes (d := d) (describes_repeatText (b := b) h n))
  have hquantity := Calendar.quantity_intCast n.natAbs
  by_cases hint : (n.natAbs : ℤ) < 2 ^ 31
  · have hlong : Java.IsLong (n.natAbs : ℤ) := ⟨by omega, by omega⟩
    rw [if_pos hlong] at hquantity
    have hcreate : Calendar.create (usFormat digit)
        (Calendar.quantity (.finite false (n.natAbs : ℤ))) (.plain .second) =
          some ⟨.second, n.natAbs, false, fun h => absurd h Bool.false_ne_true⟩ := by
      rw [hquantity, Calendar.create, Calendar.Quantity.inField, if_pos ⟨by omega, hint⟩]
    have hfield : ¬ Calendar.Field.second = .millisecond := by decide
    have hadded : (Calendar.applySign (decide (n < 0))
        ⟨.second, n.natAbs, false, fun h => absurd h Bool.false_ne_true⟩).added = n := by
      rw [Calendar.Duration.added, Calendar.applySign_field, if_neg hfield,
        Calendar.applySign_exact hlong (show (-2 ^ 63 : ℤ) < (n.natAbs : ℤ) by omega),
        Calendar.sign]
      rw [Int.bmod_eq_of_le_mul_two] <;> simp only [decide_eq_true_eq] <;> split <;> omega
    refine ⟨_, 1000, (hread _).mpr ⟨_, hcreate, rfl⟩, ?_, ?_, by decide, ?_, fun hn => ?_⟩
    · cases decide (n < 0) <;> rfl
    · rw [Calendar.applySign_field]
      rfl
    · rw [hadded]
      omega
    · rw [hadded, secondsMillis, if_pos (by omega)]
  · have hcreate : Calendar.create (usFormat digit)
        (Calendar.quantity (.finite false (n.natAbs : ℤ))) (.plain .second) =
          some ⟨.millisecond, (Java.Double.finite (roundDouble (n.natAbs : ℤ))).times 1000, false,
            fun h => absurd h Bool.false_ne_true⟩ := by
      rw [hquantity]
      by_cases hlong : Java.IsLong (n.natAbs : ℤ)
      · rw [if_pos hlong, Calendar.create, Calendar.Quantity.inField, if_neg fun h => hint h.2]
        rfl
      · rw [if_neg hlong, Calendar.create, Calendar.Quantity.inField]
        rfl
    have htimes : Java.IsLong ((Java.Double.finite (roundDouble (n.natAbs : ℤ))).times 1000) :=
      Java.isLong_longOf _
    refine ⟨_, 1, (hread _).mpr ⟨_, hcreate, rfl⟩, ?_, ?_, by decide, ?_, fun hn => ?_⟩
    · cases decide (n < 0) <;> rfl
    · rw [Calendar.applySign_field]
      rfl
    · rw [Calendar.Duration.added, Calendar.applySign_field, if_pos rfl,
        Calendar.applySign_amount, mul_one]
      split
      · exact (Calendar.isLong_toLong _).2
      · exact htimes.2
    · have habs : (n.natAbs : ℤ) = n := by omega
      rw [Calendar.Duration.added, Calendar.applySign_field, if_pos rfl,
        Calendar.applySign_amount, decide_eq_false (by omega), if_neg Bool.false_ne_true, mul_one,
        secondsMillis, if_neg (by omega), habs]

end Read

/-! ## The later firings -/

section Firing

variable {digit : Char → Option (Fin 10)} {c : BusinessCalendar} {b : BusinessAmounts}
  {text : List Char} {d : Calendar.Duration} {millis length : ℤ}

theorem caughtUp_of_parse (hparse : parseDuration (usFormat digit) b text = some d)
    (hb : d.isBusinessTime = false) (hf : d.field.millis = some millis)
    (hadded : 0 < d.added) {now due : ℤ} (hdue : due ≤ now) :
    ∃ k : ℕ, due + k * (d.added * millis) ≤ now ∧ now < due + (k + 1) * (d.added * millis) ∧
      Computes (fun n => c.reschedule (usFormat digit) b text now n due)
        (due + (k + 1) * (d.added * millis)) := by
  obtain ⟨date, k, hcomputes, hlt, hdate, hbefore⟩ :=
    BusinessCalendar.reschedules_of_pos (c := c) hparse hadded now due
  rw [BusinessCalendar.progression_eq hb hf] at hdate
  cases k with
  | zero =>
    rw [Nat.cast_zero, zero_mul, add_zero] at hdate
    omega
  | succ k =>
    obtain ⟨x, hx, hle⟩ := hbefore k (Nat.lt_succ_self k)
    rw [BusinessCalendar.progression_eq hb hf] at hx
    rw [Nat.cast_succ] at hdate
    exact ⟨k, hx ▸ hle, hdate ▸ hlt, hdate ▸ hcomputes⟩

/-- The timer repeats as it should if what it adds is the length. -/
theorem repeats_iff (hparse : parseDuration (usFormat digit) b text = some d)
    (hb : d.isBusinessTime = false) (hf : d.field.millis = some millis) (hlength : 0 < length) :
    Repeats digit c b text length ↔ d.added * millis = length := by
  have hmillis := Calendar.Field.millis_pos hf
  constructor
  · intro h
    have hfiring := h.firing [0] 0 ⟨le_rfl, by omega, trivial⟩
    have hdue : ∀ n, dueAfter digit c b text n [0] 0 =
        c.reschedule (usFormat digit) b text 0 n 0 := fun n => by
      cases h : c.reschedule (usFormat digit) b text 0 n 0 <;> rw [dueAfter, h] <;> rfl
    simp only [hdue] at hfiring
    by_cases hadded : 0 < d.added
    · obtain ⟨k, hle, -, hcomputes⟩ := caughtUp_of_parse (c := c) hparse hb hf hadded le_rfl
      have hpos := Int.mul_pos hadded hmillis
      have hk : (k : ℤ) * (d.added * millis) = 0 :=
        le_antisymm (by omega) (mul_nonneg (Int.natCast_nonneg k) hpos.le)
      have hone := hcomputes.unique hfiring
      rw [Int.add_mul, hk, List.length_singleton, Nat.cast_one] at hone
      omega
    · -- the loop does not end
      obtain ⟨n, hn⟩ := hfiring
      have hnone : c.reschedule (usFormat digit) b text 0 n 0 = none :=
        BusinessCalendar.reschedule_eq_none le_rfl hparse (fun n date e hdate he =>
          (BusinessCalendar.addDuration_le hb (by omega) he).trans hdate) n le_rfl
      cases hnone.symm.trans (hn n le_rfl)
  · rintro rfl
    have hadded : 0 < d.added := pos_of_mul_pos_left hlength hmillis.le
    refine ⟨fun nows due hpunctual => ?_, fun now due => caughtUp_of_parse hparse hb hf hadded⟩
    induction nows generalizing due with
    | nil =>
      rw [List.length_nil, Nat.cast_zero, zero_mul, add_zero]
      exact Computes.const due
    | cons now nows ih =>
      obtain ⟨hdue, hlt, hpunctual⟩ := hpunctual
      obtain ⟨k, hle, -, hcomputes⟩ := caughtUp_of_parse (c := c) hparse hb hf hadded hdue
      have hk : k = 0 := by
        by_contra hk
        have hone := mul_le_mul_of_nonneg_right (show (1 : ℤ) ≤ k by omega) hlength.le
        omega
      rw [hk, Nat.cast_zero, zero_add, one_mul] at hcomputes
      have hbind := hcomputes.bind (g := fun due n => dueAfter digit c b text n nows due)
        (ih _ hpunctual)
      have hsum : due + ((now :: nows).length : ℕ) * (d.added * millis) =
          due + d.added * millis + nows.length * (d.added * millis) := by
        rw [List.length_cons, Nat.cast_succ, Int.add_mul, one_mul]
        omega
      rw [hsum]
      exact hbind

end Firing

/-! ## The timer that is created -/

section Create

variable {digit : Char → Option (Fin 10)} {c : BusinessCalendar} {b : BusinessAmounts}
  {a : AlarmAction} {v : AlarmValues} {defaultZone : TimeZone} {now : ℤ}

theorem toDuration_eq {text : Option (List Char)} {value : Option Xml.Duration}
    (h : text.map Xml.valueOf = value.map fun d => some (some d)) :
    text.mapM toDuration = .ok value := by
  cases text with
  | none =>
    cases value with
    | none => rfl
    | some => cases h
  | some text =>
    cases value with
    | none => cases h
    | some d =>
      have htext : Xml.valueOf text = some (some d) := Option.some.inj h
      have hd : toDuration text = .ok d := by rw [toDuration, htext]
      rw [Option.mapM_some, hd]
      rfl

theorem AlarmAction.Evaluates.specified (h : a.Evaluates defaultZone v) :
    v.for_ ≠ none ∨ v.until_ ≠ none ∨ v.repeatEvery ≠ none := by
  refine a.specified.imp (fun hne hnone => hne ?_) (Or.imp (fun hne hnone => hne ?_)
    fun hne hnone => hne ?_)
  · exact Option.map_eq_none_iff.mp (h.for_.trans (by rw [hnone, Option.map_none]))
  · rw [h.until_, hnone, Option.map_none]
  · exact Option.map_eq_none_iff.mp (h.repeatEvery.trans (by rw [hnone, Option.map_none]))

/-- The due date is that of the deadline, or of a duration that is added. -/
theorem dueDate_cases (now : ℤ) (h : a.Evaluates defaultZone v) :
    (∃ g fields, v.until_ = some g ∧ g.setFields defaultZone = some fields ∧
      a.dueDate defaultZone now v.repeatEvery =
        fields.getTime.elim (.error .illegalArgument) .ok) ∨
    (v.until_ = none ∧ ∃ d, v.for_.or v.repeatEvery = some d ∧
      (∀ t, v.IsFirst defaultZone now t ↔ t = d.schemaAdd (defaultZone.offset now) now) ∧
        a.dueDate defaultZone now v.repeatEvery = .ok (d.addTo defaultZone now)) := by
  have hfor := h.for_
  unfold AlarmAction.dueDate
  rw [h.until_]
  cases huntil : v.until_ with
  | some g =>
    left
    obtain ⟨hwell, -, hset⟩ := h.literal g huntil
    obtain ⟨fields, hfields⟩ := Option.isSome_iff_exists.mp hset
    have htime : toDateTime defaultZone g.text = .ok fields := by
      rw [toDateTime, Xml.parseDateTime_text hwell, hfields, Option.map_some]
    refine ⟨g, fields, rfl, hfields, ?_⟩
    rw [Option.map_some]
    dsimp only
    rw [htime]
    rfl
  | none =>
    right
    refine ⟨rfl, ?_⟩
    simp only [AlarmValues.IsFirst, huntil]
    rw [Option.map_none]
    cases hd : v.for_ with
    | some d =>
      cases htext : a.for_ with
      | none => rw [htext, hd] at hfor; cases hfor
      | some text =>
        rw [htext, hd] at hfor
        have hvalue : Xml.valueOf text = some (some d) := Option.some.inj hfor
        refine ⟨d, rfl, fun _ => Iff.rfl, ?_⟩
        dsimp only
        rw [toDuration, hvalue]
        rfl
    | none =>
      rw [hd, Option.map_none, Option.map_eq_none_iff] at hfor
      rw [hfor]
      cases hr : v.repeatEvery with
      | some d => exact ⟨d, rfl, fun _ => Iff.rfl, rfl⟩
      | none => exact absurd hr ((h.specified.resolve_left (· hd)).resolve_left (· huntil))

theorem dueDate_iff (now : ℤ) (h : a.Evaluates defaultZone v) :
    (∃ t, a.dueDate defaultZone now v.repeatEvery = .ok t ∧ v.IsFirst defaultZone now t) ↔
      (∀ g ∈ v.until_, g.Readable defaultZone) ∧ (v.until_ = none →
        ∀ d, v.for_.or v.repeatEvery = some d → d.AddsDate defaultZone now) := by
  rcases dueDate_cases now h with
    ⟨g, fields, huntil, hset, hdue⟩ | ⟨huntil, d, hd, hfirst, hdue⟩
  · obtain ⟨hwell, hvalid, -⟩ := h.literal g huntil
    have hreadable := Xml.getTime_iff hwell hvalid defaultZone
    rw [hset] at hreadable
    have hisFirst : ∀ t, v.IsFirst defaultZone now t ↔ g.Denotes defaultZone t := fun t => by
      simp only [AlarmValues.IsFirst, huntil]
    simp only [hdue, hisFirst, huntil]
    constructor
    · rintro ⟨t, htime, hdenotes⟩
      refine ⟨?_, nofun⟩
      rintro g' ⟨rfl⟩
      refine hreadable.mp ⟨fields, t, rfl, ?_, hdenotes⟩
      cases hf : fields.getTime with
      | none => rw [hf] at htime; cases htime
      | some t => rw [hf] at htime; exact congrArg some (Except.ok.inj htime)
    · rintro ⟨hread, -⟩
      obtain ⟨fields', t, ⟨rfl⟩, htime, hdenotes⟩ := hreadable.mpr (hread g rfl)
      exact ⟨t, by rw [htime]; rfl, hdenotes⟩
  · simp only [hdue, hfirst, Except.ok.injEq, exists_eq_left',
      Xml.addTo_eq_schemaAdd_iff, huntil]
    constructor
    · intro hdate
      refine ⟨nofun, fun _ d' hd' => ?_⟩
      obtain rfl := Option.some.inj (hd.symm.trans hd')
      exact hdate
    · exact fun hdate => hdate.2 trivial d hd

theorem createTimer_eq (h : a.Evaluates defaultZone v) : a.createTimer defaultZone now =
    (a.dueDate defaultZone now v.repeatEvery).map fun dueDate =>
      { name := "a:" ++ toString a.id
        repeat_ := v.repeatEvery.map fun d => repeatText d.getTimeInMillis
        dueDate := dueDate } := by
  rw [AlarmAction.createTimer, toDuration_eq h.repeatEvery]
  rfl

/-- No repeat is refused. -/
theorem createTimer_ne_fault (h : a.Evaluates defaultZone v) :
    a.createTimer defaultZone now ≠ .error .invalidExpressionValue := by
  rw [createTimer_eq h]
  rcases dueDate_cases now h with ⟨g, fields, -, -, hdue⟩ | ⟨-, d, -, -, hdue⟩
  · rw [hdue]
    cases fields.getTime <;> nofun
  · rw [hdue]
    nofun

/-- The text for the scheduler is right if the seconds are. -/
theorem repeats_repeatText_iff (hdigit : IsDecimal digit) {d : Xml.Duration} (hd : IsPositive d) :
    Repeats digit c b (repeatText d.getTimeInMillis) d.length ↔
      d.length < 2 ^ 63 ∧ secondsMillis (d.length / 1000) = d.length := by
  obtain ⟨added, millis, hparse, hb, hf, -, hlt, hseconds⟩ :=
    parseDuration_repeatText (b := b) hdigit (d.getTimeInMillis.tdiv 1000)
  have hlength := hd.2
  rw [repeatText, repeats_iff hparse hb hf hlength]
  by_cases hlong : d.length < 2 ^ 63
  · have htime : d.getTimeInMillis = d.length := by
      rw [Xml.Duration.getTimeInMillis, Calendar.toLong_of_isLong ⟨by omega, hlong⟩]
    have hdiv : d.getTimeInMillis.tdiv 1000 = d.length / 1000 := by
      rw [htime]
      exact Int.tdiv_eq_ediv_of_nonneg hlength.le
    rw [hseconds (by omega), hdiv, and_iff_right hlong]
  · exact iff_of_false (by omega) fun h => hlong h.1

end Create

/-! ## Examples of alarms -/

/-- Only `repeatEvery` is given. -/
def repeating (repeatEvery : List Char) : AlarmAction where
  id := 1
  for_ := none
  until_ := none
  repeatEvery := some repeatEvery
  specified := .inr (.inr nofun)

theorem evaluates_repeating {text : List Char} {d : Xml.Duration}
    (h : Xml.valueOf text = some (some d)) :
    (repeating text).Evaluates .gmt ⟨none, none, some d⟩ where
  for_ := rfl
  repeatEvery := congrArg some h
  until_ := rfl
  literal := nofun

end Bpel

end Jbpm
