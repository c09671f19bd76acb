/-
  Numbers at the beginning of texts, as the number format of the US reads them.

  * `Scan`, `parseNumber`: the digits, groups, fraction and exponent of a number;
  * `Double`, `Double.times`: the arithmetic of doubles that ends in a `long`.

  `digit` is `Character.digit(c, 10)`.
-/
import Jbpm.Lib.Rounding

namespace Java

def IsLong (n : ℤ) : Prop := -2 ^ 63 ≤ n ∧ n < 2 ^ 63

instance (n : ℤ) : Decidable (IsLong n) := inferInstanceAs (Decidable (_ ∧ _))

/-! ## Doubles -/

/-- The numbers have exponents of any size: `(long)` takes those beyond its range to its ends. -/
inductive Double
  | finite (x : ℚ)
  | infinite (negative : Bool)
  | nan

def roundDouble (x : ℚ) : ℚ := Lib.roundBits 53 x

/-- `(long) x` -/
def longOf (x : ℚ) : ℤ := max (-2 ^ 63) (min (2 ^ 63 - 1) (if 0 ≤ x then ⌊x⌋ else ⌈x⌉))

/-- `(long) (x * n)` for a `long` -/
def Double.times (n : ℤ) : Double → ℤ
  | .finite x => longOf (roundDouble (x * roundDouble n))
  | .infinite negative =>
    if n = 0 then 0 else if (n < 0) = (negative = true) then 2 ^ 63 - 1 else -2 ^ 63
  | .nan => 0

theorem longOf_intCast (n : ℤ) : longOf n = max (-2 ^ 63) (min (2 ^ 63 - 1) n) := by
  rw [longOf, Int.floor_intCast, Int.ceil_intCast, ite_self]

theorem isLong_longOf (x : ℚ) : IsLong (longOf x) := by
  unfold longOf IsLong
  omega

/-! ## Numbers -/

/-- What is scanned of a number: its digits, without the point, how many of them are after it, and
    the exponent. -/
structure Scan where
  digits : ℕ
  scale : ℕ
  exponent : ℤ
  sawDecimal : Bool
  sawDigit : Bool

inductive Number
  | finite (negative : Bool) (value : ℚ)
  | infinite (negative : Bool)
  | nan
  deriving DecidableEq

def Scan.add (m : Scan) (d : ℕ) : Scan :=
  { m with
    digits := 10 * m.digits + d
    scale := if m.sawDecimal then m.scale + 1 else m.scale
    sawDigit := true }

def Scan.value (m : Scan) : ℚ := m.digits * 10 ^ (m.exponent - m.scale)

section Parse

variable (digit : Char → Option (Fin 10))

/-- The exponent after an `E`: digits, perhaps after a minus, that are a `long`, taken as an
    `int`. -/
def parseExponent (text : List Char) : Option (ℤ × List Char) :=
  let negative := decide (text.head? = some '-')
  let digitsText := if negative then text.tail else text
  let digits := digitsText.takeWhile fun c => (digit c).isSome
  let n : ℕ := digits.foldl (fun n c => 10 * n + ((digit c).elim 0 Fin.val)) 0
  let exponent : ℤ := if negative then -n else n
  if digits ≠ [] ∧ IsLong exponent then
    some (exponent.bmod (2 ^ 32), digitsText.drop digits.length)
  else none

/-- The scan of a number; a group separator that no digit follows (`backup`) is not taken. -/
def scan (m : Scan) (backup : Option (List Char)) : List Char → Scan × List Char
  | [] => (m, backup.getD [])
  | c :: cs =>
    match digit c with
    | some d => scan (m.add d) none cs
    | none =>
      if c = '.' ∧ m.sawDecimal = false then scan { m with sawDecimal := true } backup cs
      else if c = ',' ∧ m.sawDecimal = false then scan m (some (c :: cs)) cs
      else if c = 'E' then
        match parseExponent digit cs with
        | some (exponent, rest) => ({ m with exponent := exponent }, backup.getD rest)
        | none => (m, backup.getD (c :: cs))
      else (m, backup.getD (c :: cs))

def Scan.start : Scan := ⟨0, 0, 0, false, false⟩

def parseUnsigned (negative : Bool) (text : List Char) : Option (Number × List Char) :=
  if text.head? = some '∞' then some (.infinite negative, text.tail)
  else
    let (m, rest) := scan digit .start none text
    if m.sawDigit then some (.finite negative m.value, rest) else none

/-- `NumberFormat.parse`: the number, and the text after it -/
def parseNumber (text : List Char) : Option (Number × List Char) :=
  if text.head? = some '\ufffd' then some (.nan, text.tail)
  else if text.head? = some '-' then parseUnsigned digit true text.tail
  else parseUnsigned digit false text

/-- Without a minus of its own a number is not negative. -/
theorem parseNumber_unsigned {text rest : List Char} {negative : Bool} {value : ℚ}
    (h : text.head? ≠ some '-')
    (hparse : parseNumber digit text = some (.finite negative value, rest)) :
    negative = false ∧ 0 ≤ value := by
  rw [parseNumber, if_neg h] at hparse
  split at hparse
  · cases hparse
  · rw [parseUnsigned] at hparse
    split at hparse
    · cases hparse
    · dsimp only at hparse
      split at hparse
      · cases hparse
        exact ⟨rfl, mul_nonneg (Nat.cast_nonneg _) (zpow_nonneg (by norm_num) _)⟩
      · cases hparse

end Parse

end Java
