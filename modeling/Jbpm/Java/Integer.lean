/-
  The text of an `int`, and what is read from a text.
-/
import Mathlib.Algebra.Group.Int.Defs
import Mathlib.Data.Int.Notation
import Mathlib.Data.Nat.Notation
import Mathlib.Tactic.Common

namespace Java

/-- The values of an `int`. -/
def IsInt (n : ℤ) : Prop := -2 ^ 31 ≤ n ∧ n < 2 ^ 31

instance (n : ℤ) : Decidable (IsInt n) := inferInstanceAs (Decidable (_ ∧ _))

/-- `Integer.parseInt`, unless it throws a `NumberFormatException` -/
def parseInt (text : List Char) : Option ℤ :=
  let digits := if text.head? = some '-' then text.tail else text
  let n : ℤ := Nat.ofDigitChars 10 digits 0
  let n := if text.head? = some '-' then -n else n
  if digits ≠ [] ∧ digits.all Char.isDigit ∧ IsInt n then some n else none

/-- `Integer.toString` -/
def intText (n : ℤ) : List Char :=
  if n < 0 then '-' :: Nat.toDigits 10 n.natAbs else Nat.toDigits 10 n.natAbs

theorem all_isDigit_toDigits (n : ℕ) : (Nat.toDigits 10 n).all Char.isDigit := by
  rw [List.all_eq_true]
  exact fun c hc => Nat.isDigit_of_mem_toDigits (by decide) (by decide) hc

/-- Digits do not begin with a sign. -/
theorem head?_ne_of_isDigit {ds : List Char} {c : Char} (h : ds.all Char.isDigit)
    (hc : c.isDigit = false) : ds.head? ≠ some c := by
  intro hhead
  have hdigit := List.all_eq_true.1 h c (List.mem_of_mem_head? hhead)
  rw [hc] at hdigit
  cases hdigit

theorem parseInt_intText {n : ℤ} (h : IsInt n) : parseInt (intText n) = some n := by
  have hdigits := all_isDigit_toDigits n.natAbs
  have hne : Nat.toDigits 10 n.natAbs ≠ [] := Nat.toDigits_ne_nil
  by_cases hn : n < 0
  · have habs : -(n.natAbs : ℤ) = n := by omega
    rw [intText, if_pos hn, parseInt]
    simp only [List.head?_cons, List.tail_cons, if_true, Nat.ofDigitChars_ten_toDigits, habs]
    exact if_pos ⟨hne, hdigits, h⟩
  · have habs : (n.natAbs : ℤ) = n := by omega
    rw [intText, if_neg hn, parseInt]
    simp only [if_neg (head?_ne_of_isDigit hdigits (show '-'.isDigit = false from rfl)),
      Nat.ofDigitChars_ten_toDigits, habs]
    exact if_pos ⟨hne, hdigits, h⟩

end Java
