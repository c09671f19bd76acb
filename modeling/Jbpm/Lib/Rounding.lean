/-
  Rounding of rationals to numbers with a limited count of binary digits.
-/
import Mathlib.Algebra.Order.Floor.Ring
import Mathlib.Data.Int.Log
import Mathlib.Data.Rat.Floor
import Mathlib.Tactic.Ring

namespace Lib

/-- The nearest integer, and the even one where two are. -/
def roundEven (x : ℚ) : ℤ :=
  if 2 * (x - ⌊x⌋) < 1 ∨ (2 * (x - ⌊x⌋) = 1 ∧ ⌊x⌋ % 2 = 0) then ⌊x⌋ else ⌊x⌋ + 1

/-- The distance of the numbers of `p` digits around `x`. -/
def ulp (p : ℕ) (x : ℚ) : ℚ := 2 ^ (Int.log 2 |x| + 1 - p)

def roundBits (p : ℕ) (x : ℚ) : ℚ := roundEven (x / ulp p x) * ulp p x

theorem roundEven_intCast (n : ℤ) : roundEven n = n := by
  rw [roundEven, Int.floor_intCast, sub_self, mul_zero, if_pos (.inl one_pos)]

theorem roundBits_zero (p : ℕ) : roundBits p 0 = 0 := by
  have hzero := roundEven_intCast 0
  rw [Int.cast_zero] at hzero
  rw [roundBits, zero_div, hzero, Int.cast_zero, zero_mul]

/-- Integers are rounded to integers. -/
theorem exists_roundBits_intCast (p : ℕ) (n : ℤ) : ∃ k : ℤ, roundBits p n = k := by
  unfold roundBits ulp
  generalize Int.log 2 |(n : ℚ)| + 1 - p = e
  obtain ⟨k, rfl | rfl⟩ := e.eq_nat_or_neg
  · refine ⟨roundEven (n / 2 ^ (k : ℤ)) * 2 ^ k, ?_⟩
    rw [Int.cast_mul, Int.cast_pow, Int.cast_ofNat, zpow_natCast]
  · have hcast : (n : ℚ) / 2 ^ (-(k : ℤ)) = (n * 2 ^ k : ℤ) := by
      rw [Int.cast_mul, Int.cast_pow, Int.cast_ofNat, zpow_neg, zpow_natCast, div_inv_eq_mul]
    refine ⟨n, ?_⟩
    rw [hcast, roundEven_intCast, ← hcast, div_mul_cancel₀]
    exact zpow_ne_zero _ two_ne_zero

end Lib
