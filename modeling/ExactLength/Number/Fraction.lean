import ExactLength.Text.Digits

/-!
# Fractions

Exact numbers are rationals in lowest terms with a positive denominator. This module writes them and
rounds them to integers.

Results:
* `text_of_nonneg`: what is written of a number that is not negative.
* `round_neg`: rounding treats both signs alike.
-/

namespace ExactLength.Fraction

/-- A fraction without a denominator to write (`is_integer`). -/
def isInteger (r : Rat) : Bool := r.den == 1

/-- An integer is written `n`, every other fraction `n/d`. -/
def text (r : Rat) : Text :=
  if isInteger r then Digits.ofInt r.num else Digits.ofInt r.num ++ '/' :: Digits.ofNat r.den

/-- The integer nearest to a fraction; a half goes away from zero. -/
def round (r : Rat) : Int :=
  if r < 0 then -(-r + 1 / 2).floor else (r + 1 / 2).floor

/-- The order of two fractions. -/
def compare (a b : Rat) : Ordering := compareOfLessAndEq a b

/-- Without a sign to write, the numerator is written as it is. -/
theorem text_of_nonneg {r : Rat} (h : 0 ≤ r) :
    text r = if isInteger r then Digits.ofNat r.num.natAbs
      else Digits.ofNat r.num.natAbs ++ '/' :: Digits.ofNat r.den := by
  rw [text, Digits.ofInt, if_neg (Int.not_lt.2 (Rat.num_nonneg.2 h))]

/-- Rounding treats both signs alike. -/
theorem round_neg (r : Rat) : round (-r) = -round r := by
  by_cases h₁ : r < 0
  · have h₂ : ¬ -r < 0 := by grind
    simp [round, h₁, h₂]
  · by_cases h₂ : -r < 0
    · simp [round, h₁, h₂]
    · have h₃ : r = 0 := by grind
      subst h₃
      decide +kernel

end ExactLength.Fraction
