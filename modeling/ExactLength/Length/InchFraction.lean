import ExactLength.Length.Error

/-!
# Inch fractions

Inches as the workshop writes them: whole inches and a fraction at the nearest 1/N of an inch, in
lowest terms, as in `1 3/8`.

Results:
* `inchText_of_ne_zero`: inches are shown in parts of every size but zero.
-/

namespace ExactLength

/-- A sign, whole inches and a number of equal parts of an inch. -/
structure InchFraction where
  negative : Bool
  whole : Nat
  parts : Nat
  denominator : Nat
  deriving DecidableEq, Repr

namespace InchFraction

/-- The inches nearest to a fraction in parts of the given size; a half goes away from zero. What is
left over the whole inches is rounded, and carried when it makes up one more inch. -/
def nearest (inches : Rat) (denominator : Nat) : InchFraction :=
  let size := inches.abs
  let whole := size.floor.toNat
  let parts := (Fraction.round ((size - whole) * denominator)).toNat
  if parts = denominator then ⟨decide (inches < 0), whole + 1, 0, denominator⟩
  else ⟨decide (inches < 0), whole, parts, denominator⟩

/-- The sign in front of an amount that is not zero. -/
def signText (f : InchFraction) : Text := if f.negative then ['-'] else []

/-- The parts as a fraction in lowest terms. -/
def partsText (f : InchFraction) : Text := Fraction.text (mkRat f.parts f.denominator)

/-- Whole inches and fraction with a space between them; either is left out when it is zero, and
zero is written without a sign. -/
def text (f : InchFraction) : Text :=
  if f.parts = 0 then
    if f.whole = 0 then Digits.ofNat 0 else f.signText ++ Digits.ofNat f.whole
  else if f.whole = 0 then f.signText ++ f.partsText
  else f.signText ++ Digits.ofNat f.whole ++ ' ' :: f.partsText

end InchFraction

/-- Inches at the nearest 1/N of an inch (`format_fraction_pouce`). -/
def inchText (inches : Rat) (denominator : Nat) : Except LengthError Text :=
  if denominator = 0 then .error (.invalidDenominator denominator)
  else .ok (InchFraction.nearest inches denominator).text

theorem inchText_of_ne_zero {inches : Rat} {denominator : Nat} (h : denominator ≠ 0) :
    inchText inches denominator = .ok (InchFraction.nearest inches denominator).text := by
  simp [inchText, h]

end ExactLength
