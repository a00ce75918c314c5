import ExactLength.Number.Binary64
import ExactLength.Text.Digits

/-!
# Fixed places

A binary64 number with a fixed number of decimal places. The exact value of the number is rounded,
a half to the even neighbour. The sign is kept when all the digits are zero.
-/

namespace ExactLength

/-- The natural number `n` with its last `places` digits behind a point. -/
def pointed (places n : Nat) : Text :=
  Digits.ofNat (n / Digits.tens places) ++
    '.' :: (Digits.ofNat (n % Digits.tens places)).leftpad places '0'

/-- The minus sign of a negative number. -/
def minusSign (negative : Bool) : Text := if negative then ['-'] else []

/-- The value of a number with a given number of decimal places. -/
def Binary64.toFixed (places : Nat) : Binary64 → Text
  | finite negative mantissa exponent =>
    minusSign negative ++
      pointed places
        (Rounding.halfEven (scaleNum (Digits.tens places * mantissa) (-exponent))
          (scaleDen 1 (-exponent)))
  | infinite negative => minusSign negative ++ ['i', 'n', 'f']

end ExactLength
