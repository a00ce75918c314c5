import ExactLength.Number.Ratio

/-!
# Decimal numbers

The reader of signed decimals: at most one sign, then digits with at most one point. Either run of
digits may be empty, but without a point there is a digit.

**Deviation.** All the digits together are taken over a power of ten for the places, and the places
are counted in 32 bits. So the number is the exact one for fewer than `2 ^ 32` places; from there on
the count starts over, and the digits behind the point weigh too much.
-/

namespace ExactLength.Decimal

/-- The power of ten that the digits behind the point count up to. -/
def scale (places : Text) : Nat := Digits.tens (UInt32.ofNat places.length).toNat

/-- The number with these digits before and behind the point. -/
def ratio (negative : Bool) (whole places : Text) : Ratio :=
  let n : Int := Digits.toNat whole * scale places + Digits.toNat places
  Ratio.reduced (if negative then -n else n) (scale places)

/-- The number without a sign. -/
def value (whole places : Text) : Rat := (ratio false whole places).toRat

/-- Splits off a sign; the flag says whether it is a minus sign. -/
def splitSign : Text → Bool × Text
  | '-' :: body => (true, body)
  | '+' :: body => (false, body)
  | body => (false, body)

/-- The parts of a signed decimal: whether it has a minus sign, and its digits before and behind the
point. An error tells the position of the first character that cannot continue the format, or the
end of the text when nothing follows the sign. -/
def parts (text : Text) : Except EvalError (Bool × Text × Text) :=
  let (negative, body) := splitSign text
  let whole := Digits.leading body
  match Digits.after body with
  | [] =>
    if whole = [] then .error (.malformed none text.length)
    else .ok (negative, whole, [])
  | '.' :: after =>
    match Digits.after after with
    | [] => .ok (negative, whole, Digits.leading after)
    | c :: rest => .error (.invalidCharacter c (text.length - (c :: rest).length))
  | c :: rest => .error (.invalidCharacter c (text.length - (c :: rest).length))

/-- Reads a signed decimal as numerator and denominator (`from_decimal_str`). -/
def readRatio (text : Text) : Except EvalError Ratio :=
  (parts text).map fun (negative, whole, places) => ratio negative whole places

/-- Reads a signed decimal. -/
def read (text : Text) : Except EvalError Rat := (readRatio text).map Ratio.toRat

end ExactLength.Decimal
