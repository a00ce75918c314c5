/-!
# Binary64

The binary floating-point numbers of 64 bits, as far as exact numbers are rounded to them for
display: a sign, a significand of at most 53 bits and an exponent, or an infinity. A significand is
the nearest natural number to a quotient; a half goes to the even neighbour.
-/

namespace ExactLength

/-- The natural number nearest to `n / d`; of two equally near ones the even one. -/
def Rounding.halfEven (n d : Nat) : Nat :=
  let q := n / d
  let r := n % d
  if 2 * r < d ∨ (2 * r = d ∧ q % 2 = 0) then q else q + 1

/-- A binary64 number: `mantissa * 2 ^ exponent` with a sign, or an infinity with a sign. -/
inductive Binary64
  | finite (negative : Bool) (mantissa : Nat) (exponent : Int)
  | infinite (negative : Bool)
  deriving DecidableEq, Repr

namespace Binary64

/-- The exponent of the subnormal numbers, the least of all. -/
def minExponent : Int := -1074

/-- The numerator of `n / d` over `2 ^ e`. -/
def scaleNum (n : Nat) (e : Int) : Nat := n <<< (-e).toNat

/-- The denominator of `n / d` over `2 ^ e`. -/
def scaleDen (d : Nat) (e : Int) : Nat := d <<< e.toNat

/-- The exponent of the greatest power of two that is at most `n / d`, for positive `n` and `d`. -/
def logTwo (n d : Nat) : Int :=
  let e : Int := n.log2 - d.log2
  if scaleDen d e ≤ scaleNum n e then e else e - 1

/-- The bits of the numbers from `2 ^ 1024` on, where the infinities begin. -/
def infinityBits : Nat := 2047 <<< 52

/-- The 63 bits of `mantissa * 2 ^ exponent`. The exponent field is one more than the distance to
the least exponent when the leading bit of the significand is set; adding the significand as it is
makes up for that bit. -/
def magnitudeBits (mantissa : Nat) (exponent : Int) : Nat :=
  (exponent - minExponent).toNat <<< 52 + mantissa

/-- The exponent at which `n / d` is rounded: 53 bits, fewer below the normal numbers. -/
def roundingExponent (n d : Nat) : Int := max (logTwo n d - 52) minExponent

/-- The binary64 number nearest to a fraction; of two equally near ones the one with the even
significand (`to_f64`). A negative fraction keeps its sign when it is rounded to zero. -/
def ofRat (r : Rat) : Binary64 :=
  let n := r.num.natAbs
  let exponent := roundingExponent n r.den
  let mantissa := Rounding.halfEven (scaleNum n exponent) (scaleDen r.den exponent)
  if n = 0 then finite false 0 minExponent
  else if magnitudeBits mantissa exponent < infinityBits then
    finite (decide (r < 0)) mantissa exponent
  else infinite (decide (r < 0))

/-- The 64 bits of a number, the sign first. -/
def toBits : Binary64 → Nat
  | finite negative mantissa exponent =>
    negative.toNat <<< 63 + magnitudeBits mantissa exponent
  | infinite negative => negative.toNat <<< 63 + infinityBits

end Binary64

end ExactLength
