import ExactLength.Expr.Basic
import ExactLength.Proofs.Number.LowestTerms

/-!
# Exact evaluation

A tree is worth what the arithmetic of the rationals makes of it. Numbers are brought to lowest
terms after every operator, and that changes nothing: the value is the quotient of the cross
products of the whole tree, brought to lowest terms once at the end.

The only trees without a value are those in which something is divided by zero, in whatever place,
also where the result is multiplied by zero afterwards.

Results:
* `Equiv.plug`: what stands in a place of a tree counts by its worth only.
* `dividesByZero_binary`: how a division by zero comes up from the operands.
* `eval_cases`, `eval_eq_error`: a tree has its value, or fails with a division by zero.
* `value_eq_cross`: the value from the cross products.
* `eval_exact`: all of these together.
-/

namespace ExactLength

/-- What an operator makes of two quotients of integers by cross products, with nothing
cancelled. -/
def Operator.cross : Operator → Int × Int → Int × Int → Int × Int
  | add, (n, d), (m, e) => (n * e + m * d, d * e)
  | sub, (n, d), (m, e) => (n * e - m * d, d * e)
  | mul, (n, d), (m, e) => (n * m, d * e)
  | div, (n, d), (m, e) => (n * e, d * m)

namespace Expr

/-! ## Values -/

/-- The value of a tree over the rationals; it says nothing where something is divided by zero. -/
def value : Expr → Rat
  | lit r => r
  | neg e => -e.value
  | binary o a b => o.result a.value b.value

/-- The value of a tree as a quotient of integers, with nothing cancelled. -/
def cross : Expr → Int × Int
  | lit r => (r.num, r.den)
  | neg e => (-e.cross.1, e.cross.2)
  | binary o a b => o.cross a.cross b.cross

/-! ## Places in a tree -/

/-- A tree with one place left open. -/
inductive Context
  | here
  | neg (c : Context)
  | left (o : Operator) (c : Context) (b : Expr)
  | right (o : Operator) (a : Expr) (c : Context)
  deriving DecidableEq, Repr

/-- The tree with a subtree in its open place. -/
def Context.plug : Context → Expr → Expr
  | .here, e => e
  | .neg c, e => .neg (c.plug e)
  | .left o c b, e => .binary o (c.plug e) b
  | .right o a c, e => .binary o a (c.plug e)

theorem Context.sizeOf_le_plug (c : Context) (e : Expr) : sizeOf e ≤ sizeOf (c.plug e) := by
  induction c with
  | here => exact Nat.le_refl _
  | neg c ih =>
    rw [plug, Expr.neg.sizeOf_spec]
    omega
  | left o c b ih =>
    rw [plug, Expr.binary.sizeOf_spec]
    omega
  | right o a c ih =>
    rw [plug, Expr.binary.sizeOf_spec]
    omega

/-! ## Trees of the same worth -/

/-- The two trees have the same value, or neither has one. -/
def Equiv (e e' : Expr) : Prop := e.eval = e'.eval

theorem Equiv.refl (e : Expr) : e.Equiv e := Eq.refl e.eval

theorem Equiv.trans {a b c : Expr} (h : a.Equiv b) (h' : b.Equiv c) : a.Equiv c := Eq.trans h h'

theorem Equiv.neg {e e' : Expr} (h : e.Equiv e') : (neg e).Equiv (neg e') := by
  rw [Equiv, eval, eval, h]

theorem Equiv.binary {a a' b b' : Expr} (o : Operator) (ha : a.Equiv a') (hb : b.Equiv b') :
    (binary o a b).Equiv (binary o a' b') := by
  rw [Equiv, eval, eval, ha, hb]

/-- **Substitution.** What stands in a place of a tree counts by its worth only. -/
theorem Equiv.plug {s t : Expr} (h : s.Equiv t) (c : Context) : (c.plug s).Equiv (c.plug t) := by
  induction c with
  | here => exact h
  | neg c ih => exact ih.neg
  | left o c b ih => exact ih.binary o (.refl b)
  | right o a c ih => exact (Equiv.refl a).binary o ih

/-! ## Divisions by zero -/

/-- In some place of the tree stands a division whose operands are free of this, and whose divisor
is worth zero. -/
def DividesByZero (e : Expr) : Prop :=
  ∃ (c : Context) (a b : Expr), ∃ _h : c.plug (binary .div a b) = e,
    ¬ a.DividesByZero ∧ ¬ b.DividesByZero ∧ b.value = 0
termination_by sizeOf e
decreasing_by
  all_goals
    have hle := c.sizeOf_le_plug (binary .div a b)
    rw [_h, binary.sizeOf_spec] at hle
    omega

theorem dividesByZero_iff {e : Expr} :
    e.DividesByZero ↔ ∃ (c : Context) (a b : Expr), c.plug (binary .div a b) = e ∧
      ¬ a.DividesByZero ∧ ¬ b.DividesByZero ∧ b.value = 0 := by
  rw [DividesByZero]
  simp only [exists_prop]

theorem not_dividesByZero_lit (r : Rat) : ¬ (lit r).DividesByZero := by
  rw [dividesByZero_iff]
  rintro ⟨c, a, b, h, -⟩
  cases c <;> cases h

theorem dividesByZero_neg {e : Expr} : (neg e).DividesByZero ↔ e.DividesByZero := by
  constructor
  · intro h
    obtain ⟨c, a, b, hplug, hfree⟩ := dividesByZero_iff.mp h
    cases c with
    | neg c =>
      cases hplug
      exact dividesByZero_iff.mpr ⟨c, a, b, rfl, hfree⟩
    | here | left | right => cases hplug
  · intro h
    obtain ⟨c, a, b, rfl, hfree⟩ := dividesByZero_iff.mp h
    exact dividesByZero_iff.mpr ⟨.neg c, a, b, rfl, hfree⟩

/-- **Operands.** A division by zero in an operand is one in the whole, whatever the operator; a
division is one itself when its divisor is worth zero. -/
theorem dividesByZero_binary {o : Operator} {a b : Expr} :
    (binary o a b).DividesByZero ↔
      a.DividesByZero ∨ b.DividesByZero ∨ (o = .div ∧ b.value = 0) := by
  constructor
  · intro h
    obtain ⟨c, x, y, hplug, hfree⟩ := dividesByZero_iff.mp h
    cases c with
    | here =>
      cases hplug
      exact .inr (.inr ⟨rfl, hfree.2.2⟩)
    | neg c => cases hplug
    | left o c b =>
      cases hplug
      exact .inl (dividesByZero_iff.mpr ⟨c, x, y, rfl, hfree⟩)
    | right o a c =>
      cases hplug
      exact .inr (.inl (dividesByZero_iff.mpr ⟨c, x, y, rfl, hfree⟩))
  · have hleft (h : a.DividesByZero) : (binary o a b).DividesByZero := by
      obtain ⟨c, x, y, rfl, hfree⟩ := dividesByZero_iff.mp h
      exact dividesByZero_iff.mpr ⟨.left o c b, x, y, rfl, hfree⟩
    have hright (h : b.DividesByZero) : (binary o a b).DividesByZero := by
      obtain ⟨c, x, y, rfl, hfree⟩ := dividesByZero_iff.mp h
      exact dividesByZero_iff.mpr ⟨.right o a c, x, y, rfl, hfree⟩
    rintro (h | h | ⟨rfl, hzero⟩)
    · exact hleft h
    · exact hright h
    · by_cases ha : a.DividesByZero
      · exact hleft ha
      · by_cases hb : b.DividesByZero
        · exact hright hb
        · exact dividesByZero_iff.mpr ⟨.here, a, b, rfl, ha, hb, hzero⟩

/-! ## Evaluation -/

/-- A tree has its value, or divides by zero. -/
theorem eval_cases (e : Expr) :
    e.DividesByZero ∧ e.eval = .error .divisionByZero ∨
      ¬ e.DividesByZero ∧ e.eval = .ok e.value := by
  induction e with
  | lit r => exact .inr ⟨not_dividesByZero_lit r, rfl⟩
  | neg e ih =>
    rw [dividesByZero_neg, value]
    obtain ⟨hzero, heval⟩ | ⟨hfree, heval⟩ := ih
    · exact .inl ⟨hzero, eval_neg_of_error heval⟩
    · exact .inr ⟨hfree, eval_neg_of_ok heval⟩
  | binary o a b iha ihb =>
    rw [dividesByZero_binary, value]
    obtain ⟨hzero, ha⟩ | ⟨hfree, ha⟩ := iha
    · exact .inl ⟨.inl hzero, eval_binary_of_left_error ha⟩
    · obtain ⟨hzero', hb⟩ | ⟨hfree', hb⟩ := ihb
      · exact .inl ⟨.inr (.inl hzero'), eval_binary_of_right_error ha hb⟩
      · rw [eval_binary_of_ok ha hb, o.apply_eq]
        by_cases hdiv : o = .div ∧ b.value = 0
        · rw [if_pos hdiv]
          exact .inl ⟨.inr (.inr hdiv), rfl⟩
        · rw [if_neg hdiv]
          exact .inr ⟨by simp [hfree, hfree', hdiv], rfl⟩

/-- Only a zero divisor keeps a tree from having a value. -/
theorem eval_eq_error {e : Expr} {err : EvalError} (h : e.eval = .error err) :
    err = .divisionByZero := by
  obtain ⟨-, heval⟩ | ⟨-, heval⟩ := e.eval_cases
  · rw [heval] at h
    exact (Except.error.inj h).symm
  · rw [heval] at h
    cases h

/-- The value is the quotient of the cross products. -/
theorem value_eq_cross {e : Expr} (h : ¬ e.DividesByZero) :
    e.cross.2 ≠ 0 ∧ e.value = Rat.divInt e.cross.1 e.cross.2 := by
  induction e with
  | lit r => exact ⟨Int.natCast_ne_zero.mpr r.den_nz, (Rat.num_divInt_den r).symm⟩
  | neg e ih =>
    obtain ⟨hden, hvalue⟩ := ih (mt dividesByZero_neg.mpr h)
    exact ⟨hden, by rw [value, hvalue, Rat.neg_divInt, cross]⟩
  | binary o a b iha ihb =>
    rw [dividesByZero_binary, not_or, not_or] at h
    obtain ⟨ha, hb, hdiv⟩ := h
    obtain ⟨hdena, hvaluea⟩ := iha ha
    obtain ⟨hdenb, hvalueb⟩ := ihb hb
    rw [cross, value, hvaluea, hvalueb]
    cases o with
    | add => exact ⟨Int.mul_ne_zero hdena hdenb, Rat.divInt_add_divInt _ _ hdena hdenb⟩
    | sub => exact ⟨Int.mul_ne_zero hdena hdenb, Rat.divInt_sub_divInt _ _ hdena hdenb⟩
    | mul => exact ⟨Int.mul_ne_zero hdena hdenb, Rat.divInt_mul_divInt _ _⟩
    | div =>
      -- the divisor is not zero, so neither is the denominator of the quotient
      have hnum : b.cross.1 ≠ 0 := by
        intro hzero
        refine hdiv ⟨rfl, ?_⟩
        rw [hvalueb, hzero, Rat.zero_divInt]
      refine ⟨Int.mul_ne_zero hdena hnum, ?_⟩
      rw [Operator.result, Rat.div_def, Rat.inv_divInt]
      exact Rat.divInt_mul_divInt _ _

/-- **Exactness.** A tree fails exactly when something in it is divided by zero, and otherwise has
the value of its arithmetic over the rationals, which is the quotient of its cross products in
lowest terms. There is no other error, and a subtree counts by its own result only. -/
theorem eval_exact (e : Expr) :
    (e.eval = .error .divisionByZero ↔ e.DividesByZero) ∧
    (¬ e.DividesByZero → e.eval = .ok e.value ∧ e.cross.2 ≠ 0 ∧
      Fraction.IsQuotient e.cross.1 e.cross.2 e.value) ∧
    (∀ err, e.eval = .error err → err = .divisionByZero) ∧
    ∀ (c : Context) (s t : Expr), c.plug s = e → t.eval = s.eval → (c.plug t).eval = e.eval := by
  refine ⟨?_, fun hfree => ?_, fun err => eval_eq_error, fun c s t hplug h => ?_⟩
  · obtain ⟨hzero, heval⟩ | ⟨hfree, heval⟩ := e.eval_cases
    · exact ⟨fun _ => hzero, fun _ => heval⟩
    · rw [heval]
      exact ⟨nofun, fun hzero => absurd hzero hfree⟩
  · obtain ⟨hzero, -⟩ | ⟨-, heval⟩ := e.eval_cases
    · exact absurd hzero hfree
    · obtain ⟨hden, hvalue⟩ := value_eq_cross hfree
      exact ⟨heval, hden, (Fraction.isQuotient_iff hden).mpr hvalue⟩
  · rw [← hplug]
    exact Equiv.plug h c

/-- The tree of `0 * (1 / (2 - 2))`. -/
def zeroTimesQuotient : Expr :=
  binary .mul (lit 0) (binary .div (lit 1) (binary .sub (lit 2) (lit 2)))

/-- The tree of `1/2 / (1/3 - 1)`. -/
def halfOverDifference : Expr :=
  binary .div (lit (1 / 2)) (binary .sub (lit (1 / 3)) (lit 1))

/-- A factor of zero does not make up for a division by zero. Where there is none, the cross
products are `3` and `-4`. -/
theorem eval_exact_quotients :
    zeroTimesQuotient.DividesByZero ∧ zeroTimesQuotient.eval = .error .divisionByZero ∧
    ¬ halfOverDifference.DividesByZero ∧ halfOverDifference.eval = .ok (-3 / 4) ∧
    halfOverDifference.cross = (3, -4) := by
  have hzero : zeroTimesQuotient.DividesByZero := by
    have hdivisor : (binary .sub (lit 2) (lit 2)).value = 0 := by decide +kernel
    exact dividesByZero_binary.mpr (.inr (.inl (dividesByZero_binary.mpr (.inr (.inr
      ⟨rfl, hdivisor⟩)))))
  have hdifference : ¬ (binary .sub (lit (1 / 3)) (lit 1)).DividesByZero := by
    rw [dividesByZero_binary]
    rintro (h | h | ⟨h, -⟩)
    · exact not_dividesByZero_lit _ h
    · exact not_dividesByZero_lit _ h
    · cases h
  have hfree : ¬ halfOverDifference.DividesByZero := by
    have hdivisor : (binary .sub (lit (1 / 3)) (lit 1)).value ≠ 0 := by decide +kernel
    rw [halfOverDifference, dividesByZero_binary]
    rintro (h | h | ⟨-, h⟩)
    · exact not_dividesByZero_lit _ h
    · exact hdifference h
    · exact hdivisor h
  have hvalue : halfOverDifference.value = -3 / 4 := by decide +kernel
  have heval := ((eval_exact halfOverDifference).2.1 hfree).1
  rw [hvalue] at heval
  exact ⟨hzero, (eval_exact zeroTimesQuotient).1.mpr hzero, hfree, heval, by decide +kernel⟩

end Expr

end ExactLength
