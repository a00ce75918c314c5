import ExactLength.Number.Ratio

/-!
# Expressions

The tree of an expression over exact numbers, and its value.

Results:
* `eval_neg_of_ok`, `eval_binary_of_ok`: the value from those of the operands.
* `eval_neg_of_error`, `eval_binary_of_left_error`, `eval_binary_of_right_error`: the first operand
  without a value decides the error.
-/

namespace ExactLength

/-- An expression: a number, a change of sign, or an operator between two expressions. -/
inductive Expr
  | lit (value : Rat)
  | neg (operand : Expr)
  | binary (operator : Operator) (left right : Expr)
  deriving DecidableEq, Repr

namespace Expr

/-- The exact value. The left operand is evaluated before the right one. -/
def eval : Expr → Except EvalError Rat
  | lit r => .ok r
  | neg e => do
    let v ← e.eval
    return -v
  | binary o a b => do
    let x ← a.eval
    let y ← b.eval
    o.apply x y

variable {a b e : Expr} {o : Operator} {x y : Rat} {err : EvalError}

theorem eval_neg_of_ok (h : e.eval = .ok x) : (neg e).eval = .ok (-x) := by
  rw [eval, h]
  rfl

theorem eval_neg_of_error (h : e.eval = .error err) : (neg e).eval = .error err := by
  rw [eval, h]
  rfl

theorem eval_binary_of_ok (ha : a.eval = .ok x) (hb : b.eval = .ok y) :
    (binary o a b).eval = o.apply x y := by
  rw [eval, ha, hb]
  rfl

theorem eval_binary_of_left_error (ha : a.eval = .error err) :
    (binary o a b).eval = .error err := by
  rw [eval, ha]
  rfl

theorem eval_binary_of_right_error (ha : a.eval = .ok x) (hb : b.eval = .error err) :
    (binary o a b).eval = .error err := by
  rw [eval, ha, hb]
  rfl

/-- An operator is applied when its left operand has a value, if the right one has. -/
theorem eval_binary_of_right (hb : b.eval = .ok y) :
    (binary o a b).eval = a.eval.bind fun x => o.apply x y := by
  rw [eval, hb]
  rfl

end Expr

end ExactLength
