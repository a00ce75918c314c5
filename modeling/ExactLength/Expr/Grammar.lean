import ExactLength.Expr.Parser

/-!
# The grammar of expressions

Which token lists stand for which trees, said without a parser. A derivation also tells how deep its
signs and parentheses nest and how many operators it has, the two quantities that the parser bounds.

Results:
* `ne_nil`: every derived list has a token.
* `operators_eq`: a derivation has as many operators as its tree has binary nodes.
-/

namespace ExactLength

/-- The number of binary nodes of a tree. -/
def Expr.operators : Expr → Nat
  | lit _ => 0
  | neg e => e.operators
  | binary _ a b => a.operators + b.operators + 1

/-- The three levels of the grammar. -/
inductive Level
  | factor
  | term
  | sum
  deriving DecidableEq, Repr

/-- `Derives level tokens nesting operators e`: at this level the tokens stand for `e`. The numbers
are those of the deepest nested token and of the binary operators. -/
inductive Derives : Level → List Token → Nat → Nat → Expr → Prop
  | number (r : Rat) : Derives .factor [.number r] 0 0 (.lit r)
  | plus {ts : List Token} {n k : Nat} {e : Expr} (h : Derives .factor ts n k e) :
    Derives .factor (.op .add :: ts) (n + 1) k e
  | minus {ts : List Token} {n k : Nat} {e : Expr} (h : Derives .factor ts n k e) :
    Derives .factor (.op .sub :: ts) (n + 1) k (.neg e)
  | paren {ts : List Token} {n k : Nat} {e : Expr} (h : Derives .sum ts n k e) :
    Derives .factor (.lparen :: ts ++ [.rparen]) (n + 1) k e
  | term {ts : List Token} {n k : Nat} {e : Expr} (h : Derives .factor ts n k e) :
    Derives .term ts n k e
  | product {ts us : List Token} {n m k l : Nat} {a b : Expr} {o : Operator}
    (ha : Derives .term ts n k a) (ho : o.isProduct = true) (hb : Derives .factor us m l b) :
    Derives .term (ts ++ .op o :: us) (max n m) (k + l + 1) (.binary o a b)
  | sum {ts : List Token} {n k : Nat} {e : Expr} (h : Derives .term ts n k e) :
    Derives .sum ts n k e
  | addition {ts us : List Token} {n m k l : Nat} {a b : Expr} {o : Operator}
    (ha : Derives .sum ts n k a) (ho : o.isProduct = false) (hb : Derives .term us m l b) :
    Derives .sum (ts ++ .op o :: us) (max n m) (k + l + 1) (.binary o a b)

namespace Derives

theorem ne_nil {level : Level} {ts : List Token} {n k : Nat} {e : Expr}
    (h : Derives level ts n k e) : ts ≠ [] := by
  induction h with
  | number r => simp
  | plus _ _ => simp
  | minus _ _ => simp
  | paren _ _ => simp
  | term _ ih => exact ih
  | product _ _ _ _ _ => simp
  | sum _ ih => exact ih
  | addition _ _ _ _ _ => simp

/-- A derivation has as many operators as its tree has binary nodes. -/
theorem operators_eq {level : Level} {ts : List Token} {n k : Nat} {e : Expr}
    (h : Derives level ts n k e) : k = e.operators := by
  induction h with
  | number r => rfl
  | plus _ ih => exact ih
  | minus _ ih => exact ih
  | paren _ ih => exact ih
  | term _ ih => exact ih
  | product _ _ _ iha ihb => rw [Expr.operators, ← iha, ← ihb]
  | sum _ ih => exact ih
  | addition _ _ _ iha ihb => rw [Expr.operators, ← iha, ← ihb]

end Derives

end ExactLength
