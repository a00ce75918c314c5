import ExactLength.Expr.Basic

/-!
# Printing expressions

The text of an expression with all its parentheses, so that it shows how the operators were grouped.
-/

namespace ExactLength.Expr

/-- A number in a tree: a negative number or a proper fraction stands in brackets, so that it
differs from a change of sign and from a division. -/
def literalText (r : Rat) : Text :=
  if r < 0 ∨ Fraction.isInteger r = false then '[' :: Fraction.text r ++ [']']
  else Fraction.text r

/-- The text of an expression, a pair of parentheses around each operator. -/
def text : Expr → Text
  | lit r => literalText r
  | neg e => '-' :: e.text
  | binary o a b => '(' :: a.text ++ [' ', o.symbol, ' '] ++ b.text ++ [')']

end ExactLength.Expr
