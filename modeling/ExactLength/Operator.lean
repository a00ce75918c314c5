/-!
# Operators

The four binary operators, the sign each is written with, and how tightly it binds.

Results:
* `ofSymbol?_symbol`: an operator is read back from its sign.
* `symbol_of_ofSymbol?`: no other sign is read as an operator.
-/

namespace ExactLength

/-- A binary operator. -/
inductive Operator
  | add
  | sub
  | mul
  | div
  deriving DecidableEq, Repr

namespace Operator

/-- The sign an operator is written with. -/
def symbol : Operator → Char
  | add => '+'
  | sub => '-'
  | mul => '*'
  | div => '/'

/-- The operator with a given sign. -/
def ofSymbol? : Char → Option Operator
  | '+' => some add
  | '-' => some sub
  | '*' => some mul
  | '/' => some div
  | _ => none

/-- The product operators bind more tightly than the sum operators. -/
def isProduct : Operator → Bool
  | add | sub => false
  | mul | div => true

theorem ofSymbol?_symbol (o : Operator) : ofSymbol? o.symbol = some o := by
  cases o <;> rfl

/-- No other sign is read as an operator. -/
theorem symbol_of_ofSymbol? {c : Char} {o : Operator} (h : ofSymbol? c = some o) :
    o.symbol = c := by
  unfold ofSymbol? at h
  split at h <;> cases h <;> rfl

end Operator

end ExactLength
