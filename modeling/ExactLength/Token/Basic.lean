import ExactLength.Number.Fraction
import ExactLength.Operator

/-!
# Tokens

The tokens of an expression, their places in the text, and their listing for the reader.

Results:
* `text_ofSymbol?`: a sign token is written as the character it is read from.
-/

namespace ExactLength

/-- A token: a number, an operator or a parenthesis (`Tok`). -/
inductive Token
  | number (value : Rat)
  | op (operator : Operator)
  | lparen
  | rparen
  deriving DecidableEq, Repr

/-- A token with the position of its first character (`Jeton`). -/
structure Lexeme where
  token : Token
  pos : Nat
  deriving DecidableEq, Repr

namespace Token

/-- The token that a single character stands for. -/
def ofSymbol? : Char → Option Token
  | '(' => some lparen
  | ')' => some rparen
  | c => (Operator.ofSymbol? c).map op

/-- A token by itself. -/
def text : Token → Text
  | number r => Fraction.text r
  | op o => [o.symbol]
  | lparen => ['(']
  | rparen => [')']

/-- A token in a listing: a proper fraction stands in brackets, so that it differs from a
division. -/
def listed : Token → Text
  | number r => if Fraction.isInteger r then Fraction.text r else '[' :: Fraction.text r ++ [']']
  | t => t.text

/-- Tokens in order with one space between neighbours (`format_tokens`). -/
def listing (tokens : List Token) : Text := [' '].intercalate (tokens.map listed)

theorem text_ofSymbol? {c : Char} {t : Token} (h : ofSymbol? c = some t) : t.text = [c] := by
  unfold ofSymbol? at h
  split at h
  · cases h; rfl
  · cases h; rfl
  · obtain ⟨o, ho, rfl⟩ := Option.map_eq_some_iff.1 h
    simp [text, Operator.symbol_of_ofSymbol? ho]

end Token

end ExactLength
