import ExactLength.Token.Basic

/-!
# Evaluation errors

The ways in which a text fails to have a value, each with what its message needs. A position counts
characters. It is taken in the typed text for a refused character, and in the text with its mixed
numbers written out for all others.

Results:
* `message_ne_nil`: every error has something to say.
-/

namespace ExactLength

/-- Why a text has no value (`CalcError`). -/
inductive EvalError
  /-- A denominator or a divisor is zero. -/
  | divisionByZero
  /-- A character that no expression contains, or not at this place. -/
  | invalidCharacter (ch : Char) (pos : Nat)
  /-- A value was expected; `found` is absent at the end of the text. -/
  | malformed (found : Option Token) (pos : Nat)
  /-- The parenthesis opened at `pos` is never closed. -/
  | unmatchedParenthesis (pos : Nat)
  /-- A token after the end of an expression. -/
  | trailingInput (found : Token) (pos : Nat)
  /-- The expression exceeds a bound of the parser. -/
  | tooDeep (pos : Nat)
  deriving DecidableEq, Repr

namespace EvalError

/-- The mention of a position at the end of a message. -/
def atPosition (pos : Nat) : Text := .ofString " (position " ++ Digits.ofNat pos ++ [')']

/-- What the user is told. -/
def message : EvalError → Text
  | divisionByZero => .ofString "division par zéro"
  | invalidCharacter ch pos =>
    .ofString "caractère inattendu: " ++ ['\'', ch, '\''] ++ atPosition pos
  | malformed (some found) pos =>
    .ofString "expression invalide: valeur attendue, trouvé '" ++ found.text ++ ['\''] ++
      atPosition pos
  | malformed none _ => .ofString "expression invalide: valeur attendue en fin d’entrée"
  | unmatchedParenthesis pos =>
    .ofString "parenthèse ouverte en position " ++ Digits.ofNat pos ++ .ofString " jamais fermée"
  | trailingInput found pos =>
    .ofString "entrée en trop après l’expression: '" ++ found.text ++ ['\''] ++ atPosition pos
  | tooDeep pos => .ofString "expression trop profonde" ++ atPosition pos

theorem message_ne_nil (e : EvalError) : e.message ≠ [] := by
  match e with
  | divisionByZero | malformed none _ => exact Text.ofString_ne_nil (by decide)
  | invalidCharacter .. | malformed (some _) _ | unmatchedParenthesis _ | trailingInput .. |
    tooDeep _ => simp [message, atPosition, Digits.ofNat_ne_nil]

end EvalError

end ExactLength
