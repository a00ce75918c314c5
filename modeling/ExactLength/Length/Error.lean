import ExactLength.EvalError
import ExactLength.Length.Unit

/-!
# Length errors

The ways in which a text fails to be a length, or a length to be shown.

Results:
* `message_ne_nil`: every error has something to say.
-/

namespace ExactLength

/-- Why a text is no length, or a length cannot be shown (`ErreurMesure`). -/
inductive LengthError
  /-- Nothing but blanks. -/
  | empty
  /-- A unit without a number in front. -/
  | missingNumber (unit : LengthUnit)
  /-- A bare number; its unit is not guessed. -/
  | missingUnit
  /-- Inches cannot be shown in parts of this size. -/
  | invalidDenominator (denominator : Nat)
  /-- The number has no value. -/
  | calculation (error : EvalError)
  deriving DecidableEq, Repr

namespace LengthError

/-- What the user is told. -/
def message : LengthError → Text
  | empty => .ofString "Entrée vide"
  | missingNumber unit => .ofString "nombre manquant avant l’unité « " ++ unit.symbol ++ [' ', '»']
  | missingUnit =>
    .ofString ("Format non reconnu : ajoutez une unité mm/cm/m ou in/\"\n" ++
      "Exemples : 25mm, 2.5cm, 0.75m, 1\", 1 3/8\", 7/16in")
  | invalidDenominator denominator =>
    .ofString "le dénominateur d’affichage doit être positif (reçu " ++
      Digits.ofNat denominator ++ [')']
  | calculation error => error.message

theorem message_ne_nil (e : LengthError) : e.message ≠ [] := by
  match e with
  | empty | missingUnit => exact Text.ofString_ne_nil (by decide)
  | missingNumber _ | invalidDenominator _ => simp [message]
  | calculation error => exact error.message_ne_nil

end LengthError

end ExactLength
