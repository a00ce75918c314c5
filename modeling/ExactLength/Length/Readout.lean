import ExactLength.Length.Basic
import ExactLength.Length.InchFraction
import ExactLength.Number.FixedPlaces

/-!
# Readouts

The texts that show a length: rounded millimetres and inches, the inch fraction, the exact values,
and a summary in one line. Decimals are those of the nearest binary64 number.

Results:
* `readout_eq_error_iff`: only parts of size zero cannot be shown.
-/

namespace ExactLength

/-- The texts that show a length (`Affichage`). -/
structure Readout where
  millimetres : Text
  inches : Text
  fraction : Text
  exact : Text
  summary : Text
  deriving DecidableEq, Repr

/-- Nothing to show. -/
def Readout.empty : Readout := ⟨[], [], [], [], []⟩

/-- The decimal places of millimetres (`DECIMALES_MM`). -/
def millimetrePlaces : Nat := 2

/-- The decimal places of inches (`DECIMALES_POUCES`). -/
def inchPlaces : Nat := 5

namespace Length

/-- The millimetres in decimals. -/
def millimetreText (l : Length) : Text := (Binary64.ofRat l.millimetres).toFixed millimetrePlaces

/-- The inches in decimals. -/
def inchDecimalText (l : Length) : Text := (Binary64.ofRat l.inInches).toFixed inchPlaces

/-- The exact values in both units. -/
def exactText (l : Length) : Text :=
  Fraction.text l.millimetres ++ [' ', 'm', 'm', ' ', '=', ' '] ++ Fraction.text l.inInches ++ ['"']

/-- The summary of a length whose inch fraction is given. -/
def summaryText (l : Length) (fraction : Text) : Text :=
  ['=', ' '] ++ l.millimetreText ++ .ofString " mm   (pouce : " ++ l.inchDecimalText ++
    .ofString "\" ≈ " ++ fraction ++ ['"', ')']

/-- A length in one line, with its inches in parts of the given size (`resume`). -/
def summary (l : Length) (denominator : Nat) : Except LengthError Text :=
  (inchText l.inInches denominator).map l.summaryText

/-- The texts that show a length, with its inches in parts of the given size (`affichage`). -/
def readout (l : Length) (denominator : Nat) : Except LengthError Readout :=
  (inchText l.inInches denominator).map fun fraction =>
    { millimetres := l.millimetreText ++ [' ', 'm', 'm']
      inches := l.inchDecimalText ++ ['"']
      fraction := fraction ++ .ofString "\" (au 1/" ++ Digits.ofNat denominator ++ [')']
      exact := l.exactText
      summary := l.summaryText fraction }

/-- Only parts of size zero cannot be shown. -/
theorem readout_eq_error_iff {l : Length} {denominator : Nat} {e : LengthError} :
    l.readout denominator = .error e ↔ denominator = 0 ∧ e = .invalidDenominator 0 := by
  by_cases h : denominator = 0
  · subst h
    simp [readout, inchText, Except.map, eq_comm]
  · simp [readout, inchText, h, Except.map]

end Length

end ExactLength
