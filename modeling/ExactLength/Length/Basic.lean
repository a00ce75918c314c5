import ExactLength.Evaluation
import ExactLength.Length.Error

/-!
# Lengths

A length is typed as a number, a mixed number or an expression, with a unit at its end. Letter case,
the style of the inch mark and the width of blanks do not count. Without a unit an expression is
taken in inches, and a bare number is refused.

Results:
* `millimetres_eq_inInches_mul`: both readings of a length agree.
* `ofText_of_split`: with a unit the number is worth what it is worth by itself.
-/

namespace ExactLength

/-- A length as typed: an exact number of a unit, and how the number was read (`Longueur`). -/
structure Length where
  value : Rat
  unit : LengthUnit
  working : Working
  deriving DecidableEq, Repr

/-- Millimetres in inches (`mm_en_pouces`). -/
def millimetresInInches (mm : Rat) : Rat := mm * LengthUnit.inchesPerMillimetre

namespace Length

/-- The length in millimetres. -/
def millimetres (l : Length) : Rat := l.value * l.unit.millimetres

/-- The number of inches, if the length was typed in inches. -/
def inches? (l : Length) : Option Rat := if l.unit.isMetric then none else some l.value

/-- The length in inches (`en_pouces`). -/
def inInches (l : Length) : Rat :=
  match l.inches? with
  | some inches => inches
  | none => millimetresInInches l.millimetres

/-- The inch mark for each of its typographic forms. -/
def plainMark (c : Char) : Char := if c = '″' ∨ c = '”' ∨ c = '“' then '"' else c

/-- A text in lower case, with plain inch marks and one space between words (`normalise_texte`). -/
def clean (text : Text) : Text := Text.collapse (text.trim.lowercase.map plainMark)

/-- A sign that makes an expression of a number (`ressemble_expression`). -/
def isExpressionSign (c : Char) : Bool := ['+', '-', '*', '/', '(', ')'].contains c

/-- The length of a number in a unit. -/
def measure (number : Text) (unit : LengthUnit) : Except LengthError Length :=
  match explain number with
  | .error e => .error (.calculation e)
  | .ok (value, working) => .ok ⟨value, unit, working⟩

/-- The length of a number that may have a unit. -/
def ofParts (number : Text) : Option LengthUnit → Except LengthError Length
  | some unit => if number = [] then .error (.missingNumber unit) else measure number unit
  | none => if number.any isExpressionSign then measure number .inch else .error .missingUnit

/-- The length that a text tells (`convertir`). -/
def ofText (text : Text) : Except LengthError Length :=
  if text.trim = [] then .error .empty
  else ofParts (LengthUnit.split (clean text)).1 (LengthUnit.split (clean text)).2

/-- Both readings of a length agree. -/
theorem millimetres_eq_inInches_mul (l : Length) :
    l.millimetres = l.inInches * LengthUnit.inch.millimetres := by
  match l with
  | ⟨v, .inch, w⟩ => rfl
  | ⟨v, .millimetre, w⟩ | ⟨v, .centimetre, w⟩ | ⟨v, .metre, w⟩ =>
    simp [inInches, inches?, LengthUnit.isMetric, millimetresInInches, Rat.mul_assoc,
      LengthUnit.inchesPerMillimetre_mul]

/-- With a unit the number is worth what it is worth by itself. -/
theorem ofText_of_split {text number : Text} {unit : LengthUnit} (ht : text.trim ≠ [])
    (hs : LengthUnit.split (clean text) = (number, some unit)) (hn : number ≠ []) :
    ofText text = measure number unit := by
  simp [ofText, ht, hs, ofParts, hn]

end Length

end ExactLength
