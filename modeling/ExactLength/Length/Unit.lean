import ExactLength.Text.Lowercase

/-!
# Units of length

The four units a length can be typed in, their exact size in millimetres, and the words at the end
of a text that name them. An inch is 25.4 mm.

Results:
* `inchesPerMillimetre_mul`: the factors between inch and millimetre are inverse.
-/

namespace ExactLength

/-- A unit of length (`Unite`). -/
inductive LengthUnit
  | millimetre
  | centimetre
  | metre
  | inch
  deriving DecidableEq, Repr

namespace LengthUnit

/-- The size of the unit in millimetres (`vers_mm`). -/
def millimetres : LengthUnit → Rat
  | millimetre => 1
  | centimetre => 10
  | metre => 1000
  | inch => 127 / 5

/-- How the unit is named in answers (`symbole`). -/
def symbol : LengthUnit → Text
  | millimetre => ['m', 'm']
  | centimetre => ['c', 'm']
  | metre => ['m']
  | inch => ['"']

/-- Every unit but the inch is metric (`est_metrique`). -/
def isMetric : LengthUnit → Bool
  | inch => false
  | _ => true

/-- The part of an inch that a millimetre is (`pouce_par_mm`). -/
def inchesPerMillimetre : Rat := 5 / 127

/-- The suffixes that name a unit, each before those it ends with (`SUFFIXES`). -/
def suffixes : List (Text × LengthUnit) :=
  [(['i', 'n', 'c', 'h', 'e', 's'], inch), (['i', 'n', 'c', 'h'], inch),
    (['m', 'm'], millimetre), (['c', 'm'], centimetre), (['i', 'n'], inch), (['m'], metre),
    (['"'], inch)]

/-- Splits a suffix off a text, and the blanks in front of it. -/
def detach? (text : Text) (suffix : Text × LengthUnit) : Option (Text × LengthUnit) :=
  (suffix.1.isSuffixOf? text).map fun number => (Text.trimEnd number, suffix.2)

/-- Splits the first suffix of the table that ends a text off it (`detache_unite`). -/
def split (text : Text) : Text × Option LengthUnit :=
  match suffixes.findSome? (detach? text.trim) with
  | some (number, unit) => (number, some unit)
  | none => (text.trim, none)

theorem inchesPerMillimetre_mul : inchesPerMillimetre * inch.millimetres = 1 := by
  decide +kernel

end LengthUnit

end ExactLength
