import ExactLength.Length.Unit
import ExactLength.Operator
import ExactLength.Text.Digits

/-!
# The keypad

The keys that insert into the entry, with the spaces each takes away and adds, and the key that
deletes. Spaces keep expressions legible; a stroke is inserted without any, so that `3/8` stays a
fraction.
-/

namespace ExactLength

/-- A key that inserts. -/
inductive Key
  | openParen
  | closeParen
  | operator (o : Operator)
  | unit (u : LengthUnit)
  | digit (d : Fin 10)
  | point
  | space
  deriving DecidableEq, Repr

namespace Key

/-- What the key inserts, without the spaces around it. -/
def text : Key → Text
  | openParen => ['(']
  | closeParen => [')']
  | operator o => [o.symbol]
  | unit u => u.symbol
  | digit d => Digits.ofNat d
  | point => ['.']
  | space => [' ']

/-- The last character of a text that is not blank. -/
def lastSolid? (entry : Text) : Option Char := entry.reverse.find? (!isBlank ·)

/-- A parenthesis after a number or a closed parenthesis is set off by a space. -/
def needsGap (entry : Text) : Bool :=
  match lastSolid? entry with
  | some c => c.isDigit || c == ')'
  | none => false

/-- An entry without spaces at its end, followed by one space unless it is empty. -/
def gapAfter (entry : Text) : Text :=
  if entry.dropTrailingSpaces = [] then [] else entry.dropTrailingSpaces ++ [' ']

/-- The entry after the key was pressed (`insere`). -/
def insert (entry : Text) : Key → Text
  | closeParen => entry.dropTrailingSpaces ++ closeParen.text
  | unit u => entry.dropTrailingSpaces ++ (unit u).text
  | openParen => (if needsGap entry then entry ++ [' '] else entry) ++ openParen.text
  | operator .div => entry ++ (operator .div).text
  | operator o => gapAfter entry ++ (operator o).text ++ [' ']
  | digit d => entry ++ (digit d).text
  | point => entry ++ point.text
  | space => entry ++ space.text

/-- The words that are deleted as a whole. -/
def unitWords : List Text :=
  [['i', 'n', 'c', 'h', 'e', 's'], ['i', 'n', 'c', 'h'], ['m', 'm'], ['c', 'm'], ['i', 'n']]

/-- The entry without its last unit word, or else without its last character
(`efface_dernier_symbole`). Spaces at the end are taken away before and after. -/
def deleteLast (entry : Text) : Text :=
  match unitWords.findSome? (·.isSuffixOf? entry.dropTrailingSpaces) with
  | some rest => Text.dropTrailingSpaces rest
  | none => Text.dropTrailingSpaces entry.dropTrailingSpaces.dropLast

end Key

end ExactLength
