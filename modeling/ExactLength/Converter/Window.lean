import ExactLength.Converter.Basic
import ExactLength.Converter.Keypad

/-!
# The window

What the user does to the converter: typing, the buttons, the choice of a precision, Enter and
Escape. Each of these but typing draws the window once, and drawing hands the keyboard to the entry
first. Enter converts only when the keyboard was about to be handed over.

Results:
* `ofLabel?_label`: a button is found by its label.
* `run_append`: events go on from the state that earlier ones led to.
-/

namespace ExactLength

/-- A button of the window. -/
inductive Button
  | insert (key : Key)
  | delete
  | clearEntry
  | clearResults
  | clearAll
  | equals
  deriving DecidableEq, Repr

namespace Button

/-- The sign of space on its button. -/
def openBox : Char := '␣'

/-- What is written on a button. -/
def label : Button → Text
  | insert .space => [openBox]
  | insert key => key.text
  | delete => ['D', 'E', 'L']
  | clearEntry => ['C']
  | clearResults => ['C', 'L', 'R']
  | clearAll => ['A', 'C']
  | equals => ['=']

/-- All buttons of the window. -/
def all : List Button :=
  [clearEntry, clearResults, clearAll, insert .openParen, insert .closeParen,
    insert (.operator .add), insert (.operator .sub), insert (.operator .mul),
    insert (.operator .div), insert (.unit .millimetre), insert (.unit .centimetre),
    insert (.unit .metre), insert (.unit .inch), equals] ++
    (List.finRange 10).map (fun d => insert (.digit d)) ++
    [delete, insert .space, insert .point]

/-- The button with a given label. -/
def ofLabel? (label : Text) : Option Button := all.find? (·.label == label)

/-- A button is found by its label. -/
theorem ofLabel?_label (b : Button) : ofLabel? b.label = some b := by
  match b with
  | insert .openParen | insert .closeParen | insert .point | insert .space | delete | clearEntry
  | clearResults | clearAll | equals => decide +kernel
  | insert (.operator o) => cases o <;> decide +kernel
  | insert (.unit u) => cases u <;> decide +kernel
  | insert (.digit d) =>
    have all : ∀ d : Fin 10, ofLabel? (insert (.digit d)).label = some (insert (.digit d)) := by
      decide +kernel
    exact all d

end Button

/-- What the user does. -/
inductive Event
  /-- The entry becomes a given text. -/
  | type (text : Text)
  /-- The window is drawn and nothing happens. -/
  | idle
  /-- A button is pressed. -/
  | press (button : Button)
  /-- A precision is chosen. -/
  | choose (precision : Nat)
  | escape
  | enter
  deriving DecidableEq, Repr

namespace Converter

/-- Drawing the window hands the keyboard to the entry. -/
def draw (s : Converter) : Converter := { s with focused := false }

/-- The next drawing hands the keyboard to the entry. -/
def focus (s : Converter) : Converter := { s with focused := true }

/-- What a button does. -/
def press (s : Converter) : Button → Converter
  | .insert key => { s with entry := key.insert s.entry }
  | .delete => { s with entry := Key.deleteLast s.entry }
  | .clearEntry => s.clearEntry
  | .clearResults => s.clearResults
  | .clearAll => s.clearAll
  | .equals => s.convert

/-- A precision other than the present one is set, and the last length is shown anew. -/
def choose (s : Converter) (n : Nat) : Converter :=
  if n = s.precision then s else (s.setPrecision n).refresh

/-- The state after an event. -/
def step (s : Converter) : Event → Converter
  | .type text => { s with entry := text }
  | .idle => s.draw
  | .press button => (s.draw.press button).focus
  | .choose n => s.draw.choose n
  | .escape => s.clearEntry.draw
  | .enter => if s.focused then s.draw.convert.focus else s.draw

/-- The state after a history of events. -/
def run (events : List Event) : Converter := events.foldl step initial

theorem run_append (a b : List Event) : run (a ++ b) = b.foldl step (run a) :=
  List.foldl_append

/-! ## What the window shows -/

/-- The texts for the last length, or the remark that there is none. -/
def resultLabels (s : Converter) : List Text :=
  if s.hasResult then
    [.ofString "Millimètres :", s.readout.millimetres, .ofString "Pouces :", s.readout.inches,
      .ofString "Fraction :", s.readout.fraction, .ofString "EXACT :", s.readout.exact,
      s.readout.summary]
  else [.ofString "aucun résultat"]

/-- The texts of the open panel that shows the working. -/
def workingLabels (s : Converter) : List Text :=
  [.ofString "Normalisé :", s.working.expanded, .ofString "Jetons :", s.working.tokens,
    .ofString "Arbre :", s.working.tree]

/-- The headings of the entry and of the precision, and the three empty texts in the last row of the
keypad. -/
def headings : List Text :=
  [.ofString "Convertisseur Q-pur", .ofString "Longueur :", .ofString "Précision :", [], [], []]

/-- The texts in the window from top to bottom, those on buttons apart. -/
def labels (s : Converter) : List Text :=
  headings ++ (if s.error = [] then [] else [s.error]) ++ s.resultLabels ++ s.workingLabels

end Converter

end ExactLength
