import ExactLength.Expr.Basic

/-!
# Parsing

The tokens of an expression are read by recursive descent:

* a sum is terms joined by `+` and `-`;
* a term is factors joined by `*` and `/`;
* a factor is a number, a sign before a factor, or a sum in parentheses.

Operators group to the left. Two bounds keep the trees low: signs and parentheses nest at most
`maxNesting` deep, and an expression has at most `maxOperators` binary operators.

Results:
* `nested_nesting`: a level entered for a sign or a parenthesis is left again, on errors too.
-/

namespace ExactLength

/-- How deep signs and parentheses may nest (`PROFONDEUR_MAX`). -/
def maxNesting : Nat := 256

/-- How many binary operators an expression may have (`OPERATEURS_MAX`). -/
def maxOperators : Nat := 1024

/-- The state of a parse (`Parseur`). -/
structure Cursor where
  /-- The lexemes not yet taken. -/
  rest : List Lexeme
  /-- The signs and parentheses around the next lexeme. -/
  nesting : Nat
  /-- The binary operators taken so far. -/
  operators : Nat
  deriving DecidableEq, Repr

/-- A parser moves the cursor, also when it fails. -/
abbrev Parser := EStateM EvalError Cursor

namespace Parser

/-- Takes the next lexeme, if there is one (`suivant`). -/
def next? : Parser (Option Lexeme) := fun s =>
  match s.rest with
  | [] => .ok none s
  | lexeme :: rest => .ok (some lexeme) { s with rest }

/-- Takes the next lexeme and counts it if it is an operator of the given kind
(`compte_operateur`). -/
def operator? (product : Bool) : Parser (Option Operator) := fun s =>
  match s.rest with
  | ⟨.op o, pos⟩ :: rest =>
    if o.isProduct = product then
      if s.operators < maxOperators then
        .ok (some o) { s with rest, operators := s.operators + 1 }
      else .error (.tooDeep pos) s
    else .ok none s
  | _ => .ok none s

/-- Runs a parser one level deeper (`entre`) and returns to the level, whether it succeeds or
not. -/
def nested {α : Type} (pos : Nat) (inner : Parser α) : Parser α := fun s =>
  if s.nesting < maxNesting then
    match inner { s with nesting := s.nesting + 1 } with
    | .ok a t => .ok a { t with nesting := t.nesting - 1 }
    | .error e t => .error e { t with nesting := t.nesting - 1 }
  else .error (.tooDeep pos) s

/-- Takes the parenthesis that closes the one at position `opened`. -/
def closing (opened : Nat) : Parser Unit := do
  match ← next? with
  | some ⟨.rparen, _⟩ => return
  | some found => throw (.trailingInput found.token found.pos)
  | none => throw (.unmatchedParenthesis opened)

/-- Joins what was read to the operands that follow, from left to right, as long as an operator of
the given kind follows; `steps` bounds the number of operators. -/
def chainFrom (product : Bool) (operand : Parser Expr) : Nat → Expr → Parser Expr
  | 0, left => return left
  | steps + 1, left => do
    match ← operator? product with
    | none => return left
    | some o =>
      let right ← operand
      chainFrom product operand steps (.binary o left right)

/-- Operands joined by operators of the given kind. No chain has more operators than there are
lexemes left. -/
def chain (product : Bool) (operand : Parser Expr) : Parser Expr := do
  let left ← operand
  let s ← get
  chainFrom product operand s.rest.length left

/-- Terms joined by `+` and `-`, a term being factors joined by `*` and `/`. -/
def sumOf (factor : Parser Expr) : Parser Expr := chain false (chain true factor)

/-- A factor with at most `depth` factors around one another. The text ends at `stop`. -/
def factorWithin (stop : Nat) : Nat → Parser Expr
  | 0 => throw (.tooDeep stop)
  | depth + 1 => do
    match ← next? with
    | none => throw (.malformed none stop)
    | some ⟨token, pos⟩ =>
      match token with
      | .number r => return .lit r
      | .op .add => nested pos (factorWithin stop depth)
      | .op .sub => do
        let e ← nested pos (factorWithin stop depth)
        return .neg e
      | .lparen => nested pos do
        let e ← sumOf (factorWithin stop depth)
        closing pos
        return e
      | found => throw (.malformed (some found) pos)

/-- A number, a sign before a factor, or a sum in parentheses (`factor`). Nesting ends before the
depth does. -/
def factor (stop : Nat) : Parser Expr := factorWithin stop (maxNesting + 1)

/-- Factors joined by `*` and `/` (`term`). -/
def term (stop : Nat) : Parser Expr := chain true (factor stop)

/-- Terms joined by `+` and `-` (`expr`). -/
def sum (stop : Nat) : Parser Expr := sumOf (factor stop)

/-- The cursor where a parser stops, with a result or with an error. -/
def stopsAt {α : Type} (p : Parser α) (s : Cursor) : Cursor :=
  match p s with
  | .ok _ t => t
  | .error _ t => t

/-- A level entered for a sign or a parenthesis is left again, on errors too. -/
theorem nested_nesting {α : Type} {pos : Nat} {inner : Parser α}
    (h : ∀ s, (stopsAt inner s).nesting = s.nesting) (s : Cursor) :
    (stopsAt (nested pos inner) s).nesting = s.nesting := by
  have hs := h { s with nesting := s.nesting + 1 }
  simp only [stopsAt, nested] at hs ⊢
  by_cases hn : s.nesting < maxNesting
  · rw [if_pos hn]
    cases hi : inner { s with nesting := s.nesting + 1 } <;> rw [hi] at hs <;>
      simp only at hs ⊢ <;> omega
  · rw [if_neg hn]

end Parser

namespace Expr

/-- The expression that consists of all the lexemes of a text that ends at `stop` (`parse`). -/
def parse (lexemes : List Lexeme) (stop : Nat) : Except EvalError Expr :=
  match Parser.sum stop ⟨lexemes, 0, 0⟩ with
  | .error e _ => .error e
  | .ok e s =>
    match s.rest with
    | [] => .ok e
    | found :: _ => .error (.trailingInput found.token found.pos)

end Expr

end ExactLength
