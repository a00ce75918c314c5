import ExactLength.Proofs.Expr.Descent

/-!
# Positions

The positions of tokens have no part in how they are parsed. They only say where an error stands, so
texts with the same tokens have the same tree, or fail in the same way at their own positions.

Results:
* `exists_of_unplacedResult_eq`: results that differ only in positions.
* `step_unplaced`, `run_unplaced`: reading commutes with taking the positions away.
* `parse_unplaced`: the parser does the same, whatever the positions are.
-/

namespace ExactLength

/-- The error as it is reported at the start of a text. -/
def EvalError.unplaced : EvalError → EvalError
  | divisionByZero => divisionByZero
  | invalidCharacter ch _ => invalidCharacter ch 0
  | malformed found _ => malformed found 0
  | unmatchedParenthesis _ => unmatchedParenthesis 0
  | trailingInput found _ => trailingInput found 0
  | tooDeep _ => tooDeep 0

/-- Errors of one kind about the same character or token, at any two positions. -/
def EvalError.Alike (e e' : EvalError) : Prop := e.unplaced = e'.unplaced

/-- The token at the start of a text. -/
def Lexeme.unplaced (l : Lexeme) : Lexeme := ⟨l.token, 0⟩

/-- The parenthesis at the start of a text. -/
def Opened.unplaced (p : Opened) : Opened := ⟨0, p.slot⟩

/-- The reading with its parentheses at the start of a text. -/
def Reading.unplaced : Reading → Reading
  | wanting opened slot k => wanting (opened.map Opened.unplaced) slot k
  | holding opened sum term k => holding (opened.map Opened.unplaced) sum term k

/-- A result with every position taken away. -/
def unplacedResult {α β : Type} (f : α → β) : Except EvalError α → Except EvalError β
  | .ok a => .ok (f a)
  | .error e => .error e.unplaced

theorem exists_of_shown_eq {ε δ α β : Type} {f : α → β} {g : ε → δ} {x y : Except ε α}
    (h : (x.map f).mapError g = (y.map f).mapError g) :
    (∃ a b, x = .ok a ∧ y = .ok b ∧ f a = f b) ∨
      ∃ e e', x = .error e ∧ y = .error e' ∧ g e = g e' := by
  cases x with
  | error e =>
    cases y with
    | error e' => exact .inr ⟨e, e', rfl, rfl, Except.error.inj h⟩
    | ok b => cases h
  | ok a =>
    cases y with
    | error e' => cases h
    | ok b => exact .inl ⟨a, b, rfl, rfl, Except.ok.inj h⟩

theorem exists_of_unplacedResult_eq {α β : Type} {f : α → β} {x y : Except EvalError α}
    (h : unplacedResult f x = unplacedResult f y) :
    (∃ a b, x = .ok a ∧ y = .ok b ∧ f a = f b) ∨
      ∃ e e', x = .error e ∧ y = .error e' ∧ e.Alike e' := by
  have hshown (r : Except EvalError α) :
      unplacedResult f r = (r.map f).mapError EvalError.unplaced := by
    cases r <;> rfl
  rw [hshown, hshown] at h
  exact exists_of_shown_eq h

namespace Reading

variable (limits : Limits)

/-! ## Reading -/

theorem nesting_unplaced (opened : List Opened) (slot : Slot) :
    nesting (opened.map Opened.unplaced) slot = nesting opened slot := by
  rw [nesting, nesting, List.map_map]
  rfl

/-- **One step.** A token is taken, or refused, for what it is and not for where it stands. -/
theorem step_unplaced (r : Reading) (l : Lexeme) :
    step limits r.unplaced l.unplaced = unplacedResult unplaced (step limits r l) := by
  obtain ⟨token, pos⟩ := l
  cases r with
  | wanting opened slot k =>
    have hnesting := nesting_unplaced opened slot
    cases token with
    | number r => rfl
    | rparen => rfl
    | lparen =>
      simp only [step, unplaced, Lexeme.unplaced, hnesting]
      split <;> rfl
    | op o =>
      cases o with
      | mul => rfl
      | div => rfl
      | add =>
        simp only [step, unplaced, Lexeme.unplaced, hnesting]
        split <;> rfl
      | sub =>
        simp only [step, unplaced, Lexeme.unplaced, hnesting]
        split <;> rfl
  | holding opened sum term k =>
    cases token with
    | op o =>
      simp only [step, unplaced, Lexeme.unplaced]
      split <;> rfl
    | rparen => cases opened <;> rfl
    | number r => rfl
    | lparen => rfl

/-- **A whole run.** -/
theorem run_unplaced (r : Reading) (lexemes : List Lexeme) :
    run limits r.unplaced (lexemes.map Lexeme.unplaced) =
      unplacedResult unplaced (run limits r lexemes) := by
  induction lexemes generalizing r with
  | nil => rfl
  | cons l lexemes ih =>
    rw [List.map_cons, run_cons, run_cons, step_unplaced]
    cases step limits r l with
    | error e => rfl
    | ok r' => exact ih r'

theorem finish_unplaced (stop : Nat) (r : Reading) :
    finish 0 r.unplaced = unplacedResult id (finish stop r) := by
  match r with
  | wanting _ _ _ | holding [] _ _ _ | holding (_ :: _) _ _ _ => rfl

theorem outcome_unplaced (stop : Nat) (r : Reading) (lexemes : List Lexeme) :
    outcome limits 0 r.unplaced (lexemes.map Lexeme.unplaced) =
      unplacedResult id (outcome limits stop r lexemes) := by
  rw [outcome, outcome, run_unplaced]
  cases run limits r lexemes with
  | error e => rfl
  | ok r' => exact finish_unplaced stop r'

end Reading

/-! ## Parsing -/

/-- **Parsing.** The tree, or the error without its position, is that of the tokens alone. -/
theorem parse_unplaced (lexemes : List Lexeme) (stop : Nat) :
    Expr.parse (lexemes.map Lexeme.unplaced) 0 = unplacedResult id (Expr.parse lexemes stop) := by
  rw [Parser.parse_eq_outcome, Parser.parse_eq_outcome]
  exact Reading.outcome_unplaced .parser stop .start lexemes

end ExactLength
