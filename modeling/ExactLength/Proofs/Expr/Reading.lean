import Mathlib.Algebra.GroupWithZero.Nat
import ExactLength.Expr.Parser

/-!
# Reading an expression in one pass

The tokens of an expression can be taken from left to right without recursion. What has been read
is kept as the parentheses that are still open, each with what stands before it, and the part of
the innermost parenthesis read so far. A state either wants a value next or holds one.

The bounds on nesting and on operators are parameters here.

Results:
* `run_append`: a text is read piece by piece.
* `run_invariant`: what each step keeps, a run keeps.
* `exists_of_run_eq_error`: a refusal is the refusal of one token, all those before it being taken.
* `step_eq_error`: what a token is refused with.
-/

namespace ExactLength

/-- Bounds on how deep signs and parentheses nest and on the number of binary operators. -/
structure Limits where
  nesting : Nat
  operators : Nat

/-- An operand and the operator behind it, if there are any, waiting for the other operand. -/
abbrev Waiting := Option (Expr × Operator)

/-- What is waiting with its right operand. -/
def Waiting.join : Waiting → Expr → Expr
  | none, e => e
  | some (a, o), e => .binary o a e

/-- A place for a value: the sum and the product that wait for it in the same parenthesis, and the
signs before it, the nearest first. -/
structure Slot where
  sum : Waiting
  product : Waiting
  signs : List Bool

namespace Slot

/-- The place at the start of a text or of a parenthesis. -/
def fresh : Slot := ⟨none, none, []⟩

/-- The value with its sign. -/
def signed (negative : Bool) (e : Expr) : Expr := if negative then .neg e else e

/-- The term that a value completes. -/
def fill (slot : Slot) (e : Expr) : Expr :=
  slot.product.join (slot.signs.foldl (fun e negative => signed negative e) e)

/-- The place behind one more sign. -/
def afterSign (slot : Slot) (negative : Bool) : Slot :=
  { slot with signs := negative :: slot.signs }

end Slot

/-- An open parenthesis: where it stands, and the place it is the value of. -/
structure Opened where
  pos : Nat
  slot : Slot

/-- What has been read of an expression. -/
inductive Reading
  /-- A value must come next. -/
  | wanting (opened : List Opened) (slot : Slot) (operators : Nat)
  /-- A term has been read; an operator or the end of the parenthesis may come next. -/
  | holding (opened : List Opened) (sum : Waiting) (term : Expr) (operators : Nat)

namespace Reading

/-- Nothing has been read. -/
def start : Reading := wanting [] .fresh 0

/-- The signs and parentheses around a value in the given place. -/
def nesting (opened : List Opened) (slot : Slot) : Nat :=
  slot.signs.length + (opened.map fun p => p.slot.signs.length + 1).sum

/-- The reading once its place has a value. -/
def fill (opened : List Opened) (slot : Slot) (operators : Nat) (e : Expr) : Reading :=
  holding opened slot.sum (slot.fill e) operators

/-- The place behind a sum operator or behind a product operator. -/
def slotAfter (sum : Waiting) (term : Expr) (o : Operator) : Slot :=
  if o.isProduct then ⟨sum, some (term, o), []⟩ else ⟨some (sum.join term, o), none, []⟩

variable (limits : Limits)

/-- The reading with one more token, or why it cannot be taken. -/
def step : Reading → Lexeme → Except EvalError Reading
  | wanting opened slot operators, ⟨token, pos⟩ =>
    match token with
    | .number r => .ok (fill opened slot operators (.lit r))
    | .op .add =>
      if nesting opened slot < limits.nesting then
        .ok (wanting opened (slot.afterSign false) operators)
      else .error (.tooDeep pos)
    | .op .sub =>
      if nesting opened slot < limits.nesting then
        .ok (wanting opened (slot.afterSign true) operators)
      else .error (.tooDeep pos)
    | .lparen =>
      if nesting opened slot < limits.nesting then
        .ok (wanting (⟨pos, slot⟩ :: opened) .fresh operators)
      else .error (.tooDeep pos)
    | found => .error (.malformed (some found) pos)
  | holding opened sum term operators, ⟨token, pos⟩ =>
    match token, opened with
    | .op o, opened =>
      if operators < limits.operators then
        .ok (wanting opened (slotAfter sum term o) (operators + 1))
      else .error (.tooDeep pos)
    | .rparen, p :: opened => .ok (fill opened p.slot operators (sum.join term))
    | found, _ => .error (.trailingInput found pos)

/-- The reading with more tokens. -/
def run (r : Reading) (lexemes : List Lexeme) : Except EvalError Reading :=
  lexemes.foldlM (step limits) r

/-- The expression when the text ends here, at position `stop`. -/
def finish (stop : Nat) : Reading → Except EvalError Expr
  | wanting .. => .error (.malformed none stop)
  | holding [] sum term _ => .ok (sum.join term)
  | holding (p :: _) .. => .error (.unmatchedParenthesis p.pos)

/-- The expression when these are the remaining tokens of the text. -/
def outcome (stop : Nat) (r : Reading) (lexemes : List Lexeme) : Except EvalError Expr :=
  (run limits r lexemes).bind (finish stop)

variable {limits}

/-! ## Steps -/

theorem step_plus (opened : List Opened) (slot : Slot) (k pos : Nat) :
    step limits (wanting opened slot k) ⟨.op .add, pos⟩ =
      if nesting opened slot < limits.nesting then .ok (wanting opened (slot.afterSign false) k)
      else .error (.tooDeep pos) :=
  rfl

theorem step_minus (opened : List Opened) (slot : Slot) (k pos : Nat) :
    step limits (wanting opened slot k) ⟨.op .sub, pos⟩ =
      if nesting opened slot < limits.nesting then .ok (wanting opened (slot.afterSign true) k)
      else .error (.tooDeep pos) :=
  rfl

theorem step_lparen (opened : List Opened) (slot : Slot) (k pos : Nat) :
    step limits (wanting opened slot k) ⟨.lparen, pos⟩ =
      if nesting opened slot < limits.nesting then .ok (wanting (⟨pos, slot⟩ :: opened) .fresh k)
      else .error (.tooDeep pos) :=
  rfl

theorem nesting_afterSign (opened : List Opened) (slot : Slot) (negative : Bool) :
    nesting opened (slot.afterSign negative) = nesting opened slot + 1 := by
  simp only [nesting, Slot.afterSign, List.length_cons]
  omega

theorem nesting_cons_fresh (opened : List Opened) (slot : Slot) (pos : Nat) :
    nesting (⟨pos, slot⟩ :: opened) .fresh = nesting opened slot + 1 := by
  simp only [nesting, Slot.fresh, List.length_nil, List.map_cons, List.sum_cons]
  omega

theorem step_operator (opened : List Opened) (sum : Waiting) (term : Expr) (k : Nat) (o : Operator)
    (pos : Nat) :
    step limits (holding opened sum term k) ⟨.op o, pos⟩ =
      if k < limits.operators then .ok (wanting opened (slotAfter sum term o) (k + 1))
      else .error (.tooDeep pos) :=
  rfl

/-! ## Runs -/

@[simp] theorem run_nil (r : Reading) : run limits r [] = .ok r := rfl

theorem run_cons (r : Reading) (l : Lexeme) (ls : List Lexeme) :
    run limits r (l :: ls) = (step limits r l).bind fun r => run limits r ls := rfl

/-- A text is read piece by piece. -/
theorem run_append (r : Reading) (a b : List Lexeme) :
    run limits r (a ++ b) = (run limits r a).bind fun r => run limits r b :=
  List.foldlM_append

theorem run_append_of_ok {r r' : Reading} {a : List Lexeme} (h : run limits r a = .ok r')
    (b : List Lexeme) : run limits r (a ++ b) = run limits r' b := by
  rw [run_append, h]
  rfl

theorem run_cons_of_ok {r r' : Reading} {l : Lexeme} (h : step limits r l = .ok r')
    (ls : List Lexeme) : run limits r (l :: ls) = run limits r' ls := by
  rw [run_cons, h]
  rfl

theorem bind_ok_iff {α β : Type} {x : Except EvalError α} {f : α → Except EvalError β} {b : β} :
    x.bind f = .ok b ↔ ∃ a, x = .ok a ∧ f a = .ok b := by
  cases x with
  | error e => simp [Except.bind]
  | ok a => simp [Except.bind]

theorem run_cons_eq_ok_iff {r s : Reading} {l : Lexeme} {ls : List Lexeme} :
    run limits r (l :: ls) = .ok s ↔ ∃ t, step limits r l = .ok t ∧ run limits t ls = .ok s := by
  rw [run_cons]
  exact bind_ok_iff

theorem run_append_eq_ok_iff {r s : Reading} {a b : List Lexeme} :
    run limits r (a ++ b) = .ok s ↔ ∃ t, run limits r a = .ok t ∧ run limits t b = .ok s := by
  rw [run_append]
  exact bind_ok_iff

/-- **Invariants.** What each step keeps true of the state and the text read so far is true after
a run. -/
theorem run_invariant {P : List Lexeme → Reading → Prop}
    (hstep : ∀ {read r l s}, P read r → step limits r l = .ok s → P (read ++ [l]) s)
    {read ls : List Lexeme} {r s : Reading} (h : P read r) (hs : run limits r ls = .ok s) :
    P (read ++ ls) s := by
  induction ls generalizing read r with
  | nil =>
    cases hs
    rwa [List.append_nil]
  | cons l ls ih =>
    obtain ⟨t, ht, hs⟩ := run_cons_eq_ok_iff.mp hs
    have := ih (hstep h ht) hs
    rwa [List.append_assoc] at this

theorem outcome_cons_of_ok {r r' : Reading} {l : Lexeme} (stop : Nat)
    (h : step limits r l = .ok r') (ls : List Lexeme) :
    outcome limits stop r (l :: ls) = outcome limits stop r' ls := by
  rw [outcome, run_cons_of_ok h]
  rfl

theorem outcome_cons_of_error {r : Reading} {l : Lexeme} {err : EvalError} (stop : Nat)
    (h : step limits r l = .error err) (ls : List Lexeme) :
    outcome limits stop r (l :: ls) = .error err := by
  rw [outcome, run_cons, h]
  rfl

/-- A refusal is the refusal of one token, all those before it being taken. -/
theorem exists_of_run_eq_error {err : EvalError} {ls : List Lexeme} :
    ∀ {r : Reading}, run limits r ls = .error err →
      ∃ used l rest r', ls = used ++ l :: rest ∧ run limits r used = .ok r' ∧
        step limits r' l = .error err := by
  induction ls with
  | nil => intro r h; cases h
  | cons l ls ih =>
    intro r h
    cases hs : step limits r l with
    | error e =>
      rw [run_cons, hs] at h
      cases h
      exact ⟨[], l, ls, r, rfl, rfl, hs⟩
    | ok r₁ =>
      rw [run_cons_of_ok hs] at h
      obtain ⟨used, l', rest, r', rfl, hused, hl⟩ := ih h
      exact ⟨l :: used, l', rest, r', rfl, by rw [run_cons_of_ok hs, hused], hl⟩

/-- What a token is refused with: the error names the token and its position. -/
theorem step_eq_error {r : Reading} {l : Lexeme} {err : EvalError}
    (h : step limits r l = .error err) :
    err = .malformed (some l.token) l.pos ∨ err = .trailingInput l.token l.pos ∨
      err = .tooDeep l.pos := by
  obtain ⟨token, pos⟩ := l
  cases r with
  | wanting opened slot k =>
    match token, h with
    | .number _, h => cases h
    | .op .add, h | .op .sub, h | .lparen, h =>
      simp only [step] at h
      split at h <;> cases h
      exact .inr (.inr rfl)
    | .op .mul, h | .op .div, h | .rparen, h =>
      cases h
      exact .inl rfl
  | holding opened sum term k =>
    simp only [step] at h
    split at h
    · split at h <;> cases h
      exact .inr (.inr rfl)
    · cases h
    · cases h
      exact .inr (.inl rfl)

end Reading

end ExactLength
