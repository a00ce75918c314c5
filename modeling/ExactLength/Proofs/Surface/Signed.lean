import ExactLength.Proofs.Surface.Evaluation

/-!
# Numbers behind a minus sign

A minus sign in front of a number, without parentheses, is the sign of the whole number: `-1 3/8`
is the opposite of `1 3/8`. The mixed number is written out as a sum in parentheses before the sign
is read.

Results:
* `evaluate_eq_eval`: a text is worth the tree that its tokens stand for.
* `parse_number_cons`: nothing but an operator can follow a number.
* `Leaf.evaluate_signedText`: a number behind a sign is worth its opposite.
-/

namespace ExactLength

open Digits Text MixedNumber

theorem evaluate_eq_eval_of_parse {text : Text} {lexemes : List Lexeme} {e : Expr}
    (htext : text.Admitted) (hscan : Lexeme.scan text.expandMixed = .ok lexemes)
    (hparse : Expr.parse lexemes text.expandMixed.length = .ok e) : evaluate text = e.eval := by
  rw [evaluate, explain_admitted htext, explainExpanded, hscan]
  simp only [bind, Except.bind, hparse]
  cases e.eval <;> rfl

/-- **Stages.** A text of admitted characters is worth the tree that its tokens stand for. -/
theorem evaluate_eq_eval {text : Text} {tokens : List Token} {n k : Nat} {e : Expr}
    (htext : text.Admitted) (hscan : tokensFrom 0 text.expandMixed = .ok tokens)
    (he : Derives .sum tokens n k e) (hn : n ≤ maxNesting) (hk : k ≤ maxOperators) :
    evaluate text = e.eval := by
  cases hlexemes : Lexeme.scanFrom 0 text.expandMixed with
  | error e =>
    rw [tokensFrom, hlexemes] at hscan
    cases hscan
  | ok lexemes =>
    rw [tokensFrom, hlexemes] at hscan
    have hderives : Derives .sum (lexemes.map Lexeme.token) n k e := by
      rw [Except.ok.inj hscan]
      exact he
    have hparse := parse_of_derives hderives hn hk text.expandMixed.length
    exact evaluate_eq_eval_of_parse htext hlexemes hparse

theorem evaluate_eq_error_of_scan {text : Text} {e : EvalError} (htext : text.Admitted)
    (hscan : tokensFrom 0 text.expandMixed = .error e) : evaluate text = .error e := by
  rw [evaluate, explain_admitted htext, explainExpanded, Lexeme.scan]
  cases hlexemes : Lexeme.scanFrom 0 text.expandMixed with
  | error e' =>
    rw [tokensFrom, hlexemes] at hscan
    cases hscan
    rfl
  | ok lexemes =>
    rw [tokensFrom, hlexemes] at hscan
    cases hscan

theorem evaluate_eq_error_of_parse {text : Text} {lexemes : List Lexeme} {e : EvalError}
    (htext : text.Admitted) (hscan : Lexeme.scan text.expandMixed = .ok lexemes)
    (hparse : Expr.parse lexemes text.expandMixed.length = .error e) :
    evaluate text = .error e := by
  rw [evaluate, explain_admitted htext, explainExpanded, hscan]
  simp only [bind, Except.bind, hparse]
  rfl

/-- Nothing but an operator can follow a number. -/
theorem parse_number_cons {found : Token} (h : ∀ o, found ≠ .op o) (r : Rat) (pos pos' stop : Nat)
    (lexemes : List Lexeme) : Expr.parse (⟨.number r, pos⟩ :: ⟨found, pos'⟩ :: lexemes) stop =
      .error (.trailingInput found pos') := by
  have hstep : Reading.step .parser (.fill [] .fresh 0 (.lit r)) ⟨found, pos'⟩ =
      .error (.trailingInput found pos') := by
    cases found with
    | number _ | lparen | rparen => rfl
    | op o => exact absurd rfl (h o)
  rw [Parser.parse_eq_outcome, Reading.outcome_cons_of_ok stop rfl,
    Reading.outcome_cons_of_error stop hstep]

namespace Leaf

/-- A number, with a minus sign in front if it is negative. -/
def signedText (negative : Bool) (l : Leaf) : Text := if negative then '-' :: l.text else l.text

/-- The exact value of a number with its sign. -/
def signedValue (negative : Bool) (l : Leaf) : Rat := if negative then -l.value else l.value

variable (negative : Bool) (l : Leaf)

theorem admitted_signedText : (l.signedText negative).Admitted := by
  unfold signedText
  split
  · exact l.admitted_text.cons rfl
  · exact l.admitted_text

/-- A sign in front of a number changes nothing in how its mixed number is written out. -/
theorem expandMixed_signedText :
    (l.signedText negative).expandMixed = if negative then '-' :: l.expanded else l.expanded := by
  cases negative with
  | true => exact (l.copies_dash.cons rfl).expandMixed_eq (l.copies_blanks.cons rfl)
  | false => exact l.copies_dash.expandMixed_eq l.copies_blanks

/-- **Signs.** A number behind a minus sign is worth its opposite. -/
theorem evaluate_signedText {l : Leaf} (hz : l.zeroDenominator = false)
    (hplaces : l.placeCount < UInt32.size) :
    evaluate (l.signedText negative) = .ok (l.signedValue negative) := by
  have hadmitted := l.admitted_signedText negative
  have hexpand := l.expandMixed_signedText negative
  have hscans := l.scans_expanded
  have hderives := l.derives_tokens
  rw [hz] at hscans
  have hbound : (if l.isMixed then 1 else 0) ≤ 1 := by
    split <;> decide
  have hoperators : (if l.isMixed then 1 else 0) ≤ maxOperators := by
    rw [maxOperators]
    omega
  cases negative with
  | true =>
    have hscan := (hscans.symbol (c := '-') (t := .op .sub) rfl rfl).tokensFrom_eq 0
    have hnesting : (if l.isMixed then 1 else 0) + 1 ≤ maxNesting := by
      rw [maxNesting]
      omega
    rw [evaluate_eq_eval hadmitted (hexpand ▸ hscan) (.sum (.term (.minus hderives))) hnesting
      hoperators, Expr.eval_neg_of_ok (l.eval_tree hplaces)]
    rfl
  | false =>
    have hscan := hscans.tokensFrom_eq 0
    have hnesting : (if l.isMixed then 1 else 0) ≤ maxNesting := by
      rw [maxNesting]
      omega
    rw [evaluate_eq_eval hadmitted (hexpand ▸ hscan) (.sum (.term hderives)) hnesting hoperators,
      l.eval_tree hplaces]
    rfl

end Leaf

end ExactLength
