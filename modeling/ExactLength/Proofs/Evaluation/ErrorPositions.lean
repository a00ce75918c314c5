import ExactLength.Proofs.Token.Placement

/-!
# Where errors point

The position in an error of evaluation is a place in the text with its mixed numbers written out. An
error that names a token stands at the first character that the token is read from, also when the
token is shown in another form: `6/4` is a token that is shown as `3/2`. An open parenthesis is
reported where it stands, and nothing behind it closes it.

Results:
* `evaluate_eq_error`: an error comes from a division by zero or from the parser.
* `Parser.parse_eq_error`: the parser refuses a token, or the end of the text.
* `evaluate_error_points`: where each error points.
-/

namespace ExactLength

open Reading

/-! ## Where errors come from -/

/-- The error of a text of admitted characters is a division by zero or an error of the parser. -/
theorem evaluate_eq_error {text : Text} (htext : text.Admitted) {err : EvalError}
    (h : evaluate text = .error err) :
    err = .divisionByZero ∨ ∃ lexemes, Lexeme.scan text.expandMixed = .ok lexemes ∧
      Expr.parse lexemes text.expandMixed.length = .error err := by
  rw [evaluate, explain_admitted htext] at h
  cases hexplain : explainExpanded text.expandMixed with
  | error e =>
    rw [hexplain] at h
    cases h
    exact explainExpanded_eq_error (Text.Admitted.expandMixed htext) hexplain
  | ok v =>
    rw [hexplain] at h
    cases h

namespace Reading

variable {limits : Limits}

/-- Only a sign, an operator or an opening parenthesis can be one too many. -/
theorem step_eq_tooDeep {r : Reading} {l : Lexeme} {pos : Nat}
    (h : step limits r l = .error (.tooDeep pos)) : l.pos = pos ∧ l.token.opensValue := by
  obtain ⟨token, pos'⟩ := l
  cases r with
  | wanting opened slot k =>
    cases token with
    | op o =>
      cases o with
      | add | sub =>
        simp only [step] at h
        split at h <;> cases h
        exact ⟨rfl, trivial⟩
      | mul | div => cases h
    | lparen =>
      simp only [step] at h
      split at h <;> cases h
      exact ⟨rfl, trivial⟩
    | number _ | rparen => cases h
  | holding opened sum term k =>
    cases token with
    | op o =>
      rw [step_operator] at h
      split at h <;> cases h
      exact ⟨rfl, trivial⟩
    | rparen => cases opened <;> cases h
    | number _ | lparen => cases h

end Reading

/-- **Errors of the parser.** The parser refuses a token of the text, the end of the text, or a
parenthesis that nothing closes. -/
theorem Parser.parse_eq_error {lexemes : List Lexeme} {stop : Nat} {err : EvalError}
    (h : Expr.parse lexemes stop = .error err) :
    (∃ l ∈ lexemes, err = .malformed (some l.token) l.pos ∨ err = .trailingInput l.token l.pos ∨
      (err = .tooDeep l.pos ∧ l.token.opensValue)) ∨
    err = .malformed none stop ∨
    ∃ before pos after, lexemes = before ++ ⟨.lparen, pos⟩ :: after ∧ Unclosed after ∧
      err = .unmatchedParenthesis pos := by
  rw [Parser.parse_eq_outcome] at h
  cases hr : run .parser start lexemes with
  | error err' =>
    rw [outcome, hr] at h
    cases h
    obtain ⟨before, l, after, r, rfl, -, hl⟩ := exists_of_run_eq_error hr
    refine .inl ⟨l, List.mem_append_right _ (List.mem_cons_self), ?_⟩
    obtain rfl | rfl | rfl := step_eq_error hl
    · exact .inl rfl
    · exact .inr (.inl rfl)
    · exact .inr (.inr ⟨rfl, (step_eq_tooDeep hl).2⟩)
  | ok r =>
    rw [outcome, hr] at h
    cases r with
    | wanting opened slot k =>
      cases h
      exact .inr (.inl rfl)
    | holding opened sum term k =>
      obtain ⟨hleaves, -⟩ := reflects_of_run hr
      cases hleaves with
      | nothing _ => cases h
      | paren _ hafter =>
        cases h
        exact .inr (.inr ⟨_, _, _, rfl, hafter.unclosed, rfl⟩)

/-! ## What stands there -/

namespace Text

/-- Every closing parenthesis of the text closes one that is opened in it. -/
def ClosesOwn (cs : Text) : Prop := ∀ p, p <+: cs → p.count ')' ≤ p.count '('

/-- The token is read from the characters that start at a position of the text. -/
def HasTokenAt (cs : Text) (t : Token) (pos : Nat) : Prop :=
  ∃ c taken rest, cs.drop pos = c :: taken ++ rest ∧ t.ReadFrom (c :: taken) rest

end Text

namespace Lexeme

variable {cs : Text} {lexemes : List Lexeme} {l : Lexeme}

theorem hasTokenAt_of_scan (hscan : scan cs = .ok lexemes) (hl : l ∈ lexemes) :
    cs.HasTokenAt l.token l.pos := by
  obtain ⟨before, after, rfl⟩ := List.append_of_mem hl
  obtain ⟨pre, taken, rest, rfl, hpos, hread, -⟩ := (placed_of_scanFrom hscan).split
  obtain ⟨c, taken, rfl⟩ := List.exists_cons_of_ne_nil hread.ne_nil
  refine ⟨c, taken, rest, ?_, hread⟩
  rw [hpos, Nat.zero_add, List.drop_left]

theorem getElem?_of_scan (hscan : scan cs = .ok lexemes) (hl : l ∈ lexemes)
    (hsign : ∀ v, l.token ≠ .number v) : cs[l.pos]? = l.token.text.head? := by
  obtain ⟨c, taken, rest, hcs, hread⟩ := hasTokenAt_of_scan hscan hl
  rw [← hread.eq_symbol hsign, ← List.head?_drop, hcs]
  rfl

/-- What closes no earlier token of the text closes no earlier character. -/
theorem closesOwn_of_scan {before after : List Lexeme} {pos : Nat}
    (hscan : scan cs = .ok (before ++ ⟨.lparen, pos⟩ :: after)) (hafter : Unclosed after) :
    Text.ClosesOwn (cs.drop (pos + 1)) := by
  obtain ⟨pre, taken, rest, rfl, hpos, hread, hplaced⟩ := (placed_of_scanFrom hscan).split
  obtain rfl : taken = ['('] := hread.eq_symbol nofun
  have hlength : pos + 1 = (pre ++ ['(']).length := by
    rw [List.length_append, ← Nat.zero_add pre.length, ← hpos]
    rfl
  have hdrop : (pre ++ (['('] ++ rest)).drop (pos + 1) = rest := by
    rw [← List.append_assoc, hlength, List.drop_left]
  intro p hp
  rw [hdrop] at hp
  obtain ⟨q, hq, hdepth⟩ := hplaced.exists_depth_eq hp
  have hnonneg := hafter q hq
  rw [hdepth, Text.depth] at hnonneg
  omega

end Lexeme

/-- **Error positions.** The error of a text of admitted characters points into the text with its
mixed numbers written out. An error that names a token stands at the first character of that token,
a bound is exceeded at an operator, a sign or an opening parenthesis, and a parenthesis that is not
closed stands at its position with nothing behind it that closes it. A missing value is missing at
the end of the text. -/
theorem evaluate_error_points {text : Text} (htext : ∀ c ∈ text, isAdmitted c = true)
    {err : EvalError} (h : evaluate text = .error err) :
    match err with
    | .malformed (some found) pos | .trailingInput found pos =>
      ∃ lexemes, Lexeme.scan text.expandMixed = .ok lexemes ∧ ⟨found, pos⟩ ∈ lexemes ∧
        text.expandMixed.HasTokenAt found pos
    | .tooDeep pos => ∃ c ∈ ['+', '-', '*', '/', '('], text.expandMixed[pos]? = some c
    | .unmatchedParenthesis pos =>
      text.expandMixed[pos]? = some '(' ∧ Text.ClosesOwn (text.expandMixed.drop (pos + 1))
    | .malformed none pos => pos = text.expandMixed.length
    | .divisionByZero => True
    | .invalidCharacter .. => False := by
  obtain rfl | ⟨lexemes, hscan, hparse⟩ := evaluate_eq_error htext h
  · exact trivial
  obtain ⟨l, hl, rfl | rfl | ⟨rfl, hopens⟩⟩ | rfl | ⟨before, pos, after, rfl, hafter, rfl⟩ :=
    Parser.parse_eq_error hparse
  · exact ⟨lexemes, hscan, hl, Lexeme.hasTokenAt_of_scan hscan hl⟩
  · exact ⟨lexemes, hscan, hl, Lexeme.hasTokenAt_of_scan hscan hl⟩
  · obtain ⟨o, ho⟩ | hparen := opensValue_iff.mp hopens
    · have hsymbol := Lexeme.getElem?_of_scan hscan hl (by rw [ho]; exact nofun)
      rw [ho] at hsymbol
      refine ⟨o.symbol, ?_, hsymbol⟩
      cases o <;> decide
    · have hsymbol := Lexeme.getElem?_of_scan hscan hl (by rw [hparen]; exact nofun)
      rw [hparen] at hsymbol
      exact ⟨'(', by decide, hsymbol⟩
  · rfl
  · have hl : (⟨.lparen, pos⟩ : Lexeme) ∈ before ++ ⟨.lparen, pos⟩ :: after :=
      List.mem_append_right _ List.mem_cons_self
    exact ⟨Lexeme.getElem?_of_scan hscan hl nofun, Lexeme.closesOwn_of_scan hscan hafter⟩

/-- In `(1 1/2) 6/4` the fraction is too many. It is shown as `3/2`, and stands four characters
further on in the text with its mixed number written out. -/
theorem evaluate_fractionTooMany :
    evaluate (.ofString "(1 1/2) 6/4") = .error (.trailingInput (.number (3 / 2)) 12) ∧
      ∃ lexemes, Lexeme.scan (Text.expandMixed (.ofString "(1 1/2) 6/4")) = .ok lexemes ∧
        ⟨.number (3 / 2), 12⟩ ∈ lexemes ∧
        (Text.expandMixed (.ofString "(1 1/2) 6/4")).HasTokenAt (.number (3 / 2)) 12 := by
  have h : evaluate (.ofString "(1 1/2) 6/4") = .error (.trailingInput (.number (3 / 2)) 12) := by
    decide +kernel
  have htext : ∀ c ∈ Text.ofString "(1 1/2) 6/4", isAdmitted c = true :=
    List.all_eq_true.1 (by decide +kernel)
  exact ⟨h, evaluate_error_points htext h⟩

end ExactLength
