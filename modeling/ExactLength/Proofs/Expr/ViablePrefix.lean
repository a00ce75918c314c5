import Mathlib.Algebra.Ring.Int.Defs
import ExactLength.Proofs.Expr.Acceptance

/-!
# Where an expression goes wrong

An error of the parser names the first token that no expression can have at its place: what stands
before it can still be completed, and what ends with it cannot. At the end of a text there is no
such token, the text itself can be completed, and the error tells what is missing.

Results:
* `exists_completion`: whatever has been read can be completed, by a value if one is wanted and
  then by closing parentheses, so no bound stands in the way.
* `reflects_of_run`: the parentheses kept open are those of the text that nothing closes.
* `parse_error_locates`: the meaning of each error of the parser.
-/

namespace ExactLength

open Reading

/-- Some text that begins with these lexemes is an expression. -/
def Completable (lexemes : List Lexeme) : Prop :=
  ∃ more stop e, Expr.parse (lexemes ++ more) stop = .ok e

/-- The lexeme is the first of the text with which nothing is the beginning of an expression. -/
def FirstHopeless (lexemes : List Lexeme) (l : Lexeme) : Prop :=
  ∃ before after, lexemes = before ++ l :: after ∧ Completable before ∧
    ¬ Completable (before ++ [l])

/-! ## Parentheses -/

/-- What a token adds to the number of open parentheses. -/
def Token.opens : Token → Int
  | lparen => 1
  | rparen => -1
  | _ => 0

/-- The parentheses that lexemes open less those that they close. -/
def Lexeme.depth (lexemes : List Lexeme) : Int := (lexemes.map fun l => l.token.opens).sum

/-- A parenthesis with these lexemes behind it is not closed by any of them. -/
def Unclosed (after : List Lexeme) : Prop := ∀ p, p <+: after → 0 ≤ Lexeme.depth p

/-- The position of the last parenthesis of a text that is not closed. -/
def InnermostUnclosed (lexemes : List Lexeme) (pos : Nat) : Prop :=
  ∃ before after, lexemes = before ++ ⟨.lparen, pos⟩ :: after ∧ Unclosed after ∧
    ∀ before' pos' after', lexemes = before' ++ ⟨.lparen, pos'⟩ :: after' → Unclosed after' →
      before'.length ≤ before.length

/-- Lexemes that close what they open and nothing else. -/
structure Balanced (lexemes : List Lexeme) : Prop where
  unclosed : Unclosed lexemes
  depth_eq : Lexeme.depth lexemes = 0

@[simp] theorem depth_nil : Lexeme.depth [] = 0 := rfl

@[simp] theorem depth_cons (l : Lexeme) (ls : List Lexeme) :
    Lexeme.depth (l :: ls) = l.token.opens + Lexeme.depth ls := by
  simp [Lexeme.depth]

@[simp] theorem depth_append (a b : List Lexeme) :
    Lexeme.depth (a ++ b) = Lexeme.depth a + Lexeme.depth b := by
  simp [Lexeme.depth]

/-- A text that begins another one ends in its first part or reaches into the second. -/
theorem begins_append {α : Type} {p a b : List α} (h : p <+: a ++ b) :
    p <+: a ∨ ∃ q, p = a ++ q ∧ q <+: b := by
  obtain ⟨t, ht⟩ := h
  rcases List.append_eq_append_iff.mp ht with ⟨as, ha, -⟩ | ⟨bs, hp, hb⟩
  · exact .inl ⟨as, ha.symm⟩
  · exact .inr ⟨bs, hp, t, hb.symm⟩

theorem balanced_nil : Balanced [] := by
  refine ⟨fun p hp => ?_, rfl⟩
  rw [List.prefix_nil.mp hp]
  exact Int.le_refl 0

theorem balanced_singleton {l : Lexeme} (h : l.token.opens = 0) : Balanced [l] := by
  refine ⟨fun p hp => ?_, by simp [h]⟩
  rcases List.prefix_cons_iff.mp hp with rfl | ⟨q, rfl, hq⟩
  · exact Int.le_refl 0
  · simp [List.prefix_nil.mp hq, h]

theorem Balanced.append {a b : List Lexeme} (ha : Balanced a) (hb : Balanced b) :
    Balanced (a ++ b) := by
  refine ⟨fun p hp => ?_, by rw [depth_append, ha.depth_eq, hb.depth_eq, Int.add_zero]⟩
  rcases begins_append hp with hp | ⟨q, rfl, hq⟩
  · exact ha.unclosed p hp
  · rw [depth_append, ha.depth_eq, Int.zero_add]
    exact hb.unclosed q hq

theorem Balanced.parenthesised {ls : List Lexeme} (h : Balanced ls) (pos pos' : Nat) :
    Balanced (⟨.lparen, pos⟩ :: (ls ++ [⟨.rparen, pos'⟩])) := by
  refine ⟨fun p hp => ?_, by simp [h.depth_eq, Token.opens]⟩
  rcases List.prefix_cons_iff.mp hp with rfl | ⟨q, rfl, hq⟩
  · exact Int.le_refl 0
  · rw [depth_cons]
    rcases begins_append hq with hq | ⟨t, rfl, ht⟩
    · have := h.unclosed q hq
      simp only [Token.opens]
      omega
    · rcases List.prefix_cons_iff.mp ht with rfl | ⟨u, rfl, hu⟩
      · simp [h.depth_eq, Token.opens]
      · simp [h.depth_eq, Token.opens, List.prefix_nil.mp hu]

theorem Balanced.not_unclosed {a b : List Lexeme} {pos : Nat}
    (h : Balanced (a ++ ⟨.lparen, pos⟩ :: b)) : ¬ Unclosed b := by
  intro hb
  have h₁ := h.unclosed a (List.prefix_append a _)
  have h₂ := hb b (List.prefix_refl b)
  have h₃ := h.depth_eq
  simp only [depth_append, depth_cons, Token.opens] at h₃
  omega

/-- The text `lexemes` leaves the given parentheses open, the innermost first. -/
inductive Leaves : List Lexeme → List Opened → Prop
  | nothing {ls : List Lexeme} (h : Balanced ls) : Leaves ls []
  | paren {before after : List Lexeme} {p : Opened} {opened : List Opened}
    (hb : Leaves before opened) (ha : Balanced after) :
    Leaves (before ++ ⟨.lparen, p.pos⟩ :: after) (p :: opened)

theorem Leaves.append {ls more : List Lexeme} {opened : List Opened} (h : Leaves ls opened)
    (hm : Balanced more) : Leaves (ls ++ more) opened := by
  cases h with
  | nothing h => exact .nothing (h.append hm)
  | paren hb ha =>
    rw [List.append_assoc, List.cons_append]
    exact .paren hb (ha.append hm)

/-- The parenthesis in front of balanced lexemes is the innermost one that is not closed. -/
theorem innermostUnclosed_of_balanced {before after : List Lexeme} {pos : Nat}
    (h : Balanced after) : InnermostUnclosed (before ++ ⟨.lparen, pos⟩ :: after) pos := by
  refine ⟨before, after, rfl, h.unclosed, fun before' pos' after' heq hopen => ?_⟩
  rcases List.append_eq_append_iff.mp heq with ⟨as, rfl, htail⟩ | ⟨bs, rfl, htail⟩
  · cases as with
    | nil => simp
    | cons a as =>
      -- a later parenthesis would stand in the balanced part
      simp only [List.cons_append, List.cons.injEq] at htail
      obtain ⟨-, rfl⟩ := htail
      exact absurd hopen h.not_unclosed
  · simp

/-! ## Completions -/

theorem exists_completion_of_holding (limits : Limits) (stop : Nat) :
    ∀ (opened : List Opened) (sum : Waiting) (term : Expr) (k : Nat),
      ∃ more e, outcome limits stop (holding opened sum term k) more = .ok e := by
  intro opened
  induction opened with
  | nil =>
    intro sum term k
    exact ⟨[], sum.join term, rfl⟩
  | cons p opened ih =>
    intro sum term k
    obtain ⟨more, e, h⟩ := ih p.slot.sum (p.slot.fill (sum.join term)) k
    exact ⟨⟨.rparen, 0⟩ :: more, e, h⟩

/-- Whatever has been read can be completed. -/
theorem exists_completion (limits : Limits) (stop : Nat) (r : Reading) :
    ∃ more e, outcome limits stop r more = .ok e := by
  cases r with
  | wanting opened slot k =>
    obtain ⟨more, e, h⟩ :=
      exists_completion_of_holding limits stop opened slot.sum (slot.fill (.lit 0)) k
    exact ⟨⟨.number 0, 0⟩ :: more, e, h⟩
  | holding opened sum term k => exact exists_completion_of_holding limits stop opened sum term k

/-- What can be read can be completed, and nothing else can. -/
theorem completable_iff {lexemes : List Lexeme} :
    Completable lexemes ↔ ∃ r, run .parser start lexemes = .ok r := by
  constructor
  · rintro ⟨more, stop, e, h⟩
    rw [Parser.parse_eq_outcome, outcome, run_append] at h
    cases hr : run .parser start lexemes with
    | error err =>
      rw [hr] at h
      cases h
    | ok r => exact ⟨r, rfl⟩
  · rintro ⟨r, hr⟩
    obtain ⟨more, e, h⟩ := exists_completion .parser 0 r
    refine ⟨more, 0, e, ?_⟩
    rw [Parser.parse_eq_outcome, outcome, run_append_of_ok hr]
    exact h

/-- A refused token is the first with which the text is hopeless. -/
theorem firstHopeless_of_step {before after : List Lexeme} {l : Lexeme} {r : Reading}
    {err : EvalError} (hr : run .parser start before = .ok r)
    (hl : step .parser r l = .error err) : FirstHopeless (before ++ l :: after) l := by
  refine ⟨before, after, rfl, completable_iff.mpr ⟨r, hr⟩, fun h => ?_⟩
  obtain ⟨r', h⟩ := completable_iff.mp h
  rw [run_append_of_ok hr, run_cons, hl] at h
  cases h

/-! ## What has been read -/

variable {limits : Limits}

/-- A token behind which a value is wanted. -/
def Token.opensValue : Token → Prop
  | op _ | lparen => True
  | number _ | rparen => False

/-- What a state tells about the text read so far. -/
def Reading.Reflects (lexemes : List Lexeme) : Reading → Prop
  | wanting opened _ _ => Leaves lexemes opened ∧ ∀ l ∈ lexemes.getLast?, l.token.opensValue
  | holding opened _ _ _ =>
    Leaves lexemes opened ∧ ∃ l, lexemes.getLast? = some l ∧ ¬ l.token.opensValue

theorem reflects_wanting {lexemes : List Lexeme} {l : Lexeme} {opened : List Opened}
    (h : Leaves (lexemes ++ [l]) opened) (hl : l.token.opensValue) (slot : Slot) (k : Nat) :
    (wanting opened slot k).Reflects (lexemes ++ [l]) := by
  refine ⟨h, fun l' hl' => ?_⟩
  rw [List.getLast?_concat, Option.mem_some_iff] at hl'
  exact hl' ▸ hl

theorem reflects_holding {lexemes : List Lexeme} {l : Lexeme} {opened : List Opened}
    (h : Leaves (lexemes ++ [l]) opened) (hl : ¬ l.token.opensValue) (sum : Waiting) (term : Expr)
    (k : Nat) : (holding opened sum term k).Reflects (lexemes ++ [l]) :=
  ⟨h, l, List.getLast?_concat, hl⟩

/-- One more token opens or closes in the state what it opens or closes in the text. -/
theorem reflects_step {lexemes : List Lexeme} {r r' : Reading} {l : Lexeme}
    (hr : r.Reflects lexemes) (h : step limits r l = .ok r') : r'.Reflects (lexemes ++ [l]) := by
  obtain ⟨token, pos⟩ := l
  cases r with
  | wanting opened slot k =>
    have hleaves : Leaves lexemes opened := hr.1
    match token, h with
    | .number x, h =>
      cases h
      exact reflects_holding (hleaves.append (balanced_singleton rfl)) id _ _ _
    | .op .add, h | .op .sub, h =>
      simp only [step] at h
      split at h <;> cases h
      refine reflects_wanting (hleaves.append (balanced_singleton rfl)) ?_ _ _
      exact trivial
    | .lparen, h =>
      simp only [step] at h
      split at h <;> cases h
      refine reflects_wanting (.paren (p := ⟨pos, slot⟩) hleaves balanced_nil) ?_ _ _
      exact trivial
    | .op .mul, h | .op .div, h | .rparen, h => cases h
  | holding opened sum term k =>
    have hleaves : Leaves lexemes opened := hr.1
    cases token with
    | op o =>
      simp only [step] at h
      split at h <;> cases h
      refine reflects_wanting (hleaves.append (balanced_singleton rfl)) ?_ _ _
      exact trivial
    | rparen =>
      cases hleaves with
      | nothing _ => cases h
      | @paren _ _ p _ hb ha =>
        cases h
        -- the parentheses close around a balanced part, and are balanced with it
        refine reflects_holding ?_ id _ _ _
        rw [List.append_assoc]
        exact hb.append (ha.parenthesised p.pos pos)
    | number _ | lparen => cases h

/-- The state reflects the text that was read. -/
theorem reflects_of_run {lexemes : List Lexeme} {r : Reading}
    (h : run limits start lexemes = .ok r) : r.Reflects lexemes := by
  have hstart : start.Reflects [] := ⟨.nothing balanced_nil, fun _ h => by cases h⟩
  exact run_invariant reflects_step hstart h

theorem opensValue_iff {token : Token} :
    token.opensValue ↔ (∃ o, token = .op o) ∨ token = .lparen := by
  cases token <;> simp [Token.opensValue]

theorem not_opensValue_iff {token : Token} :
    ¬ token.opensValue ↔ (∃ x, token = .number x) ∨ token = .rparen := by
  cases token <;> simp [Token.opensValue]

/-! ## Errors -/

/-- **Errors of the parser.** An error that names a token names the first one with which the text
is hopeless. At the end of the text, which is then the beginning of an expression, either a value is
missing behind an operator, a sign or a parenthesis, or nothing else is and the error names the
innermost parenthesis that is not closed. No other error arises. -/
theorem parse_error_locates {lexemes : List Lexeme} {stop : Nat} {err : EvalError}
    (h : Expr.parse lexemes stop = .error err) :
    match err with
    | .malformed (some found) pos | .trailingInput found pos =>
      FirstHopeless lexemes ⟨found, pos⟩
    | .tooDeep pos => ∃ found, FirstHopeless lexemes ⟨found, pos⟩
    | .malformed none pos => Completable lexemes ∧ pos = stop ∧
      ∀ l ∈ lexemes.getLast?, (∃ o, l.token = .op o) ∨ l.token = .lparen
    | .unmatchedParenthesis pos => Completable lexemes ∧
      (∃ l, lexemes.getLast? = some l ∧ ((∃ x, l.token = .number x) ∨ l.token = .rparen)) ∧
      InnermostUnclosed lexemes pos
    | .divisionByZero | .invalidCharacter .. => False := by
  rw [Parser.parse_eq_outcome] at h
  cases hr : run .parser start lexemes with
  | error err' =>
    rw [outcome, hr] at h
    cases h
    -- the reading stops at one token, and could have gone on otherwise before it
    obtain ⟨before, l, after, r, rfl, hbefore, hl⟩ := exists_of_run_eq_error hr
    have hfirst : FirstHopeless (before ++ l :: after) l := firstHopeless_of_step hbefore hl
    rcases step_eq_error hl with rfl | rfl | rfl
    · exact hfirst
    · exact hfirst
    · exact ⟨l.token, hfirst⟩
  | ok r =>
    rw [outcome, hr] at h
    have hcompletable : Completable lexemes := completable_iff.mpr ⟨r, hr⟩
    -- all tokens are taken, so the state tells what is missing or open at the end
    have hreflects := reflects_of_run hr
    cases r with
    | wanting opened slot k =>
      cases h
      exact ⟨hcompletable, rfl, fun l hl => opensValue_iff.mp (hreflects.2 l hl)⟩
    | holding opened sum term k =>
      obtain ⟨hleaves, l, hl, hlast⟩ := hreflects
      cases hleaves with
      | nothing _ => cases h
      | paren hb ha =>
        cases h
        exact ⟨hcompletable, ⟨l, hl, not_opensValue_iff.mp hlast⟩,
          innermostUnclosed_of_balanced ha⟩

/-- The text `((1+2)`: the inner parenthesis is closed, the outer one is not. -/
def halfClosed : List Lexeme :=
  [⟨.lparen, 0⟩, ⟨.lparen, 1⟩, ⟨.number 1, 2⟩, ⟨.op .add, 3⟩, ⟨.number 2, 4⟩, ⟨.rparen, 5⟩]

theorem parse_halfClosed_locates :
    Expr.parse halfClosed 6 = .error (.unmatchedParenthesis 0) ∧ Completable halfClosed ∧
      (∃ l, halfClosed.getLast? = some l ∧ ((∃ x, l.token = .number x) ∨ l.token = .rparen)) ∧
      InnermostUnclosed halfClosed 0 := by
  have h : Expr.parse halfClosed 6 = .error (.unmatchedParenthesis 0) := rfl
  exact ⟨h, parse_error_locates h⟩

end ExactLength
