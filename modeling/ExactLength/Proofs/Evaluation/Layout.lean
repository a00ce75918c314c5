import Mathlib.Data.List.Basic
import ExactLength.Proofs.Expr.Positions
import ExactLength.Proofs.MixedNumber.Blanks
import ExactLength.Proofs.Surface.Scanned
import ExactLength.Proofs.Token.Alphabet

/-!
# Layout

How a text is laid out does not change what it is worth, nor how its tokens and its tree are shown.
A blank parts numbers, and numbers from strokes, however wide it is; next to the other signs and at
the ends of a text it may as well be missing. An error stays the same error at a position of its
own.

Writing out the mixed numbers beforehand changes nothing at all, positions included.

Results:
* `Literal.read_tighten`, `tokensFrom_tighten`: the same literals and the same tokens are read.
* `digest_explain_of_respaced`: evaluation gives the same digest for two texts that differ only in
  blanks that part nothing.
* `explain_collapse`: what that says of values, tokens, trees and errors, for a text and its words
  with one space between neighbours.
* `explain_expandMixed`: a text with its mixed numbers written out is evaluated alike.
-/

namespace ExactLength

open Digits Text

/-! ## Tokens -/

/-- **Literals.** A literal ends at the same character, whatever follows it. -/
theorem Literal.read_tighten (cs : Text) :
    read (tighten cs) = ((read cs).1, tighten (read cs).2) := by
  have hafter := after_tighten cs
  -- no literal goes on behind the digits unless a point or a stroke follows them
  have hother (hcs : ∀ d ∈ (after cs).head?, d ≠ '.' ∧ d ≠ '/')
      (hcs' : ∀ d ∈ (tighten (after cs)).head?, d ≠ '.' ∧ d ≠ '/') :
      read (tighten cs) = ((read cs).1, tighten (read cs).2) := by
    rw [← hafter] at hcs'
    rw [read_of_run hcs, read_of_run hcs', leading_tighten, after_tighten]
  by_cases hapart : Apart (after cs)
  · exact hother (fun d hd => (hapart.not_number d hd).2)
      (fun d hd => ((apart_tighten.mpr hapart).not_number d hd).2)
  · cases hr : after cs with
    | nil => exact absurd (hr ▸ apart_nil) hapart
    | cons d rest =>
      simp only [hr, apart_cons, not_or, Bool.not_eq_true] at hapart
      rw [hr, tighten_cons hapart.1 hapart.2] at hafter
      by_cases hp : d = '.'
      · subst hp
        simp only [read, leading_tighten, hafter, hr, after_tighten]
      · by_cases hs : d = '/'
        · subst hs
          simp only [read, leading_tighten, hafter, hr, after_tighten]
          split
          · rw [tighten_cons hapart.1 hapart.2]
          · rfl
        · refine hother ?_ ?_
          · simp [hr, hp, hs]
          · simp [hr, tighten_cons hapart.1 hapart.2, hp, hs]

/-- The positions that a text of admitted characters is scanned at do not count. -/
theorem tokensFrom_pos {cs : Text} (hcs : cs.Admitted) (pos pos' : Nat) :
    tokensFrom pos cs = tokensFrom pos' cs := by
  refine Lexeme.admitted_induction
    (P := fun cs => ∀ pos pos', tokensFrom pos cs = tokensFrom pos' cs)
    ?nil ?blank ?symbol ?literal cs hcs pos pos'
  case nil =>
    intro pos pos'
    rw [tokensFrom, tokensFrom, Lexeme.scanFrom_nil, Lexeme.scanFrom_nil]
  case blank =>
    intro c cs hc ih pos pos'
    rw [tokensFrom_blank hc, tokensFrom_blank hc, ih]
  case symbol =>
    intro c cs t hb hc ih pos pos'
    rw [tokensFrom_symbol hb hc, tokensFrom_symbol hb hc, ih]
  case literal =>
    intro c cs hb hc hstarts ih pos pos'
    rw [tokensFrom_read hb hc hstarts, tokensFrom_read hb hc hstarts]
    cases (Literal.read (c :: cs)).1.value with
    | error e => rfl
    | ok v => exact congrArg (Except.map (.number v :: ·)) (ih _ _)

theorem tokensFrom_skipBlanks {cs : Text} (hcs : cs.Admitted) (pos pos' : Nat) :
    tokensFrom pos cs.skipBlanks = tokensFrom pos' cs := by
  induction cs generalizing pos' with
  | nil => exact tokensFrom_pos hcs pos pos'
  | cons c cs ih =>
    by_cases hc : isBlank c = true
    · rw [skipBlanks_blank hc, tokensFrom_blank hc]
      exact ih (List.forall_mem_cons.1 hcs).2 (pos' + 1)
    · rw [skipBlanks_cons cs (Bool.eq_false_iff.mpr hc)]
      exact tokensFrom_pos hcs pos pos'

theorem Text.Admitted.of_solid {x y : Text} (h : solid x = solid y) (hx : x.Admitted) :
    y.Admitted := by
  intro c hc
  cases hb : isBlank c with
  | true => exact isAdmitted_of_isBlank hb
  | false =>
    have hmem : c ∈ solid x := by
      rw [h]
      exact List.mem_filter.mpr ⟨hc, by simp [hb]⟩
    exact hx c (List.mem_filter.mp hmem).1

/-- **The scan.** A text of admitted characters has the same tokens when it is tightened. -/
theorem tokensFrom_tighten {cs : Text} (hcs : cs.Admitted) (pos pos' : Nat) :
    tokensFrom pos (tighten cs) = tokensFrom pos' cs := by
  have hadmitted {cs : Text} (hcs : cs.Admitted) : (tighten cs).Admitted :=
    hcs.of_solid (solid_tighten cs).symm
  refine Lexeme.admitted_induction (P := fun cs => cs.Admitted → ∀ pos pos',
    tokensFrom pos (tighten cs) = tokensFrom pos' cs)
    ?nil ?blank ?symbol ?literal cs hcs hcs pos pos'
  case nil =>
    intro _ pos pos'
    rw [tighten, tokensFrom, tokensFrom, Lexeme.scanFrom_nil, Lexeme.scanFrom_nil]
  case blank =>
    intro c cs hc ih hcs pos pos'
    have hrest := (List.forall_mem_cons.1 hcs).2
    rw [tighten_blank hc, tokensFrom_blank hc]
    split
    · exact ih hrest pos (pos' + 1)
    · rw [tokensFrom_blank rfl]
      exact ih hrest (pos + 1) (pos' + 1)
  case symbol =>
    intro c cs t hb hc ih hcs pos pos'
    have hrest := (List.forall_mem_cons.1 hcs).2
    by_cases ha : standsAlone c = true
    · rw [tighten_alone ha, tokensFrom_symbol hb hc, tokensFrom_symbol hb hc,
        tokensFrom_skipBlanks (hadmitted hrest) (pos + 1) 0, ih hrest 0 (pos' + 1)]
    · rw [tighten_cons hb (Bool.eq_false_iff.mpr ha), tokensFrom_symbol hb hc,
        tokensFrom_symbol hb hc, ih hrest (pos + 1) (pos' + 1)]
  case literal =>
    intro c cs hb hc hstarts ih hcs pos pos'
    -- no number begins with a character that stands alone
    have ha : standsAlone c = false := by
      cases ha : standsAlone c with
      | false => rfl
      | true =>
        obtain ⟨hdigit, hpoint, -⟩ := not_number_of_standsAlone ha
        simp [Literal.starts, hdigit, hpoint] at hstarts
    have hread := Literal.read_tighten (c :: cs)
    rw [tighten_cons hb ha] at hread ⊢
    rw [tokensFrom_read hb hc hstarts, tokensFrom_read hb hc hstarts, hread]
    cases (Literal.read (c :: cs)).1.value with
    | error e => rfl
    | ok v =>
      exact congrArg (Except.map (.number v :: ·)) (ih (Lexeme.admitted_rest hcs) _ _)

/-! ## Values and workings -/

/-- What evaluation tells, but for positions and the text with its mixed numbers written out: the
value, the tokens and the tree as shown, or the error. -/
def digest : Except EvalError (Rat × Working) → Except EvalError (Rat × Text × Text) :=
  unplacedResult fun p => (p.1, p.2.tokens, p.2.tree)

/-- What evaluation tells of the tokens of a text. -/
def digestTokens (tokens : List Token) : Except EvalError (Rat × Text × Text) :=
  (Expr.parse (tokens.map fun token => ⟨token, 0⟩) 0).bind fun tree =>
    unplacedResult (fun v => (v, Token.listing tokens, tree.text)) tree.eval

/-- **Stages.** The digest of a text is that of its tokens. -/
theorem digest_explainExpanded (cs : Text) :
    digest (explainExpanded cs) =
      (unplacedResult id (tokensFrom 0 cs)).bind digestTokens := by
  rw [explainExpanded, Lexeme.scan, tokensFrom]
  cases Lexeme.scanFrom 0 cs with
  | error e => rfl
  | ok lexemes =>
    have hplaced : (lexemes.map Lexeme.token).map (fun token => (⟨token, 0⟩ : Lexeme)) =
        lexemes.map Lexeme.unplaced := by
      rw [List.map_map]
      rfl
    show digest ((Expr.parse lexemes cs.length).bind _) = digestTokens (lexemes.map Lexeme.token)
    rw [digestTokens, hplaced, parse_unplaced lexemes cs.length]
    cases Expr.parse lexemes cs.length with
    | error e => rfl
    | ok tree =>
      show digest (tree.eval.bind _) = unplacedResult _ tree.eval
      cases tree.eval <;> rfl

theorem digest_expanded_of_respaced {x y : Text} (h : Respaced x y) (hx : x.Admitted) :
    digest (explainExpanded x.expandMixed) = digest (explainExpanded y.expandMixed) := by
  -- the tokens of a text are those of its tightened form without the blanks in front
  have htokens {cs : Text} (hcs : cs.Admitted) : tokensFrom 0 cs.expandMixed =
      tokensFrom 0 (tighten (expandMixed (skipBlanks (tighten cs)))) := by
    have hexpanded := Admitted.expandMixed hcs
    have htight : (tighten cs.expandMixed).Admitted :=
      hexpanded.of_solid (solid_tighten _).symm
    rw [← skipBlanks_expandMixed, ← skipBlanks_tighten, tighten_expandMixed,
      tokensFrom_skipBlanks htight 0 0, tokensFrom_tighten hexpanded 0 0]
  have h : skipBlanks (tighten x) = skipBlanks (tighten y) := h
  have hy := hx.of_solid (Respaced.solid_eq h)
  rw [digest_explainExpanded, digest_explainExpanded, htokens hx, htokens hy, h]

/-! ## Refused characters -/

/-- The first refused character of a text, if there is one: it is no blank. -/
theorem firstRefused_map_fst (pos : Nat) (cs : Text) :
    (firstRefused pos cs).map Prod.fst = cs.solid.find? (!isAdmitted ·) := by
  induction cs generalizing pos with
  | nil => rfl
  | cons c cs ih =>
    rw [firstRefused]
    by_cases hc : isAdmitted c = true
    · rw [if_pos hc, ih (pos + 1), solid, solid, List.filter_cons]
      split
      · rw [List.find?_cons_of_neg (by simp [hc])]
      · rfl
    · have hb : isBlank c = false := Bool.eq_false_iff.mpr fun hb => hc (isAdmitted_of_isBlank hb)
      rw [if_neg hc, solid, List.filter_cons_of_pos (by simp [hb]),
        List.find?_cons_of_pos (by simp [hc])]
      rfl

/-! ## The whole evaluation -/

/-- **Layout.** Texts that differ only in blanks that part nothing have the same digest. -/
theorem digest_explain_of_respaced {x y : Text} (h : Respaced x y) :
    digest (explain x) = digest (explain y) := by
  have hrefused : (firstRefused 0 x).map Prod.fst = (firstRefused 0 y).map Prod.fst := by
    rw [firstRefused_map_fst, firstRefused_map_fst, h.solid_eq]
  cases hx : firstRefused 0 x with
  | none =>
    rw [hx] at hrefused
    have hy := Option.map_eq_none_iff.1 hrefused.symm
    have hadmitted := firstRefused_eq_none_iff.1 hx
    rw [explain_admitted hadmitted, explain_admitted (firstRefused_eq_none_iff.1 hy),
      digest_expanded_of_respaced h hadmitted]
  | some p =>
    rw [hx] at hrefused
    obtain ⟨⟨c, pos⟩, hy, hc⟩ := Option.map_eq_some_iff.1 hrefused.symm
    obtain ⟨d, pos'⟩ := p
    obtain rfl : c = d := hc
    rw [explain_refused hx, explain_refused hy]
    rfl

theorem digest_explain_collapse (text : Text) :
    digest (explain text.collapse) = digest (explain text) :=
  digest_explain_of_respaced (Respaced.collapse text)

/-- The value of a text and that of its collapsed form are one, or both are the same error. -/
theorem evaluate_collapse (text : Text) :
    unplacedResult id (evaluate text.collapse) = unplacedResult id (evaluate text) := by
  have hvalue (r : Except EvalError (Rat × Working)) :
      unplacedResult id (r.map Prod.fst) = (digest r).map Prod.fst := by
    cases r <;> rfl
  rw [evaluate, evaluate, hvalue, hvalue, digest_explain_collapse]

theorem evaluate_collapse_of_ok {text : Text} {value : Rat} (h : evaluate text = .ok value) :
    evaluate text.collapse = .ok value := by
  obtain ⟨a, b, ha, hb, hvalue⟩ | ⟨e, e', he, -⟩ :=
    exists_of_unplacedResult_eq (evaluate_collapse text).symm
  · rw [hb, ← h, ha]
    exact congrArg Except.ok hvalue.symm
  · rw [h] at he
    cases he

theorem evaluate_collapse_of_error {text : Text} {e : EvalError} (h : evaluate text = .error e) :
    ∃ e', evaluate text.collapse = .error e' ∧ e.Alike e' := by
  obtain ⟨a, b, ha, -⟩ | ⟨e₁, e', he, he', halike⟩ :=
    exists_of_unplacedResult_eq (evaluate_collapse text).symm
  · rw [h] at ha
    cases ha
  · rw [h] at he
    cases he
    exact ⟨e', he', halike⟩

/-- **Layout does not count.** A text and its words with one space between neighbours are both worth
something or both nothing. If they are, it is the same value, and their tokens and their trees are
shown alike; if not, they fail with the same error, but for its position. -/
theorem explain_collapse (text : Text) :
    (∃ value working working', explain text = .ok (value, working) ∧
      explain text.collapse = .ok (value, working') ∧
      working'.tokens = working.tokens ∧ working'.tree = working.tree) ∨
    (∃ e e', explain text = .error e ∧ explain text.collapse = .error e' ∧ e.Alike e') := by
  obtain ⟨p, p', h, h', hdigest⟩ | herror :=
    exists_of_unplacedResult_eq (digest_explain_collapse text).symm
  · obtain ⟨value, working⟩ := p
    obtain ⟨value', working'⟩ := p'
    obtain ⟨rfl, hshown⟩ := Prod.mk.inj hdigest
    obtain ⟨htokens, htree⟩ := Prod.mk.inj hshown
    exact .inl ⟨value, working, working', h, h', htokens.symm, htree.symm⟩
  · exact .inr herror

/-! ## Writing out beforehand -/

theorem expanded_of_explainExpanded {cs : Text} {value : Rat} {working : Working}
    (h : explainExpanded cs = .ok (value, working)) : working.expanded = cs := by
  rw [explainExpanded] at h
  cases hscan : Lexeme.scan cs with
  | error e =>
    rw [hscan] at h
    cases h
  | ok lexemes =>
    rw [hscan] at h
    simp only [bind, Except.bind] at h
    split at h
    · cases h
    · split at h
      · cases h
      · cases h
        rfl

theorem expanded_of_explain {text : Text} {value : Rat} {working : Working}
    (h : explain text = .ok (value, working)) :
    text.Admitted ∧ working.expanded = text.expandMixed := by
  cases hrefused : firstRefused 0 text with
  | some p =>
    rw [explain_refused hrefused] at h
    cases h
  | none =>
    have hadmitted := firstRefused_eq_none_iff.1 hrefused
    rw [explain_admitted hadmitted] at h
    exact ⟨hadmitted, expanded_of_explainExpanded h⟩

/-- **Replay.** A text of admitted characters and the same text with its mixed numbers written out
have the same value and the same working, or fail with the same error at the same position. So what
the working of a value shows as the written-out text has that value and that working itself. -/
theorem explain_expandMixed (text : Text) :
    (text.Admitted → explain text.expandMixed = explain text) ∧
    ∀ value working, explain text = .ok (value, working) →
      explain working.expanded = .ok (value, working) := by
  have hreplay (h : text.Admitted) : explain text.expandMixed = explain text := by
    rw [explain_admitted h, explain_admitted (Admitted.expandMixed h), expandMixed_expandMixed]
  refine ⟨hreplay, fun value working h => ?_⟩
  obtain ⟨hadmitted, hexpanded⟩ := expanded_of_explain h
  rw [hexpanded, hreplay hadmitted, h]

/-- `1 3/8` is shown as `(1 + 3/8)`, which has the same value and working; `1 3/8*` is refused at
the position where `(1 + 3/8)*` is. -/
theorem explain_expandMixed_eighths :
    (∃ working, explain (.ofString "1 3/8") = .ok (11 / 8, working) ∧
      working.expanded = .ofString "(1 + 3/8)" ∧
      explain (.ofString "(1 + 3/8)") = .ok (11 / 8, working)) ∧
    explain (.ofString "(1 + 3/8)*") = explain (.ofString "1 3/8*") := by
  let working : Working :=
    ⟨.ofString "(1 + 3/8)", .ofString "( 1 + [3/8] )", .ofString "(1 + [3/8])"⟩
  have hvalue : explain (.ofString "1 3/8") = .ok (11 / 8, working) := by decide +kernel
  have hadmitted : Admitted (.ofString "1 3/8*") := List.all_eq_true.1 (by decide +kernel)
  have hexpand : expandMixed (.ofString "1 3/8*") = .ofString "(1 + 3/8)*" := by decide +kernel
  have hrefused := (explain_expandMixed (.ofString "1 3/8*")).1 hadmitted
  rw [hexpand] at hrefused
  exact ⟨⟨working, hvalue, rfl, (explain_expandMixed _).2 _ _ hvalue⟩, hrefused⟩

end ExactLength
