import ExactLength.MixedNumber
import ExactLength.Token.Scanner
import ExactLength.Expr.Parser
import ExactLength.Expr.Printer

/-!
# Evaluation

From a text to its exact value: its characters are checked, its mixed numbers written out, its
tokens scanned, their tree parsed and evaluated. The first step that fails tells why. A refused
character is reported where it stands in the text itself, before anything is written out.

Results:
* `firstRefused_eq_none_iff`: the check passes when every character is admitted.
* `explain_refused`, `explain_admitted`: a refused character is the first error; otherwise the text
  is worth what its written-out form is worth.
-/

namespace ExactLength

/-- A character that expressions are made of (`est_caractere_admis`). -/
def isAdmitted (c : Char) : Bool :=
  c.isDigit || isBlank c || ['.', '+', '-', '*', '/', '(', ')'].contains c

/-- The first character that is not admitted, and its position; the text starts at `pos`. -/
def firstRefused (pos : Nat) : Text → Option (Char × Nat)
  | [] => none
  | c :: cs => if isAdmitted c then firstRefused (pos + 1) cs else some (c, pos)

/-- How a text was read: its written-out form, its tokens and its tree, as shown to the user
(`Demarche`). -/
structure Working where
  expanded : Text
  tokens : Text
  tree : Text
  deriving DecidableEq, Repr

/-- Nothing to show. -/
def Working.empty : Working := ⟨[], [], []⟩

/-- The value and the working of a text without mixed numbers. -/
def explainExpanded (expanded : Text) : Except EvalError (Rat × Working) := do
  let lexemes ← Lexeme.scan expanded
  let tree ← Expr.parse lexemes expanded.length
  let value ← tree.eval
  return (value, ⟨expanded, Token.listing (lexemes.map Lexeme.token), tree.text⟩)

/-- The value and the working of a text (`evaluate_avec_demarche`). -/
def explain (text : Text) : Except EvalError (Rat × Working) :=
  match firstRefused 0 text with
  | some (c, pos) => .error (.invalidCharacter c pos)
  | none => explainExpanded text.expandMixed

/-- The value of a text (`evaluate`). -/
def evaluate (text : Text) : Except EvalError Rat := (explain text).map Prod.fst

theorem firstRefused_eq_none_iff {pos : Nat} {cs : Text} :
    firstRefused pos cs = none ↔ ∀ c ∈ cs, isAdmitted c = true := by
  induction cs generalizing pos with
  | nil => simp [firstRefused]
  | cons c cs ih =>
    rw [firstRefused]
    split
    · next h => simp [ih, h]
    · next h => simp [h]

theorem explain_refused {text : Text} {c : Char} {pos : Nat}
    (h : firstRefused 0 text = some (c, pos)) :
    explain text = .error (.invalidCharacter c pos) := by
  rw [explain, h]

/-- A text of admitted characters is worth what its written-out form is worth. -/
theorem explain_admitted {text : Text} (h : ∀ c ∈ text, isAdmitted c = true) :
    explain text = explainExpanded text.expandMixed := by
  rw [explain, firstRefused_eq_none_iff.2 h]

end ExactLength
