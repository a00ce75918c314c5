import Mathlib.Data.List.Basic
import ExactLength.Proofs.Token.Alphabet

/-!
# Texts side by side

Two texts with a blank between them are scanned one after the other, each as it is by itself. No
number goes on across a blank, not even if the first text leaves off at a stroke behind digits or
the second one begins with a stroke. The tokens of the second text, and the character that it may be
refused for, stand further on by the length of the first text and the blank.

Results:
* `scanFrom_add`: the same tokens, or the same error, further on in a text.
* `scanFrom_append_blank`: a blank cuts the scan.
* `scan_append_blank`: the scan of two texts with a blank between them.
-/

namespace ExactLength

/-- The error at a place `n` characters further on. A division by zero has no place. -/
def EvalError.shift (n : Nat) : EvalError → EvalError
  | divisionByZero => divisionByZero
  | invalidCharacter ch pos => invalidCharacter ch (pos + n)
  | malformed found pos => malformed found (pos + n)
  | unmatchedParenthesis pos => unmatchedParenthesis (pos + n)
  | trailingInput found pos => trailingInput found (pos + n)
  | tooDeep pos => tooDeep (pos + n)

namespace Lexeme

/-- The token at a place `n` characters further on. -/
def shift (n : Nat) (l : Lexeme) : Lexeme := ⟨l.token, l.pos + n⟩

/-- What is scanned `n` characters further on. -/
def shiftScan (n : Nat) (result : Except EvalError (List Lexeme)) :
    Except EvalError (List Lexeme) :=
  (result.map (List.map (shift n))).mapError (EvalError.shift n)

theorem shiftScan_cons (n : Nat) (l : Lexeme) (result : Except EvalError (List Lexeme)) :
    shiftScan n (result.map (l :: ·)) = (shiftScan n result).map (l.shift n :: ·) := by
  cases result <;> rfl

/-- **Further on in a text** there are the same tokens, or there is the same error. -/
theorem scanFrom_add (pos n : Nat) (cs : Text) :
    scanFrom (pos + n) cs = shiftScan n (scanFrom pos cs) := by
  refine scan_induction
    (P := fun cs => ∀ pos, scanFrom (pos + n) cs = shiftScan n (scanFrom pos cs))
    ?nil ?blank ?symbol ?literal ?refused cs pos
  case nil =>
    intro pos
    rw [scanFrom_nil, scanFrom_nil]
    rfl
  case blank =>
    intro c cs hb ih pos
    rw [scanFrom_blank hb, scanFrom_blank hb, Nat.add_right_comm, ih]
  case symbol =>
    intro c cs t hb ht ih pos
    rw [scanFrom_symbol hb ht, scanFrom_symbol hb ht, Nat.add_right_comm, ih, shiftScan_cons]
    rfl
  case literal =>
    intro c cs hb ht hs ih pos
    rw [scanFrom_literal hb ht hs, scanFrom_literal hb ht hs]
    cases hv : (Literal.read (c :: cs)).1.value with
    | error e =>
      rw [Literal.value_eq_error hv]
      rfl
    | ok v =>
      simp only [Except.bind]
      rw [Nat.add_right_comm, ih, shiftScan_cons]
      rfl
  case refused =>
    intro c cs hc pos
    obtain ⟨hb, ht, hs⟩ := not_isAdmitted_iff.mp hc
    rw [scanFrom_invalid hb ht hs, scanFrom_invalid hb ht hs]
    rfl

/-- **A blank** cuts the scan: no number goes on across it. -/
theorem scanFrom_append_blank {w : Char} (hw : isBlank w = true) (s t : Text) (pos : Nat) :
    scanFrom pos (s ++ w :: t) = (scanFrom pos s).bind fun lexemes =>
      (scanFrom (pos + s.length + 1) t).map (lexemes ++ ·) := by
  have hpoint : w ≠ '.' := by
    rintro rfl
    cases hw
  have hstroke : w ≠ '/' := by
    rintro rfl
    cases hw
  rw [scanFrom_append_stop (isDigit_of_isBlank hw) hpoint hstroke, scanFrom_blank hw]

/-- **Two texts** with a blank between them are scanned one after the other. An error of the first
text is the error of both, also if the second one has another. If the first text is scanned, the
tokens of the second one follow at their places, or its error stands at its place. -/
theorem scan_append_blank {w : Char} (hw : isBlank w = true) (s t : Text) :
    (∀ e, scan s = .error e → scan (s ++ w :: t) = .error e) ∧
    (∀ a b, scan s = .ok a → scan t = .ok b →
      scan (s ++ w :: t) = .ok (a ++ b.map (shift (s.length + 1)))) ∧
    ∀ a e, scan s = .ok a → scan t = .error e →
      scan (s ++ w :: t) = .error (e.shift (s.length + 1)) := by
  have hcut : scan (s ++ w :: t) = (scan s).bind fun lexemes =>
      (shiftScan (s.length + 1) (scan t)).map (lexemes ++ ·) := by
    rw [scan, scanFrom_append_blank hw, Nat.add_assoc, scanFrom_add 0 (s.length + 1)]
    rfl
  refine ⟨fun e hs => ?_, fun a b hs ht => ?_, fun a e hs ht => ?_⟩
  · rw [hcut, hs]
    rfl
  · rw [hcut, hs, ht]
    rfl
  · rw [hcut, hs, ht]
    rfl

/-- A stroke at the end of a text and a digit behind a wide blank make no fraction, a stroke behind
the blank is no part of one either, and what is behind an error does not count. -/
theorem scan_append_blank_strokes :
    isBlank '\u3000' = true ∧
    scan ['3', '/', '\u3000', '4'] = .ok [⟨.number 3, 0⟩, ⟨.op .div, 1⟩, ⟨.number 4, 3⟩] ∧
    scan ['3', '/', '\u3000', '/', 'a'] = .error (.invalidCharacter 'a' 4) ∧
    scan ['5', '/', '0', '\u3000', 'a'] = .error .divisionByZero := by
  have hw : isBlank '\u3000' = true := rfl
  have hopen : scan ['3', '/'] = .ok [⟨.number 3, 0⟩, ⟨.op .div, 1⟩] := by decide +kernel
  have hdigit : scan ['4'] = .ok [⟨.number 4, 0⟩] := by decide +kernel
  have hrefused : scan ['/', 'a'] = .error (.invalidCharacter 'a' 1) := by decide +kernel
  have hzero : scan ['5', '/', '0'] = .error .divisionByZero := by decide +kernel
  exact ⟨hw, (scan_append_blank hw _ _).2.1 _ _ hopen hdigit,
    (scan_append_blank hw _ _).2.2 _ _ hopen hrefused,
    (scan_append_blank hw _ ['a']).1 _ hzero⟩

end Lexeme

end ExactLength
