import ExactLength.Token.Literal

/-!
# Scanning

The tokens of a text from left to right: blanks separate, a sign is a token by itself, and the
longest literal is a number. The scan ends at the first character that starts none of these, and at
the first fraction over zero.

Results:
* `scanFrom_nil`, `scanFrom_blank`, `scanFrom_symbol`, `scanFrom_literal`, `scanFrom_invalid`: what
  the scan does at each kind of character.
-/

namespace ExactLength

namespace Lexeme

/-- The tokens of a text whose first character has the position `pos`. -/
def scanFrom (pos : Nat) : Text → Except EvalError (List Lexeme)
  | [] => .ok []
  | c :: cs =>
    if isBlank c then scanFrom (pos + 1) cs
    else match Token.ofSymbol? c with
      | some token => do
        let lexemes ← scanFrom (pos + 1) cs
        return ⟨token, pos⟩ :: lexemes
      | none =>
        if Literal.starts c then do
          let literal := (Literal.read (c :: cs)).1
          let value ← literal.value
          let lexemes ← scanFrom (pos + literal.text.length) (Literal.read (c :: cs)).2
          return ⟨.number value, pos⟩ :: lexemes
        else .error (.invalidCharacter c pos)
termination_by cs => cs.length
decreasing_by
  · exact Nat.lt_succ_self _
  · exact Nat.lt_succ_self _
  · exact Literal.length_rest_lt ‹_›

/-- The tokens of a text (`tokenize`). -/
def scan (cs : Text) : Except EvalError (List Lexeme) := scanFrom 0 cs

theorem scanFrom_nil (pos : Nat) : scanFrom pos [] = .ok [] := by
  rw [scanFrom]

/-- A blank only moves the position. -/
theorem scanFrom_blank {pos : Nat} {c : Char} {cs : Text} (h : isBlank c = true) :
    scanFrom pos (c :: cs) = scanFrom (pos + 1) cs := by
  rw [scanFrom, if_pos h]

theorem scanFrom_symbol {pos : Nat} {c : Char} {cs : Text} {t : Token} (hb : isBlank c = false)
    (h : Token.ofSymbol? c = some t) :
    scanFrom pos (c :: cs) = (scanFrom (pos + 1) cs).map (⟨t, pos⟩ :: ·) := by
  rw [scanFrom, hb, h]
  cases scanFrom (pos + 1) cs <;> rfl

/-- A number is the longest literal. -/
theorem scanFrom_literal {pos : Nat} {c : Char} {cs : Text} (hb : isBlank c = false)
    (hs : Token.ofSymbol? c = none) (h : Literal.starts c = true) :
    scanFrom pos (c :: cs) =
      (Literal.read (c :: cs)).1.value.bind fun v =>
        (scanFrom (pos + (Literal.read (c :: cs)).1.text.length) (Literal.read (c :: cs)).2).map
          (⟨.number v, pos⟩ :: ·) := by
  rw [scanFrom, hb, hs]
  simp only [Bool.false_eq_true, if_false, h, if_true]
  cases (Literal.read (c :: cs)).1.value with
  | error e => rfl
  | ok v => cases scanFrom _ (Literal.read (c :: cs)).2 <;> rfl

/-- Every other character ends the scan. -/
theorem scanFrom_invalid {pos : Nat} {c : Char} {cs : Text} (hb : isBlank c = false)
    (hs : Token.ofSymbol? c = none) (h : Literal.starts c = false) :
    scanFrom pos (c :: cs) = .error (.invalidCharacter c pos) := by
  rw [scanFrom, hb, hs]
  simp [h]

end Lexeme

end ExactLength
