import ExactLength.Number.Decimal

/-!
# Number literals

A number as it is written in an expression: a decimal without a sign, or a fraction of two runs of
digits with nothing between them and the stroke.

Results:
* `text_read`: the literal read from a text and the rest are the text.
* `length_rest_lt`: a literal takes at least one character; the scanner ends by it.
-/

namespace ExactLength

/-- A number as written. -/
inductive Literal
  /-- Digits, or digits and a point and the digits behind it. -/
  | decimal (whole : Text) (places : Option Text)
  /-- Digits, a stroke and digits. -/
  | fraction (numerator denominator : Text)
  deriving DecidableEq, Repr

namespace Literal

/-- The characters of a literal. -/
def text : Literal → Text
  | decimal whole none => whole
  | decimal whole (some places) => whole ++ '.' :: places
  | fraction numerator denominator => numerator ++ '/' :: denominator

/-- The number a literal stands for. Only a fraction can fail, when its denominator is zero. -/
def value : Literal → Except EvalError Rat
  | decimal whole places => .ok (Decimal.value whole (places.getD []))
  | fraction numerator denominator =>
    Fraction.ofInts (Digits.toNat numerator) (Digits.toNat denominator)

/-- The characters that a literal begins with. -/
def starts (c : Char) : Bool := c.isDigit || c == '.'

/-- The longest literal at the start of a text, and the rest. A second point is left for the next
literal, and so is a stroke unless it stands between two digits. -/
def read (cs : Text) : Literal × Text :=
  let whole := Digits.leading cs
  match Digits.after cs with
  | '.' :: rest => (decimal whole (some (Digits.leading rest)), Digits.after rest)
  | '/' :: rest =>
    if Digits.leading rest = [] then (decimal whole none, '/' :: rest)
    else (fraction whole (Digits.leading rest), Digits.after rest)
  | rest => (decimal whole none, rest)

/-- The literal and the rest are the text. -/
theorem text_read (cs : Text) : (read cs).1.text ++ (read cs).2 = cs := by
  have h := Digits.leading_append_after cs
  unfold read
  split
  · next rest hr => simp [text, Digits.leading_append_after, ← hr, h]
  · next rest hr =>
    split
    · simp [text, ← hr, h]
    · simp [text, Digits.leading_append_after, ← hr, h]
  · simp [text, h]

theorem length_rest_lt {c : Char} {cs : Text} (h : starts c = true) :
    (read (c :: cs)).2.length < (c :: cs).length := by
  unfold read
  by_cases hd : c.isDigit = true
  · rw [Digits.after_cons hd, List.length_cons]
    have h₁ := Digits.length_after_le cs
    split
    · next rest hr =>
      rw [hr, List.length_cons] at h₁
      have h₂ := Digits.length_after_le rest
      simp only
      omega
    · next rest hr =>
      rw [hr, List.length_cons] at h₁
      have h₂ := Digits.length_after_le rest
      split <;> simp only [List.length_cons] <;> omega
    · simp only
      omega
  · have hc : c = '.' := by simpa [starts, hd] using h
    subst hc
    have h₂ := Digits.length_after_le cs
    simp only [Digits.after, List.dropWhile_cons, hd, Bool.false_eq_true, if_false,
      List.length_cons] at h₂ ⊢
    omega

end Literal

end ExactLength
