import ExactLength.Text.Basic

/-!
# Digits

Natural numbers and integers in decimal digits, and the number that a run of digits stands for.

Results:
* `toNat_ofNat`: a number is read back from its digits.
* `isDigit_of_mem_ofNat`, `ofNat_ne_nil`: what is written is a run of digits, and never empty.
* `toNat_append`: a longer run is worth the first part times a power of ten, plus the second.
* `leading_append_after`: a text is its first run of digits and what follows.
-/

namespace ExactLength.Digits

/-- The decimal digits of a number, without a zero in front unless it is zero. -/
def ofNat (n : Nat) : Text := Nat.toDigits 10 n

/-- The decimal digits of an integer after a minus sign when it is negative. -/
def ofInt (n : Int) : Text := if n < 0 then '-' :: ofNat n.natAbs else ofNat n.natAbs

/-- The number that a run of digits stands for; an empty run is worth zero. -/
def toNat (digits : Text) : Nat := Nat.ofDigitChars 10 digits 0

/-- The power of ten that `places` digits count up to. -/
def tens (places : Nat) : Nat := Nat.pow 10 places

/-- The longest run of digits at the start of a text. -/
def leading (cs : Text) : Text := cs.takeWhile Char.isDigit

/-- What follows the longest run of digits at the start of a text. -/
def after (cs : Text) : Text := cs.dropWhile Char.isDigit

/-- A number is read back from its digits. -/
theorem toNat_ofNat (n : Nat) : toNat (ofNat n) = n :=
  Nat.ofDigitChars_toDigits (by decide) (by decide)

theorem isDigit_of_mem_ofNat {n : Nat} {c : Char} (h : c ∈ ofNat n) : c.isDigit = true :=
  Nat.isDigit_of_mem_toDigits (by decide) (by decide) h

theorem ofNat_ne_nil (n : Nat) : ofNat n ≠ [] := Nat.toDigits_ne_nil

/-- A longer run is worth the first part times a power of ten, plus the second. -/
theorem toNat_append (a b : Text) : toNat (a ++ b) = toNat a * tens b.length + toNat b := by
  simp only [toNat, Nat.ofDigitChars_append]
  rw [Nat.ofDigitChars_eq_ofDigitChars_zero, Nat.mul_comm]
  rfl

theorem leading_append_after (cs : Text) : leading cs ++ after cs = cs :=
  List.takeWhile_append_dropWhile

theorem length_after_le (cs : Text) : (after cs).length ≤ cs.length := length_dropWhile_le _ cs

theorem leading_append {ds cs : Text} (h : ∀ c ∈ ds, c.isDigit = true) :
    leading (ds ++ cs) = ds ++ leading cs :=
  List.takeWhile_append_of_pos h

theorem after_append {ds cs : Text} (h : ∀ c ∈ ds, c.isDigit = true) :
    after (ds ++ cs) = after cs :=
  List.dropWhile_append_of_pos h

theorem leading_eq_self {ds : Text} (h : ∀ c ∈ ds, c.isDigit = true) : leading ds = ds := by
  simpa [leading] using @leading_append ds [] h

theorem after_eq_nil {ds : Text} (h : ∀ c ∈ ds, c.isDigit = true) : after ds = [] := by
  simpa [after] using @after_append ds [] h

theorem leading_cons {c : Char} {cs : Text} (h : c.isDigit = true) :
    leading (c :: cs) = c :: leading cs := by
  simp [leading, h]

theorem after_cons {c : Char} {cs : Text} (h : c.isDigit = true) : after (c :: cs) = after cs := by
  simp [after, h]

end ExactLength.Digits
