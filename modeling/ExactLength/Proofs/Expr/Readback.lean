import ExactLength.Proofs.Expr.Bounds
import ExactLength.Proofs.Surface.Evaluation

/-!
# Reading a printed expression back

The text of a tree, without the brackets that set off its fractions, can be typed. It has a pair of
parentheses around each operator and a sign in front of each opposite, so the tokens are nested as
the tree is, and the parser reads the tree back: within its bounds, and beyond them it says so.

Results:
* `plainText_binary`, `plainText_neg`, `plainText_lit`: what is printed of each node.
* `scans_plainText`, `derives_tokens`: the tokens of the text, and what they stand for.
* `parse_plainText`: the text is read back as the tree.
-/

namespace ExactLength

open Text

/-- A character that sets a number off in a tree. -/
def isBracket (c : Char) : Bool := c == '[' || c == ']'

namespace Expr

/-- The numbers of a tree, from left to right. -/
def leaves : Expr → List Rat
  | lit r => [r]
  | neg e => e.leaves
  | binary _ a b => a.leaves ++ b.leaves

/-- The most operators and changes of sign on a path from the root to a number. -/
def height : Expr → Nat
  | lit _ => 0
  | neg e => e.height + 1
  | binary _ a b => max a.height b.height + 1

/-- The text of a tree without the brackets around its fractions. -/
def plainText (e : Expr) : Text := e.text.filter (!isBracket ·)

/-- The tokens that a tree is printed as. -/
def tokens : Expr → List Token
  | lit r => [.number r]
  | neg e => .op .sub :: e.tokens
  | binary o a b => .lparen :: (a.tokens ++ .op o :: b.tokens) ++ [.rparen]

end Expr

/-! ## Printing -/

theorem Fraction.filter_text {r : Rat} (h : 0 ≤ r) :
    (text r).filter (!isBracket ·) = text r := by
  have hdigits (n : Nat) : (Digits.ofNat n).filter (!isBracket ·) = Digits.ofNat n := by
    refine List.filter_eq_self.2 fun c hc => ?_
    have hd := Digits.isDigit_of_mem_ofNat hc
    have hnot : c ≠ '[' ∧ c ≠ ']' := by
      constructor <;> rintro rfl <;> cases hd
    simp [isBracket, hnot]
  rw [text_of_nonneg h]
  split
  · exact hdigits _
  · rw [List.filter_append, List.filter_cons_of_pos (by decide), hdigits, hdigits]

theorem Fraction.filter_bracketed {r : Rat} (h : 0 ≤ r) :
    ('[' :: text r ++ [']']).filter (!isBracket ·) = text r := by
  have hopen : isBracket '[' = true := rfl
  have hclose : isBracket ']' = true := rfl
  rw [List.filter_append, List.filter_cons_of_neg (by simp [hopen]), filter_text h,
    List.filter_cons_of_neg (by simp [hclose]), List.filter_nil, List.append_nil]

namespace Expr

theorem plainText_lit {r : Rat} (h : 0 ≤ r) : (lit r).plainText = Fraction.text r := by
  rw [plainText, text, literalText]
  split
  · exact Fraction.filter_bracketed h
  · exact Fraction.filter_text h

theorem plainText_neg (e : Expr) : (neg e).plainText = '-' :: e.plainText := rfl

theorem plainText_binary (o : Operator) (a b : Expr) :
    (binary o a b).plainText =
      '(' :: (a.plainText ++ ' ' :: o.symbol :: ' ' :: b.plainText) ++ [')'] := by
  have hinfix : [' ', o.symbol, ' '].filter (!isBracket ·) = [' ', o.symbol, ' '] := by
    cases o <;> decide
  have hopen : ('(' :: a.text).filter (!isBracket ·) = '(' :: a.plainText := rfl
  have hclose : [')'].filter (!isBracket ·) = [')'] := rfl
  rw [plainText, text, List.filter_append, List.filter_append, List.filter_append, hinfix, hopen,
    hclose, ← plainText]
  simp

end Expr

/-! ## Scanning -/

theorem Fraction.scans_text {r : Rat} (h : 0 ≤ r) : Scans (text r) false [.number r] := by
  have hnum : (Run.ofNat r.num.natAbs).value = r.num := by
    rw [Run.value_ofNat, ← Rat.intCast_natCast, Int.natAbs_of_nonneg (Rat.num_nonneg.2 h)]
  have hself := Rat.mkRat_self r
  rw [text_of_nonneg h]
  split
  · next hint =>
    have hvalue : (r.num : Rat) = r := by
      rw [isInteger, beq_iff_eq] at hint
      rwa [hint, Rat.mkRat_one] at hself
    have hscans := (Run.ofNat r.num.natAbs).scans_integer
    rw [hnum, hvalue] at hscans
    exact hscans
  · have hden : (Run.ofNat r.den).value ≠ 0 := by
      rw [Run.value_ofNat]
      exact mt Rat.natCast_eq_zero_iff.1 r.den_nz
    have hscans := (Run.ofNat r.num.natAbs).scans_fraction (Run.ofNat r.den)
    rw [Rat.mkRat_eq_div] at hself
    rw [hnum, decide_eq_false hden, Run.value_ofNat, hself] at hscans
    exact hscans

namespace Expr

/-- **Scanning.** The text of a tree is scanned as its tokens. -/
theorem scans_plainText {e : Expr} (h : ∀ r ∈ e.leaves, 0 ≤ r) :
    Scans e.plainText false e.tokens := by
  induction e with
  | lit r =>
    have hr : 0 ≤ r := h r (List.mem_singleton_self r)
    rw [plainText_lit hr]
    exact Fraction.scans_text hr
  | neg e ih =>
    rw [plainText_neg]
    exact (ih h).symbol rfl rfl
  | binary o a b iha ihb =>
    obtain ⟨ha, hb⟩ := List.forall_mem_append.1 h
    rw [plainText_binary]
    exact ((iha ha).operator o (ihb hb)).enclosed

/-! ## Parsing -/

/-- **Derivation.** The tokens of a tree stand for it. They nest as deep as it is high and have its
operators. -/
theorem derives_tokens (e : Expr) : Derives .factor e.tokens e.height e.operators e := by
  induction e with
  | lit r => exact .number r
  | neg e ih => exact .minus ih
  | binary o a b iha ihb => exact .paren (.binary o iha ihb)

/-- **Reading back.** The text of a tree without negative numbers is scanned. It is parsed as the
tree if no path of it has more than 256 operators and changes of sign and it has at most 1024
operators, and is too deep otherwise. -/
theorem parse_plainText {e : Expr} (h : ∀ r ∈ e.leaves, 0 ≤ r) :
    ∃ lexemes, Lexeme.scan e.plainText = .ok lexemes ∧
      (e.height ≤ 256 ∧ e.operators ≤ 1024 →
        parse lexemes e.plainText.length = .ok e) ∧
      (¬ (e.height ≤ 256 ∧ e.operators ≤ 1024) →
        ∃ pos, parse lexemes e.plainText.length = .error (.tooDeep pos)) := by
  obtain ⟨lexemes, hscan, htokens⟩ := (scans_plainText h).exists_scan_eq_ok
  have hderives : Derives .sum (lexemes.map Lexeme.token) e.height e.operators e := by
    rw [htokens]
    exact .sum (.term e.derives_tokens)
  refine ⟨lexemes, hscan, fun hin => ?_, fun hbeyond => ?_⟩
  · exact parse_of_derives hderives hin.1 hin.2 _
  · exact parse_of_derives_beyond hderives hbeyond _

/-- `--((1/2 / 3) - 4)` is a change of sign twice, around a difference, around a quotient of the
fraction `1/2`. -/
theorem parse_plainText_quotient :
    let e := neg (neg (binary .sub (binary .div (lit (1 / 2)) (lit 3)) (lit 4)))
    e.plainText = ['-', '-', '(', '(', '1', '/', '2', ' ', '/', ' ', '3', ')', ' ', '-', ' ', '4',
      ')'] ∧
    ∃ lexemes, Lexeme.scan e.plainText = .ok lexemes ∧ parse lexemes 17 = .ok e := by
  intro e
  have htext : e.plainText = ['-', '-', '(', '(', '1', '/', '2', ' ', '/', ' ', '3', ')', ' ', '-',
      ' ', '4', ')'] := by
    decide +kernel
  have hlength : e.plainText.length = 17 := by rw [htext]; rfl
  obtain ⟨lexemes, hscan, hparse, -⟩ := @parse_plainText e (by decide +kernel)
  rw [hlength] at hparse
  exact ⟨htext, lexemes, hscan, hparse (by decide)⟩

end Expr

end ExactLength
