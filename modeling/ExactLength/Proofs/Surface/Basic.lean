import ExactLength.Evaluation
import ExactLength.Proofs.MixedNumber.Reading

/-!
# Expressions as they are written

An expression in the form a user types it: numbers in five forms, put together by operators, signs
and parentheses. It has a text and, read as arithmetic, a value. How deep it nests and how many
operators it has are counted in the form with its mixed numbers written out.

Results:
* `admitted_text`: the text has admitted characters only.
-/

namespace ExactLength

/-- A run of digits. -/
structure Run where
  digits : Text
  isRun : Digits.IsRun digits

/-- The digits of a number. -/
def Run.ofNat (n : Nat) : Run :=
  ⟨Digits.ofNat n, Digits.ofNat_ne_nil n, fun _ => Digits.isDigit_of_mem_ofNat⟩

/-- The number that a run of digits stands for. -/
def Run.value (r : Run) : Rat := (Digits.toNat r.digits : Nat)

theorem Run.value_ofNat (n : Nat) : (Run.ofNat n).value = n := by
  rw [value, ofNat, Digits.toNat_ofNat]

/-- At least one blank. -/
structure Gap where
  blanks : Text
  isGap : MixedNumber.Joint.blanks.Written blanks

/-- One space. -/
def Gap.space : Gap := ⟨[' '], List.cons_ne_nil _ _, List.forall_mem_singleton.2 rfl⟩

/-- A number as it is written. -/
inductive Leaf
  /-- As in `12`. -/
  | integer (whole : Run)
  /-- As in `1.25`. -/
  | decimal (whole places : Run)
  /-- As in `3/8`. -/
  | fraction (numerator denominator : Run)
  /-- As in `1 3/8`. -/
  | spaced (whole : Run) (gap : Gap) (numerator denominator : Run)
  /-- As in `1-3/8`. -/
  | dashed (whole numerator denominator : Run)

namespace Leaf

/-- The three runs of a mixed number. -/
def mixed (whole numerator denominator : Run) : MixedNumber :=
  ⟨whole.digits, numerator.digits, denominator.digits⟩

/-- The characters of a number. -/
def text : Leaf → Text
  | integer n => n.digits
  | decimal n f => n.digits ++ '.' :: f.digits
  | fraction n d => n.digits ++ '/' :: d.digits
  | spaced n gap d e => n.digits ++ gap.blanks ++ d.digits ++ '/' :: e.digits
  | dashed n d e => n.digits ++ '-' :: d.digits ++ '/' :: e.digits

/-- The exact value of a number; it says nothing about a number with a zero denominator. -/
def value : Leaf → Rat
  | integer n => n.value
  | decimal n f => n.value + f.value / 10 ^ f.digits.length
  | fraction n d => n.value / d.value
  | spaced n _ d e | dashed n d e => n.value + d.value / e.value

/-- The denominator, where there is one, is zero. -/
def zeroDenominator : Leaf → Bool
  | integer _ | decimal _ _ => false
  | fraction _ d => d.value = 0
  | spaced _ _ _ e | dashed _ _ e => e.value = 0

/-- The number of digits behind a point. -/
def placeCount : Leaf → Nat
  | decimal _ f => f.digits.length
  | integer _ | fraction _ _ | spaced _ _ _ _ | dashed _ _ _ => 0

/-- A mixed number is written out as a sum in parentheses. -/
def isMixed : Leaf → Bool
  | integer _ | decimal _ _ | fraction _ _ => false
  | spaced _ _ _ _ | dashed _ _ _ => true

end Leaf

/-- The right operand of a difference stands in parentheses, that of another operator does not. -/
def Operator.right {α : Type} (o : Operator) (opening closing : α) (operand : List α) : List α :=
  if o = sub then opening :: operand ++ [closing] else operand

/-- An expression as it is written. -/
inductive Surface
  | leaf (number : Leaf)
  /-- As in `(x + y)`, `(x - (y))`, `(x * y)` and `(x / y)`. -/
  | binary (o : Operator) (x y : Surface)
  /-- As in `-(x)`. -/
  | minus (x : Surface)
  /-- As in `+x`. -/
  | plus (x : Surface)

namespace Surface

/-- The text of an expression, with its numbers written as `leafText` says. -/
def textWith (leafText : Leaf → Text) : Surface → Text
  | leaf l => leafText l
  | binary o x y =>
    '(' :: (x.textWith leafText ++ ' ' :: o.symbol :: ' ' :: o.right '(' ')' (y.textWith leafText)) ++
      [')']
  | minus x => '-' :: '(' :: x.textWith leafText ++ [')']
  | plus x => '+' :: x.textWith leafText

/-- The text of an expression. -/
def text (t : Surface) : Text := t.textWith Leaf.text

/-- The exact value of an expression; it says nothing where something is divided by zero. -/
def value : Surface → Rat
  | leaf l => l.value
  | binary o x y => o.result x.value y.value
  | minus x => -x.value
  | plus x => x.value

/-- Some number in the expression has a zero denominator. -/
def zeroDenominator : Surface → Bool
  | leaf l => l.zeroDenominator
  | binary _ x y => x.zeroDenominator || y.zeroDenominator
  | minus x | plus x => x.zeroDenominator

/-- Some divisor in the expression is zero. -/
def zeroDivisor : Surface → Bool
  | leaf _ => false
  | binary o x y => x.zeroDivisor || y.zeroDivisor || (o = .div && y.value = 0)
  | minus x | plus x => x.zeroDivisor

/-- The most digits behind a point that some number in the expression has. -/
def placeCount : Surface → Nat
  | leaf l => l.placeCount
  | binary _ x y => max x.placeCount y.placeCount
  | minus x | plus x => x.placeCount

/-- How deep signs and parentheses nest, with those of the mixed numbers written out. -/
def nesting : Surface → Nat
  | leaf l => if l.isMixed then 1 else 0
  | binary o x y => max x.nesting (if o = .sub then y.nesting + 1 else y.nesting) + 1
  | minus x => x.nesting + 2
  | plus x => x.nesting + 1

/-- The number of binary operators, with those of the mixed numbers written out. -/
def operators : Surface → Nat
  | leaf l => if l.isMixed then 1 else 0
  | binary _ x y => x.operators + y.operators + 1
  | minus x | plus x => x.operators

end Surface

/-! ## Admitted characters -/

/-- A text of admitted characters. -/
def Text.Admitted (cs : Text) : Prop := ∀ c ∈ cs, isAdmitted c = true

namespace Text

variable {cs ds : Text}

theorem admitted_nil : Admitted [] := fun _ h => by cases h

theorem Admitted.cons {c : Char} (h : cs.Admitted) (hc : isAdmitted c = true) :
    Admitted (c :: cs) :=
  List.forall_mem_cons.2 ⟨hc, h⟩

theorem Admitted.append (hcs : cs.Admitted) (hds : ds.Admitted) : Admitted (cs ++ ds) :=
  List.forall_mem_append.2 ⟨hcs, hds⟩

theorem Admitted.enclosed (h : cs.Admitted) : Admitted ('(' :: cs ++ [')']) :=
  (h.cons rfl).append (admitted_nil.cons rfl)

end Text

theorem isAdmitted_of_isBlank {c : Char} (h : isBlank c = true) : isAdmitted c = true := by
  rw [isAdmitted, h, Bool.or_true, Bool.true_or]

theorem Text.Blank.admitted {g : Text} (h : g.Blank) : g.Admitted :=
  fun c hc => isAdmitted_of_isBlank (h c hc)

theorem Run.admitted (r : Run) : r.digits.Admitted := by
  intro c hc
  simp [isAdmitted, r.isRun.isDigit c hc]

theorem Gap.admitted (g : Gap) : g.blanks.Admitted := Text.Blank.admitted g.isGap.2

theorem Leaf.admitted_text (l : Leaf) : l.text.Admitted := by
  cases l with
  | integer n => exact n.admitted
  | decimal n f => exact n.admitted.append (f.admitted.cons rfl)
  | fraction n d => exact n.admitted.append (d.admitted.cons rfl)
  | spaced n gap d e =>
    exact ((n.admitted.append gap.admitted).append d.admitted).append (e.admitted.cons rfl)
  | dashed n d e => exact (n.admitted.append (d.admitted.cons rfl)).append (e.admitted.cons rfl)

/-- Every character of a written expression is admitted. -/
theorem Surface.admitted_text (t : Surface) : t.text.Admitted := by
  induction t with
  | leaf l => exact l.admitted_text
  | binary o x y ihx ihy =>
    have ho : isAdmitted o.symbol = true := by cases o <;> rfl
    have hy : Text.Admitted (o.right '(' ')' y.text) := by
      unfold Operator.right
      split
      · exact ihy.enclosed
      · exact ihy
    exact (ihx.append (((hy.cons rfl).cons ho).cons rfl)).enclosed
  | minus x ih => exact ih.enclosed.cons rfl
  | plus x ih => exact ih.cons rfl

end ExactLength
