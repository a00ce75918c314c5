import ExactLength.Proofs.Length.InchParts
import ExactLength.Proofs.Length.Suffix
import ExactLength.Proofs.Number.LowestTerms
import ExactLength.Proofs.Surface.Signed
import ExactLength.Proofs.Text.Squeeze

/-!
# Reading inch fractions back

What is shown for an amount of inches is a number that can be typed: whole inches, a fraction in
lowest terms or both, behind one minus sign for the whole. It is worth the amount shown, by itself
and with an inch mark behind it.

Results:
* `text_eq_signedText`: the text is a written number behind a sign.
* `evaluate_text_of_lt`: the text is worth the amount that is shown.
* `ofText_text_append_mark`: with an inch mark it is that length.
* `inchText_readable`: what is shown at the nearest 1/N can be typed back.
-/

namespace ExactLength

open Digits Text Fraction

/-! ## Fractions of an inch -/

namespace Fraction

theorem den_mkRat_ne_one {n d : Nat} (hne : n ≠ 0) (hlt : n < d) : (mkRat n d).den ≠ 1 := by
  have hproper := (Reduced.of_mkRat n (Nat.ne_of_gt (Nat.zero_lt_of_lt hlt))).proper hne hlt
  omega

theorem natAbs_num_div_den (n d : Nat) :
    ((mkRat n d).num.natAbs : Rat) / (mkRat n d).den = (n : Rat) / d := by
  have hnum : ((mkRat n d).num.natAbs : Rat) = (mkRat n d).num := by
    rw [← Rat.intCast_natCast, Int.natAbs_of_nonneg (num_mkRat_nonneg n d)]
  rw [hnum, ← Rat.mkRat_eq_div, Rat.mkRat_self, Rat.mkRat_eq_div, Rat.intCast_natCast]

end Fraction

theorem Run.isWord (r : Run) : r.digits.IsWord := r.isRun.isWord

theorem Leaf.not_blank_text (l : Leaf) : ¬ l.text.Blank := by
  have hrun (n : Run) (cs : Text) : ¬ Blank (n.digits ++ cs) :=
    fun h => n.isWord.not_blank (List.forall_mem_append.1 h).1
  cases l with
  | integer n => exact n.isWord.not_blank
  | decimal n f => exact hrun n _
  | fraction n d => exact hrun n _
  | spaced n gap d e =>
    rw [text, List.append_assoc, List.append_assoc]
    exact hrun n _
  | dashed n d e =>
    rw [text, List.append_assoc]
    exact hrun n _

theorem Leaf.not_blank_signedText (negative : Bool) (l : Leaf) :
    ¬ (l.signedText negative).Blank := by
  cases negative with
  | true => exact fun h => l.not_blank_text (List.forall_mem_cons.1 h).2
  | false => exact l.not_blank_text

namespace InchFraction

/-- The amount as a written number, without its sign. -/
def number (f : InchFraction) : Leaf :=
  let fraction := mkRat f.parts f.denominator
  if f.parts = 0 then .integer (.ofNat f.whole)
  else if f.whole = 0 then .fraction (.ofNat fraction.num.natAbs) (.ofNat fraction.den)
  else .spaced (.ofNat f.whole) .space (.ofNat fraction.num.natAbs) (.ofNat fraction.den)

/-- A sign is shown: the amount is below zero. -/
def signed (f : InchFraction) : Bool := f.negative && !(f.whole == 0 && f.parts == 0)

variable {f : InchFraction}

/-! ## The number -/

theorem partsText_eq (hne : f.parts ≠ 0) (hlt : f.parts < f.denominator) :
    f.partsText = Digits.ofNat (mkRat f.parts f.denominator).num.natAbs ++
      '/' :: Digits.ofNat (mkRat f.parts f.denominator).den := by
  have hden : isInteger (mkRat f.parts f.denominator) = false := by
    rw [isInteger, beq_eq_false_iff_ne]
    exact den_mkRat_ne_one hne hlt
  have hnonneg := Rat.num_nonneg.1 (num_mkRat_nonneg f.parts f.denominator)
  rw [partsText, text_of_nonneg hnonneg, hden, if_neg Bool.false_ne_true]

/-- **What is written.** The text is a written number, behind a minus sign if the amount is below
zero. -/
theorem text_eq_signedText (hlt : f.parts < f.denominator) :
    f.text = f.number.signedText f.signed := by
  by_cases hparts : f.parts = 0
  · by_cases hwhole : f.whole = 0
    · simp [text, number, signed, Leaf.signedText, Leaf.text, Run.ofNat, hparts, hwhole]
    · cases hn : f.negative <;>
        simp [text, number, signed, signText, Leaf.signedText, Leaf.text, Run.ofNat, hparts, hwhole,
          hn]
  · have hfraction := partsText_eq hparts hlt
    by_cases hwhole : f.whole = 0
    · cases hn : f.negative <;>
        simp [text, number, signed, signText, Leaf.signedText, Leaf.text, Run.ofNat, hparts, hwhole,
          hn, hfraction]
    · cases hn : f.negative <;>
        simp [text, number, signed, signText, Leaf.signedText, Leaf.text, Run.ofNat, Gap.space,
          hparts, hwhole, hn, hfraction]

theorem zeroDenominator_number (f : InchFraction) : f.number.zeroDenominator = false := by
  have hden : ((mkRat f.parts f.denominator).den : Rat) ≠ 0 :=
    mt Rat.natCast_eq_zero_iff.1 (mkRat f.parts f.denominator).den_nz
  unfold number
  simp only
  split
  · rfl
  · split <;> simp [Leaf.zeroDenominator, Run.value_ofNat, hden]

theorem signedValue_number (f : InchFraction) : f.number.signedValue f.signed = f.value := by
  have hfraction := natAbs_num_div_den f.parts f.denominator
  have hnumber : f.number.value = f.whole + f.parts / f.denominator := by
    unfold number
    by_cases hparts : f.parts = 0
    · rw [if_pos hparts, Leaf.value, Run.value_ofNat, hparts]
      grind
    · by_cases hwhole : f.whole = 0
      · rw [if_neg hparts, if_pos hwhole, Leaf.value, Run.value_ofNat, Run.value_ofNat, hfraction,
          hwhole]
        grind
      · rw [if_neg hparts, if_neg hwhole, Leaf.value, Run.value_ofNat, Run.value_ofNat,
          Run.value_ofNat, hfraction]
  rw [Leaf.signedValue, hnumber, value]
  by_cases hzero : f.whole = 0 ∧ f.parts = 0
  · have hsigned : f.signed = false := by simp [signed, hzero]
    -- the opposite of zero is zero, so its sign may be left out
    rw [hsigned, hzero.1, hzero.2]
    cases f.negative <;> grind
  · have hsigned : f.signed = f.negative := by
      have hb : (f.whole == 0 && f.parts == 0) = false := by simpa using hzero
      rw [signed, hb, Bool.not_false, Bool.and_true]
    rw [hsigned]

/-- **Typed back.** The text is worth the amount. -/
theorem evaluate_text_of_lt (hlt : f.parts < f.denominator) : evaluate f.text = .ok f.value := by
  have hplaces : f.number.placeCount = 0 := by
    unfold number
    split
    · rfl
    · split <;> rfl
  rw [text_eq_signedText hlt, Leaf.evaluate_signedText f.signed f.zeroDenominator_number
    (by rw [hplaces]; decide), signedValue_number]

/-! ## Inch marks -/

/-- The text is one word, or two with a space between them. -/
theorem collapse_signedText (f : InchFraction) (negative : Bool) :
    (f.number.signedText negative).collapse = f.number.signedText negative := by
  have hsign {w : Text} (hw : w.IsWord) : IsWord ((if negative then ['-'] else []) ++ w) := by
    cases negative with
    | true => exact hw.cons rfl
    | false => exact hw
  have hfraction (n d : Run) : IsWord (n.digits ++ '/' :: d.digits) :=
    n.isWord.append (d.isWord.cons rfl)
  have htext (l : Leaf) : l.signedText negative = (if negative then ['-'] else []) ++ l.text := by
    cases negative <;> rfl
  rw [htext, number]
  by_cases hparts : f.parts = 0
  · rw [if_pos hparts]
    exact (hsign (Run.isWord _)).collapse_eq
  · by_cases hwhole : f.whole = 0
    · rw [if_neg hparts, if_pos hwhole]
      exact (hsign (hfraction _ _)).collapse_eq
    · rw [if_neg hparts, if_neg hwhole]
      have hpair := (hsign (Run.isWord (.ofNat f.whole))).collapse_pair (hfraction
        (.ofNat (mkRat f.parts f.denominator).num.natAbs) (.ofNat (mkRat f.parts f.denominator).den))
      simpa [Leaf.text, Gap.space] using hpair

/-- **Typed back as a length.** With an inch mark behind it the text is the amount in inches. -/
theorem ofText_text_append_mark (hlt : f.parts < f.denominator) :
    ∃ working, Length.ofText (f.text ++ ['"']) = .ok ⟨f.value, .inch, working⟩ := by
  have hadmitted := f.number.admitted_signedText f.signed
  have hblank := Leaf.not_blank_signedText f.signed f.number
  have hcollapse := f.collapse_signedText f.signed
  rw [← text_eq_signedText hlt] at hadmitted hblank hcollapse
  rw [Length.ofText_append_mark hadmitted hblank, hcollapse]
  exact Length.exists_measure (evaluate_text_of_lt hlt) .inch

end InchFraction

/-- **The workshop display.** What is shown for inches at the nearest 1/N can be typed back: by
itself it is worth the rounded amount, with an inch mark behind it that is the length, and the
rounded amount is shown by the same text. -/
theorem inchText_readable (inches : Rat) {denominator : Nat} (h : denominator ≠ 0) :
    (∃ k, IsNearest (inches * denominator) k) ∧
    ∀ k, IsNearest (inches * denominator) k →
      ∃ t, inchText inches denominator = .ok t ∧
        evaluate t = .ok ((k : Rat) / denominator) ∧
        (∃ l, Length.ofText (t ++ ['"']) = .ok l ∧ l.unit = .inch ∧
          l.inches? = some ((k : Rat) / denominator) ∧
          l.millimetres = (k : Rat) / denominator * (127 / 5)) ∧
        inchText ((k : Rat) / denominator) denominator = .ok t := by
  refine ⟨⟨_, isNearest_iff.mpr rfl⟩, fun k hk => ?_⟩
  have hround := isNearest_iff.mp hk
  have hshown : (InchFraction.nearest inches denominator).text =
      (InchFraction.ofParts k denominator).text := by
    rw [InchFraction.text_nearest h, hround]
  have hlt : (InchFraction.ofParts k denominator).parts < denominator :=
    Nat.mod_lt _ (Nat.pos_of_ne_zero h)
  have hvalue := InchFraction.value_ofParts k h
  obtain ⟨working, hlength⟩ := InchFraction.ofText_text_append_mark hlt
  rw [hvalue] at hlength
  refine ⟨(InchFraction.ofParts k denominator).text, ?_, ?_, ?_, ?_⟩
  · rw [inchText_of_ne_zero h, hshown]
  · rw [InchFraction.evaluate_text_of_lt hlt, hvalue]
  · exact ⟨_, hlength, rfl, rfl, rfl⟩
  · rw [inchText_of_ne_zero h, InchFraction.text_nearest_div k h]

/-- At the nearest eighth, -1.39 inches is shown as `-1 3/8`. -/
theorem inchText_readable_eighths :
    8 ≠ 0 ∧ inchText (-139 / 100) 8 = .ok ['-', '1', ' ', '3', '/', '8'] ∧
    evaluate ['-', '1', ' ', '3', '/', '8'] = .ok (-11 / 8) ∧
    (∃ l, Length.ofText ['-', '1', ' ', '3', '/', '8', '"'] = .ok l ∧ l.unit = .inch ∧
      l.inches? = some (-11 / 8) ∧ l.millimetres = -1397 / 40) ∧
    inchText (-11 / 8) 8 = .ok ['-', '1', ' ', '3', '/', '8'] := by
  have hk : IsNearest (-139 / 100 * (8 : Nat)) (-11) := isNearest_iff.mpr (by decide +kernel)
  have hq : ((-11 : Int) : Rat) / (8 : Nat) = -11 / 8 := by decide +kernel
  have hmm : (-11 / 8 : Rat) * (127 / 5) = -1397 / 40 := by decide +kernel
  have hshown : (InchFraction.nearest (-139 / 100) 8).text = ['-', '1', ' ', '3', '/', '8'] := by
    decide +kernel
  have htext : inchText (-139 / 100) 8 = .ok ['-', '1', ' ', '3', '/', '8'] :=
    congrArg Except.ok hshown
  obtain ⟨t, ht, hvalue, hlength, hagain⟩ :=
    (inchText_readable (-139 / 100) (by decide)).2 (-11) hk
  rw [hq] at hvalue hlength hagain
  rw [hmm] at hlength
  rw [htext] at ht
  cases ht
  exact ⟨by decide, htext, hvalue, hlength, hagain⟩

end ExactLength
