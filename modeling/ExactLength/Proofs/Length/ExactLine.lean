import ExactLength.Length.Readout
import ExactLength.Proofs.Length.InchReadback
import ExactLength.Proofs.Length.Spelling

/-!
# The exact line

The exact values of a length are shown as two fractions with their units, in millimetres and in
inches. Each of the two can be typed back, and the length is the same one: nothing is rounded, and
the factors between the units are exact.

Results:
* `Fraction.text_eq_signedText`: a fraction is shown as a written number behind a sign.
* `Fraction.evaluate_text_eq`: what is shown is worth the fraction.
* `Length.ofText_fraction_append`: with a unit behind it, it is that length.
* `Length.exactText_cut`: the exact line is cut at its equals sign in one way.
* `Length.readout_exact_readable`: both sides of the exact line are the length that is shown.
-/

namespace ExactLength

open Text

/-! ## Fractions -/

namespace Fraction

/-- The written number that a fraction is shown as, without its sign. -/
def number (r : Rat) : Leaf :=
  if isInteger r then .integer (.ofNat r.num.natAbs)
  else .fraction (.ofNat r.num.natAbs) (.ofNat r.den)

/-- **What is shown** is a written number, behind a minus sign if the fraction is negative. -/
theorem text_eq_signedText (r : Rat) : text r = (number r).signedText (r.num < 0) := by
  by_cases hint : isInteger r = true <;> by_cases hneg : r.num < 0 <;>
    simp [text, number, Leaf.signedText, Leaf.text, Run.ofNat, Digits.ofInt, hint, hneg]

theorem zeroDenominator_number (r : Rat) : (number r).zeroDenominator = false := by
  have hden : (r.den : Rat) ≠ 0 := mt Rat.natCast_eq_zero_iff.1 r.den_nz
  unfold number
  split
  · rfl
  · simp [Leaf.zeroDenominator, Run.value_ofNat, hden]

theorem value_number (r : Rat) : (number r).value = (r.num.natAbs : Rat) / r.den := by
  unfold number
  split
  · next hint =>
    have hden : r.den = 1 := eq_of_beq hint
    rw [Leaf.value, Run.value_ofNat, hden]
    grind
  · rw [Leaf.value, Run.value_ofNat, Run.value_ofNat]

theorem signedValue_number (r : Rat) : (number r).signedValue (r.num < 0) = r := by
  have hr : (r.num : Rat) / r.den = r := by rw [← Rat.mkRat_eq_div, Rat.mkRat_self]
  rw [Leaf.signedValue, value_number, ← Rat.intCast_natCast]
  by_cases hneg : r.num < 0
  · rw [if_pos (by simpa using hneg), Int.ofNat_natAbs_of_nonpos (Int.le_of_lt hneg),
      Rat.intCast_neg]
    grind
  · rw [if_neg (by simpa using hneg), Int.natAbs_of_nonneg (Int.not_lt.1 hneg)]
    exact hr

/-- **Typed back**, a fraction is worth itself. -/
theorem evaluate_text_eq (r : Rat) : evaluate (text r) = .ok r := by
  have hplaces : (number r).placeCount = 0 := by
    unfold number
    split <;> rfl
  rw [text_eq_signedText, Leaf.evaluate_signedText _ (zeroDenominator_number r)
    (by rw [hplaces]; decide), signedValue_number]

theorem admitted_text (r : Rat) : (text r).Admitted := by
  rw [text_eq_signedText]
  exact Leaf.admitted_signedText _ _

theorem isWord_text (r : Rat) : (text r).IsWord := by
  have hnumber : (number r).text.IsWord := by
    unfold number
    split
    · exact Run.isWord _
    · exact (Run.isWord _).append ((Run.isWord _).cons rfl)
  rw [text_eq_signedText, Leaf.signedText]
  split
  · exact hnumber.cons rfl
  · exact hnumber

end Fraction

/-! ## Lengths -/

namespace Length

/-- With a unit behind it, a fraction is that length. -/
theorem ofText_fraction_append (r : Rat) {gap u : Text} {unit : LengthUnit} (hgap : gap.Blank)
    (hu : unit.Spells u) :
    ∃ working, ofText (Fraction.text r ++ gap ++ u) = .ok ⟨r, unit, working⟩ := by
  have hword := Fraction.isWord_text r
  rw [ofText_append_spelling (Fraction.admitted_text r) hword.not_blank hgap hu, hword.collapse_eq]
  exact exists_measure (Fraction.evaluate_text_eq r) unit

/-- The exact line is cut at its equals sign in one way. -/
theorem exactText_cut {l : Length} {a b : Text} (h : l.exactText = a ++ [' ', '=', ' '] ++ b) :
    a = Fraction.text l.millimetres ++ [' ', 'm', 'm'] ∧ b = Fraction.text l.inInches ++ ['"'] := by
  have hnot (r : Rat) : '=' ∉ Fraction.text r := by
    intro hmem
    exact absurd (Fraction.admitted_text r '=' hmem) (by decide)
  have hcut : (Fraction.text l.millimetres ++ [' ', 'm', 'm', ' ']) ++
      '=' :: (' ' :: (Fraction.text l.inInches ++ ['"'])) = (a ++ [' ']) ++ '=' :: (' ' :: b) := by
    rw [exactText] at h
    simpa using h
  obtain ⟨ha, -, hb⟩ := (List.append_cons_inj_of_notMem (by simp [hnot]) (by simp [hnot])).1 hcut
  have ha' : (Fraction.text l.millimetres ++ [' ', 'm', 'm']) ++ [' '] = a ++ [' '] := by
    simpa using ha
  exact ⟨(List.append_cancel_right ha').symm, (List.cons.inj hb).2.symm⟩

/-- **The exact line loses nothing.** A fraction that is shown is worth itself when it is typed
back, and it is that length with `mm` or an inch mark behind it. So wherever the exact line of a
length is cut at an equals sign, both sides are typed back as lengths of as many millimetres. -/
theorem readout_exact_readable :
    (∀ r : Rat, evaluate (Fraction.text r) = .ok r ∧
      (∃ l, ofText (Fraction.text r ++ [' ', 'm', 'm']) = .ok l ∧ l.millimetres = r) ∧
      ∃ l, ofText (Fraction.text r ++ ['"']) = .ok l ∧ l.inches? = some r ∧
        l.millimetres = r * (127 / 5)) ∧
    ∀ (l : Length) (denominator : Nat), denominator ≠ 0 →
      ∃ readout, l.readout denominator = .ok readout ∧
        (∃ a b, readout.exact = a ++ [' ', '=', ' '] ++ b) ∧
        ∀ a b, readout.exact = a ++ [' ', '=', ' '] ++ b →
          (∃ l', ofText a = .ok l' ∧ l'.millimetres = l.millimetres) ∧
          ∃ l', ofText b = .ok l' ∧ l'.millimetres = l.millimetres := by
  have hmillimetres (r : Rat) :
      ∃ l, ofText (Fraction.text r ++ [' ', 'm', 'm']) = .ok l ∧ l.millimetres = r := by
    have hspace : Text.Blank [' '] := List.forall_mem_singleton.2 rfl
    have hname : LengthUnit.Spells .millimetre ['m', 'm'] := .name (by decide)
    obtain ⟨working, h⟩ := ofText_fraction_append r hspace hname
    exact ⟨⟨r, .millimetre, working⟩, by simpa using h, Rat.mul_one r⟩
  have hinches (r : Rat) : ∃ l, ofText (Fraction.text r ++ ['"']) = .ok l ∧ l.inches? = some r ∧
      l.millimetres = r * (127 / 5) := by
    have hmark : LengthUnit.Spells .inch ['"'] := .mark (by decide)
    obtain ⟨working, h⟩ := ofText_fraction_append r blank_nil hmark
    exact ⟨_, by simpa using h, rfl, rfl⟩
  refine ⟨fun r => ⟨Fraction.evaluate_text_eq r, hmillimetres r, hinches r⟩,
    fun l denominator hd => ?_⟩
  obtain ⟨readout, hreadout, hexact⟩ :
      ∃ readout, l.readout denominator = .ok readout ∧ readout.exact = l.exactText := by
    rw [readout, inchText_of_ne_zero hd]
    exact ⟨_, rfl, rfl⟩
  refine ⟨readout, hreadout, ?_, fun a b hcut => ?_⟩
  · refine ⟨Fraction.text l.millimetres ++ [' ', 'm', 'm'], Fraction.text l.inInches ++ ['"'], ?_⟩
    rw [hexact, exactText]
    simp
  · rw [hexact] at hcut
    obtain ⟨rfl, rfl⟩ := exactText_cut hcut
    obtain ⟨l', hl', -, hmm⟩ := hinches l.inInches
    exact ⟨hmillimetres l.millimetres, l', hl', hmm.trans l.millimetres_eq_inInches_mul.symm⟩

/-- Three eighths of an inch are shown as `381/40 mm = 3/8"`. -/
theorem readout_exact_readable_eighths :
    16 ≠ 0 ∧ ∃ readout, (⟨3 / 8, .inch, .empty⟩ : Length).readout 16 = .ok readout ∧
      (∃ l', ofText (.ofString "381/40 mm") = .ok l' ∧ l'.millimetres = 381 / 40) ∧
      ∃ l', ofText (.ofString "3/8\"") = .ok l' ∧ l'.millimetres = 381 / 40 := by
  obtain ⟨readout, hreadout, -, hcut⟩ :=
    readout_exact_readable.2 ⟨3 / 8, .inch, .empty⟩ 16 (by decide)
  have hmm : (⟨3 / 8, .inch, .empty⟩ : Length).millimetres = 381 / 40 := by decide +kernel
  have hexact : readout.exact =
      .ofString "381/40 mm" ++ [' ', '=', ' '] ++ .ofString "3/8\"" := by
    rw [← Except.ok.inj hreadout]
    decide +kernel
  rw [← hmm]
  exact ⟨by decide, readout, hreadout, hcut _ _ hexact⟩

end Length

end ExactLength
