import ExactLength.Proofs.Length.ExactLine
import ExactLength.Proofs.Number.LowestTerms

/-!
# Units do not show

A length that was typed in inches keeps its inches, and a metric length is converted to inches by a
factor of its own. Both come to the same exact number, so all that is shown of a length follows from
its millimetres.

Results:
* `inInches_eq`: the inches of a length are those of its millimetres, in every unit.
* `readout_congr`, `summary_congr`: lengths of as many millimetres are shown alike.
* `readout_eq_iff`: and lengths that are shown alike have as many millimetres.
* `ofText_shown_alike`: both readings of a length agree, and its unit does not show.
-/

namespace ExactLength.Length

variable {l l' : Length}

/-- **Both readings.** The inches that were typed are those that the millimetres would be converted
to: the factors are inverse. -/
theorem inInches_eq (l : Length) : l.inInches = millimetresInInches l.millimetres := by
  have hfactors : LengthUnit.inch.millimetres * LengthUnit.inchesPerMillimetre = 1 := by
    rw [Rat.mul_comm]
    exact LengthUnit.inchesPerMillimetre_mul
  rw [millimetresInInches, l.millimetres_eq_inInches_mul, Rat.mul_assoc, hfactors, Rat.mul_one]

/-! ## What is shown -/

theorem summary_eq_map_readout (l : Length) (denominator : Nat) :
    l.summary denominator = (l.readout denominator).map Readout.summary := by
  rw [summary, readout]
  cases inchText l.inInches denominator <;> rfl

/-- Lengths of as many millimetres have the same texts at every precision, or the same error. -/
theorem readout_congr (h : l.millimetres = l'.millimetres) (denominator : Nat) :
    l.readout denominator = l'.readout denominator := by
  have hinches : l.inInches = l'.inInches := by
    rw [inInches_eq, inInches_eq, h]
  simp only [readout, summaryText, millimetreText, inchDecimalText, exactText, h, hinches]

theorem summary_congr (h : l.millimetres = l'.millimetres) (denominator : Nat) :
    l.summary denominator = l'.summary denominator := by
  rw [summary_eq_map_readout, summary_eq_map_readout, readout_congr h]

theorem millimetres_eq_of_exactText (h : l.exactText = l'.exactText) :
    l.millimetres = l'.millimetres := by
  have hcut : l.exactText = (Fraction.text l'.millimetres ++ [' ', 'm', 'm']) ++ [' ', '=', ' '] ++
      (Fraction.text l'.inInches ++ ['"']) := by
    rw [h, exactText]
    simp
  have htext := List.append_cancel_right (exactText_cut hcut).1
  exact (Fraction.text_injective htext).symm

/-- **What is shown** of a length tells as much as its millimetres do. -/
theorem readout_eq_iff {denominator : Nat} (hd : denominator ≠ 0) :
    l.readout denominator = l'.readout denominator ↔ l.millimetres = l'.millimetres := by
  refine ⟨fun h => millimetres_eq_of_exactText ?_, fun h => readout_congr h denominator⟩
  rw [readout, readout, inchText_of_ne_zero hd, inchText_of_ne_zero hd] at h
  exact congrArg Readout.exact (Except.ok.inj h)

/-- **Units do not show.** The millimetres of a length and its inches are converted into each other
exactly, in whichever unit it was typed. Two texts that tell lengths of as many millimetres have the
same summary and the same readout at every precision; at precision zero both have the same error.
Lengths of which either is longer are not shown alike. -/
theorem ofText_shown_alike :
    (∀ (text : Text) (l : Length), ofText text = .ok l →
      l.millimetres = l.inInches * (127 / 5) ∧ l.inInches = millimetresInInches l.millimetres) ∧
    ∀ (text text' : Text) (l l' : Length), ofText text = .ok l → ofText text' = .ok l' →
      (l.millimetres = l'.millimetres → ∀ denominator : Nat,
        l.summary denominator = l'.summary denominator ∧
        l.readout denominator = l'.readout denominator ∧
        (denominator = 0 → l.readout denominator = .error (.invalidDenominator 0) ∧
          l.summary denominator = .error (.invalidDenominator 0)) ∧
        (denominator ≠ 0 → ∃ r, l.readout denominator = .ok r ∧
          l.summary denominator = .ok r.summary)) ∧
      ∀ denominator : Nat, denominator ≠ 0 →
        l.readout denominator = l'.readout denominator → l.millimetres = l'.millimetres := by
  refine ⟨fun _ l _ => ⟨l.millimetres_eq_inInches_mul, l.inInches_eq⟩, fun _ _ l l' _ _ =>
    ⟨fun h denominator => ⟨summary_congr h denominator, readout_congr h denominator, fun hzero => ?_,
      fun hd => ?_⟩, fun _ hd => (readout_eq_iff hd).mp⟩⟩
  · have hreadout : l.readout denominator = .error (.invalidDenominator 0) :=
      readout_eq_error_iff.mpr ⟨hzero, rfl⟩
    rw [summary_eq_map_readout, hreadout]
    exact ⟨rfl, rfl⟩
  · rw [summary_eq_map_readout, readout, inchText_of_ne_zero hd]
    exact ⟨_, rfl, rfl⟩

/-- An inch typed as `127/50cm` is shown as one typed as `1"`. -/
theorem ofText_shown_alike_inch :
    ∃ l l', ofText ['1', '2', '7', '/', '5', '0', 'c', 'm'] = .ok l ∧
      ofText ['1', '"'] = .ok l' ∧ l.unit = .centimetre ∧ l'.unit = .inch ∧
      l.millimetres = l'.millimetres ∧
      l.millimetres = l.inInches * (127 / 5) ∧ l'.inInches = millimetresInInches l'.millimetres ∧
      l.summary 16 = l'.summary 16 ∧ l.readout 16 = l'.readout 16 := by
  obtain ⟨working, hmetric⟩ := ofText_fraction_append (127 / 50) Text.blank_nil
    (.name (by decide) : LengthUnit.Spells .centimetre ['c', 'm'])
  obtain ⟨working', hinch⟩ := ofText_fraction_append 1 Text.blank_nil
    (.mark (by decide) : LengthUnit.Spells .inch ['"'])
  have htext : Fraction.text (127 / 50) ++ [] ++ ['c', 'm'] =
      ['1', '2', '7', '/', '5', '0', 'c', 'm'] := by decide +kernel
  have htext' : Fraction.text 1 ++ [] ++ ['"'] = ['1', '"'] := by decide +kernel
  rw [htext] at hmetric
  rw [htext'] at hinch
  have hmillimetres : (⟨127 / 50, .centimetre, working⟩ : Length).millimetres =
      (⟨1, .inch, working'⟩ : Length).millimetres := by
    show (127 / 50 * 10 : Rat) = 1 * (127 / 5)
    decide +kernel
  obtain ⟨hreadings, halike⟩ := ofText_shown_alike
  obtain ⟨hshown, htold⟩ := halike _ _ _ _ hmetric hinch
  obtain ⟨hsummary, hreadout, -⟩ := hshown hmillimetres 16
  exact ⟨_, _, hmetric, hinch, rfl, rfl, htold 16 (by decide) hreadout, (hreadings _ _ hmetric).1,
    (hreadings _ _ hinch).2, hsummary, hreadout⟩

end ExactLength.Length
