import ExactLength.Proofs.Length.InchReadback

/-!
# The nearest inch fraction

What is shown for inches is found by rounding what is left over the whole inches, with a carry. It
comes to the same as rounding the whole amount at once: the magnitude is rounded to a number `k` of
parts, a half goes up, and `k` is divided into whole inches and parts over. The parts over are shown
as a fraction in lowest terms, and zero has no sign.

Results:
* `InchFraction.text_of_lt`: which of sign, whole inches and fraction are written.
* `inchText_nearest`: what is shown for inches, and how far it is from them.
-/

namespace ExactLength

open Digits Fraction

/-- **What is written.** A sign, the whole inches, and the parts over as a fraction; zero is written
without a sign, and either of the others is left out when it is zero. -/
theorem InchFraction.text_of_lt {f : InchFraction} (hlt : f.parts < f.denominator) :
    f.text =
      if f.whole = 0 ∧ f.parts = 0 then ['0']
      else f.signText ++
        let fraction := mkRat f.parts f.denominator
        if f.parts = 0 then ofNat f.whole
        else if f.whole = 0 then ofNat fraction.num.natAbs ++ '/' :: ofNat fraction.den
        else ofNat f.whole ++ ' ' :: (ofNat fraction.num.natAbs ++ '/' :: ofNat fraction.den) := by
  have hzero : ofNat 0 = ['0'] := by decide +kernel
  by_cases hparts : f.parts = 0
  · by_cases hwhole : f.whole = 0 <;> simp [text, hparts, hwhole, hzero]
  · have hfraction := partsText_eq hparts hlt
    by_cases hwhole : f.whole = 0 <;> simp [text, hparts, hwhole, hfraction]

/-- **The workshop display.** Inches are shown at every size of the parts but zero. Let `k` be the
number of parts nearest to their magnitude, where a half goes up. The text is a zero without a sign
if `k` is zero; else it has a minus sign if the inches are below zero, then the whole inches in `k`,
and the parts over as a proper fraction in lowest terms, where either is left out when it is zero.
It is worth that amount when it is read back, which is at most half a part away from the inches. -/
theorem inchText_nearest (inches : Rat) {denominator : Nat} (h : denominator ≠ 0) :
    ∃ k a b : Nat,
      (∀ m : Int, IsNearest (inches.abs * denominator) m ↔ m = k) ∧
      Reduced (k % denominator) denominator a b ∧ b ∣ denominator ∧
      (k % denominator ≠ 0 → 0 < a ∧ a < b) ∧
      ∃ t, inchText inches denominator = .ok t ∧
        t = (if k = 0 then ['0']
          else (if inches < 0 then ['-'] else []) ++
            if k % denominator = 0 then ofNat (k / denominator)
            else if k / denominator = 0 then ofNat a ++ '/' :: ofNat b
            else ofNat (k / denominator) ++ ' ' :: (ofNat a ++ '/' :: ofNat b)) ∧
        ∃ shown : Rat, evaluate t = .ok shown ∧
          shown = (if inches < 0 then -((k / denominator : Nat) + (a : Rat) / b)
            else (k / denominator : Nat) + (a : Rat) / b) ∧
          (inches - shown).abs ≤ 1 / (2 * denominator) := by
  have hpos := Nat.pos_of_ne_zero h
  have habs := natAbs_round (inches * denominator)
  rw [abs_mul_natCast] at habs
  have hnearest := InchFraction.nearest_eq inches h
  have herror := InchFraction.abs_sub_value_nearest inches h
  -- the rounded amount without its sign, which the text and its value are made of
  generalize (Fraction.round (inches * denominator)).natAbs = k at habs hnearest
  have hlt : k % denominator < denominator := Nat.mod_lt k hpos
  have hreduced := Reduced.of_mkRat (k % denominator) h
  refine ⟨k, _, _, fun m => ?_, hreduced, hreduced.dvd, fun hne => hreduced.proper hne hlt, _,
    inchText_of_ne_zero h, ?_, _, ?_, ?_, herror⟩
  · rw [isNearest_iff, ← habs, eq_comm]
  · have hzero : k / denominator = 0 ∧ k % denominator = 0 ↔ k = 0 := by
      refine ⟨fun ⟨hwhole, hparts⟩ => ?_, fun hk => by simp [hk]⟩
      have hk := Nat.div_add_mod k denominator
      rw [hwhole, hparts] at hk
      omega
    rw [hnearest, InchFraction.text_of_lt hlt]
    simp only [hzero, InchFraction.signText, decide_eq_true_eq]
  · rw [hnearest]
    exact InchFraction.evaluate_text_of_lt hlt
  · rw [hnearest, InchFraction.value, natAbs_num_div_den]
    simp only [decide_eq_true_eq]

/-- In twelfths, -35/24 inches are half way between `-1 5/12` and `-1 1/2`: the latter is shown, and
it is half a part away. -/
theorem inchText_nearest_twelfths :
    12 ≠ 0 ∧ inchText (-35 / 24) 12 = .ok ['-', '1', ' ', '1', '/', '2'] ∧
    evaluate ['-', '1', ' ', '1', '/', '2'] = .ok (-3 / 2) ∧
    (-35 / 24 - -3 / 2 : Rat).abs ≤ 1 / (2 * (12 : Nat)) := by
  obtain ⟨k, a, b, hk, hreduced, -, -, t, ht, htext, shown, hevaluate, hshown, herror⟩ :=
    inchText_nearest (-35 / 24) (show 12 ≠ 0 by decide)
  have hnearest : IsNearest ((-35 / 24 : Rat).abs * (12 : Nat)) 18 :=
    isNearest_iff.mpr (by decide +kernel)
  obtain rfl : 18 = k := Int.ofNat_inj.mp ((hk 18).mp hnearest)
  -- six twelfths are one half
  have hb : b = 2 * a := by
    have hcross := hreduced.cross
    omega
  obtain rfl : a = 1 := by
    have hcoprime := hreduced.coprime
    rwa [hb, Nat.gcd_mul_left_right] at hcoprime
  subst hb
  have hsign : (-35 / 24 : Rat) < 0 := by decide +kernel
  rw [if_pos hsign] at htext hshown
  have htext' : t = ['-', '1', ' ', '1', '/', '2'] := by
    rw [htext]
    decide +kernel
  have hshown' : shown = -3 / 2 := by
    rw [hshown]
    decide +kernel
  subst htext' hshown'
  exact ⟨by decide, ht, hevaluate, herror⟩

end ExactLength
