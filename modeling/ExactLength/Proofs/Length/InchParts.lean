import ExactLength.Length.InchFraction
import ExactLength.Proofs.Number.Nearest

/-!
# Parts of an inch

Inches at the nearest 1/N of an inch are a whole number of parts, of which N make up an inch. What
is shown depends on that number only, so the carry into the whole inches and the sign of a zero
amount leave no trace, and showing a number of parts again shows the same.

Results:
* `nearest_eq`: the rounded amount is divided into whole inches and parts over.
* `text_nearest`: inches are shown as the rounded number of parts.
* `text_nearest_div`: a whole number of parts is shown as itself.
* `value_ofParts`, `abs_sub_value_nearest`: the amount that a number of parts is, and how far it is
  from the amount that was rounded.
-/

namespace ExactLength

theorem Fraction.natAbs_round (x : Rat) : ((round x).natAbs : Int) = round x.abs := by
  by_cases hx : 0 ≤ x
  · have hround := Fraction.round_nonneg hx
    rw [Rat.abs_of_nonneg hx]
    omega
  · have hneg : 0 ≤ -x := by grind
    have hround := Fraction.round_nonneg hneg
    rw [Rat.abs_of_nonpos (by grind)]
    rw [Fraction.round_neg] at hround ⊢
    omega

theorem Fraction.abs_mul_natCast (x : Rat) (n : Nat) : (x * n).abs = x.abs * n := by
  have hn : (0 : Rat) ≤ n := Rat.natCast_nonneg
  by_cases hx : 0 ≤ x
  · rw [Rat.abs_of_nonneg hx, Rat.abs_of_nonneg (Rat.mul_nonneg hx hn)]
  · have hneg : 0 ≤ -x := by grind
    have hmul := Rat.abs_of_nonneg (Rat.mul_nonneg hneg hn)
    rw [Rat.neg_mul, Rat.abs_neg] at hmul
    rw [hmul, Rat.abs_of_nonpos (by grind), Rat.neg_mul]

namespace InchFraction

/-- A number of parts of which `denominator` make up an inch. -/
def ofParts (k : Int) (denominator : Nat) : InchFraction :=
  ⟨decide (k < 0), k.natAbs / denominator, k.natAbs % denominator, denominator⟩

/-- The amount, in inches. -/
def value (f : InchFraction) : Rat :=
  if f.negative then -(f.whole + f.parts / f.denominator) else f.whole + f.parts / f.denominator

variable {inches : Rat} {denominator : Nat}

/-! ## Rounding in parts -/

theorem floor_abs (inches : Rat) :
    0 ≤ inches.abs - inches.abs.floor.toNat ∧ inches.abs - inches.abs.floor.toNat < 1 := by
  have hnonneg : 0 ≤ inches.abs.floor := by
    rw [Rat.le_floor_iff, Rat.intCast_zero]
    exact Rat.abs_nonneg
  have hcast : (inches.abs.floor.toNat : Rat) = inches.abs.floor := by
    rw [← Rat.intCast_natCast, Int.toNat_of_nonneg hnonneg]
  have hle := Rat.floor_le inches.abs
  have hlt := Rat.lt_floor_add_one inches.abs
  rw [Rat.intCast_add, Rat.intCast_one] at hlt
  rw [hcast]
  grind

theorem round_mul_le {rest : Rat} {n : Nat} (hrest : 0 ≤ rest) (hlt : rest < 1) :
    0 ≤ Fraction.round (rest * n) ∧ Fraction.round (rest * n) ≤ n := by
  have hn : (0 : Rat) ≤ n := Rat.natCast_nonneg
  have hparts : 0 ≤ rest * n := Rat.mul_nonneg hrest hn
  have hmax : rest * n ≤ 1 * n := Rat.mul_le_mul_of_nonneg_right (by grind) hn
  obtain ⟨hlo, -⟩ := (Fraction.round_eq_iff hparts).mp rfl
  refine ⟨Fraction.round_nonneg hparts, ?_⟩
  have hcast : ((Fraction.round (rest * n) : Int) : Rat) < ((n + 1 : Int) : Rat) := by
    rw [Rat.intCast_add, Rat.intCast_natCast]
    grind
  have hround := Rat.intCast_lt_intCast.1 hcast
  omega

/-- **Carry.** The whole inches and the parts over make up the rounded amount, and the parts over
make up less than an inch. -/
theorem whole_mul_add_parts (inches : Rat) (h : denominator ≠ 0) :
    (nearest inches denominator).whole * denominator + (nearest inches denominator).parts =
      (Fraction.round (inches * denominator)).natAbs ∧
    (nearest inches denominator).parts < denominator := by
  obtain ⟨hnonneg, hlt⟩ := floor_abs inches
  have habs := Fraction.natAbs_round (inches * denominator)
  rw [Fraction.abs_mul_natCast] at habs
  unfold nearest
  simp only
  -- the whole inches of the size are split off before rounding, and added again after it
  generalize inches.abs.floor.toNat = whole at *
  generalize inches.abs = size at *
  have hsplit :
      size * denominator = (size - whole) * denominator + (whole * denominator : Nat) := by
    rw [Rat.natCast_mul]
    grind
  obtain ⟨hparts, hparts'⟩ := round_mul_le (n := denominator) hnonneg hlt
  rw [hsplit, Fraction.round_add_natCast (Rat.mul_nonneg hnonneg Rat.natCast_nonneg)] at habs
  generalize Fraction.round ((size - whole) * denominator) = parts at *
  by_cases hcarry : parts.toNat = denominator
  · simp only [hcarry, if_true]
    rw [Nat.add_mul]
    omega
  · simp only [hcarry, if_false]
    omega

/-- Neither rounding nor the carry changes the sign and the number of parts in an inch. -/
theorem negative_denominator_nearest (inches : Rat) (denominator : Nat) :
    (nearest inches denominator).negative = decide (inches < 0) ∧
      (nearest inches denominator).denominator = denominator := by
  unfold nearest
  simp only
  split <;> exact ⟨rfl, rfl⟩

/-- **Rounding.** The rounded amount is divided into whole inches and parts over. -/
theorem nearest_eq (inches : Rat) (h : denominator ≠ 0) :
    nearest inches denominator =
      ⟨decide (inches < 0), (Fraction.round (inches * denominator)).natAbs / denominator,
        (Fraction.round (inches * denominator)).natAbs % denominator, denominator⟩ := by
  obtain ⟨hsum, hlt⟩ := whole_mul_add_parts inches h
  obtain ⟨hsign, hd⟩ := negative_denominator_nearest inches denominator
  rw [Nat.mul_comm, Nat.add_comm] at hsum
  obtain ⟨hwhole, hparts⟩ := (Nat.div_mod_unique (Nat.pos_of_ne_zero h)).2 ⟨hsum, hlt⟩
  generalize nearest inches denominator = f at *
  obtain ⟨negative, whole, parts, d⟩ := f
  simp only at hsign hd hwhole hparts
  rw [hsign, hd, hwhole, hparts]

theorem round_neg_iff (h : Fraction.round (inches * denominator) ≠ 0) :
    Fraction.round (inches * denominator) < 0 ↔ inches < 0 := by
  have hn : (0 : Rat) ≤ denominator := Rat.natCast_nonneg
  constructor
  · intro hround
    refine Rat.not_le.1 fun hnonneg => ?_
    have hround' := Fraction.round_nonneg (Rat.mul_nonneg hnonneg hn)
    omega
  · intro hneg
    have hopposite := Fraction.round_nonneg (Rat.mul_nonneg (show 0 ≤ -inches by grind) hn)
    rw [Rat.neg_mul, Fraction.round_neg] at hopposite
    omega

/-! ## What is shown -/

/-- Only the sign of a zero amount is lost when the amount is a number of parts. -/
theorem nearest_eq_ofParts (h : denominator ≠ 0)
    (hround : Fraction.round (inches * denominator) ≠ 0) :
    nearest inches denominator = ofParts (Fraction.round (inches * denominator)) denominator := by
  rw [nearest_eq inches h, ofParts, decide_eq_decide.mpr (round_neg_iff hround)]

/-- **What is shown.** Inches are shown as the rounded number of parts. -/
theorem text_nearest (h : denominator ≠ 0) :
    (nearest inches denominator).text =
      (ofParts (Fraction.round (inches * denominator)) denominator).text := by
  by_cases hround : Fraction.round (inches * denominator) = 0
  · rw [nearest_eq inches h, hround]
    simp [text, ofParts]
  · rw [nearest_eq_ofParts h hround]

example : (nearest (1999 / 1000) 32).text = ['2'] := by
  decide +kernel

/-- **Showing again.** A whole number of parts is shown as itself. -/
theorem text_nearest_div (k : Int) (h : denominator ≠ 0) :
    (nearest (k / denominator) denominator).text = (ofParts k denominator).text := by
  have hne : (denominator : Rat) ≠ 0 := mt Rat.natCast_eq_zero_iff.1 h
  rw [text_nearest h, Rat.div_mul_cancel hne, Fraction.round_intCast]

theorem whole_add_parts (k : Nat) (h : denominator ≠ 0) :
    ((k / denominator : Nat) : Rat) + (k % denominator : Nat) / denominator =
      (k : Rat) / denominator := by
  have hne : (denominator : Rat) ≠ 0 := mt Rat.natCast_eq_zero_iff.1 h
  have hsum : ((denominator * (k / denominator) + k % denominator : Nat) : Rat) = k := by
    rw [Nat.div_add_mod]
  rw [Rat.natCast_add, Rat.natCast_mul] at hsum
  rw [← hsum]
  grind

/-- **The amount shown.** A number of parts is that number over the parts of an inch. -/
theorem value_ofParts (k : Int) (h : denominator ≠ 0) :
    (ofParts k denominator).value = k / denominator := by
  rw [value, ofParts]
  simp only
  rw [whole_add_parts k.natAbs h, ← Rat.intCast_natCast]
  by_cases hk : k < 0
  · rw [decide_eq_true hk, if_pos rfl, Int.ofNat_natAbs_of_nonpos (Int.le_of_lt hk),
      Rat.intCast_neg]
    grind
  · rw [decide_eq_false hk, if_neg Bool.false_ne_true, Int.natAbs_of_nonneg (Int.not_lt.1 hk)]

/-- The amount shown is the rounded number of parts. -/
theorem value_nearest (h : denominator ≠ 0) : (nearest inches denominator).value =
    (Fraction.round (inches * denominator) : Rat) / denominator := by
  by_cases hround : Fraction.round (inches * denominator) = 0
  · rw [nearest_eq inches h, hround, value]
    simp only [Int.natAbs_zero, Nat.zero_div, Nat.zero_mod]
    split <;> grind
  · rw [nearest_eq_ofParts h hround, value_ofParts _ h]

/-- **Error.** The amount shown is at most half a part away. -/
theorem abs_sub_value_nearest (inches : Rat) (h : denominator ≠ 0) :
    (inches - (nearest inches denominator).value).abs ≤ 1 / (2 * denominator) := by
  have hne : (denominator : Rat) ≠ 0 := mt Rat.natCast_eq_zero_iff.1 h
  have hpos : (0 : Rat) < denominator := Rat.natCast_pos.2 (Nat.pos_of_ne_zero h)
  have hround : Fraction.IsNearest (inches * denominator) _ := Fraction.isNearest_iff.mpr rfl
  have hhalf := hround.abs_sub_le
  have hparts : inches * denominator - Fraction.round (inches * denominator) =
      (inches - (nearest inches denominator).value) * denominator := by
    rw [value_nearest h]
    grind
  have hbound : (1 : Rat) / (2 * denominator) * denominator = 1 / 2 := by
    grind
  rw [hparts, Fraction.abs_mul_natCast, ← hbound] at hhalf
  exact Rat.le_of_mul_le_mul_right hhalf hpos

end InchFraction

end ExactLength
