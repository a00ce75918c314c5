import ExactLength.Number.Fraction

/-!
# Rounding to the nearest integer

A fraction is rounded to the integer nearest to it and, where two are equally near, to the one
further from zero. Rounding treats both signs alike, so most is proved for fractions that are not
negative: these are rounded to `k` when they lie at most a half below `k` and less than a half
above it.

Results:
* `isNearest_iff`: rounding finds the nearest integer, and no other integer is the nearest.
* `round_intCast`, `round_add_natCast`: integers are kept, and whole parts can be split off.
-/

namespace ExactLength.Fraction

/-- An integer nearest to a fraction. Of two that are equally near it is the one further from
zero. -/
structure IsNearest (x : Rat) (k : Int) : Prop where
  nearest : ∀ m : Int, (x - k).abs ≤ (x - m).abs
  away : ∀ m : Int, (x - m).abs = (x - k).abs → m.natAbs ≤ k.natAbs

variable {x : Rat} {k : Int}

/-! ## Fractions that are not negative -/

theorem round_of_nonneg (h : 0 ≤ x) : round x = (x + 1 / 2).floor := by
  rw [round, if_neg (Rat.not_lt.2 h)]

theorem round_nonneg (h : 0 ≤ x) : 0 ≤ round x := by
  rw [round_of_nonneg h, Rat.le_floor_iff, Rat.intCast_zero]
  grind

/-- A half above an integer goes to the next one. -/
theorem round_eq_iff (h : 0 ≤ x) : round x = k ↔ (k : Rat) - 1 / 2 ≤ x ∧ x < k + 1 / 2 := by
  have hle : k ≤ round x ↔ (k : Rat) - 1 / 2 ≤ x := by
    rw [round_of_nonneg h, Rat.le_floor_iff]
    grind
  have hlt : round x < k + 1 ↔ x < (k : Rat) + 1 / 2 := by
    rw [round_of_nonneg h, Rat.floor_lt_iff, Rat.intCast_add, Rat.intCast_one]
    grind
  rw [← hle, ← hlt]
  omega

/-- Integers are kept. -/
theorem round_intCast (k : Int) : round k = k := by
  by_cases h : 0 ≤ k
  · rw [round_eq_iff (Rat.intCast_nonneg.2 h)]
    grind
  · have hneg : 0 ≤ -k := by omega
    have hround : round (-k : Int) = -k := by
      rw [round_eq_iff (Rat.intCast_nonneg.2 hneg)]
      grind
    rw [Rat.intCast_neg, round_neg] at hround
    omega

/-- A whole part can be split off. -/
theorem round_add_natCast (h : 0 ≤ x) (n : Nat) : round (x + n) = round x + n := by
  have hn : (0 : Rat) ≤ n := Rat.natCast_nonneg
  have hsum : 0 ≤ x + n := by grind
  obtain ⟨hlo, hhi⟩ := (round_eq_iff h).mp rfl
  rw [round_eq_iff hsum, Rat.intCast_add, Rat.intCast_natCast]
  grind

/-! ## Nearest integers -/

namespace IsNearest

theorem neg (h : IsNearest x k) : IsNearest (-x) (-k) := by
  have hflip (m : Int) : (-x - m).abs = (x - (-m : Int)).abs := by
    rw [← Rat.abs_neg, Rat.intCast_neg]
    congr 1
    grind
  constructor
  · intro m
    rw [hflip, hflip, Int.neg_neg]
    exact h.nearest (-m)
  · intro m hm
    rw [hflip, hflip, Int.neg_neg] at hm
    have haway := h.away (-m) hm
    rwa [Int.natAbs_neg] at haway ⊢

theorem abs_sub_le (h : IsNearest x k) : (x - k).abs ≤ 1 / 2 := by
  have hnext := h.nearest (k + 1)
  have hprevious := h.nearest (k - 1)
  rw [Rat.intCast_add] at hnext
  rw [Rat.intCast_sub] at hprevious
  unfold Rat.abs at *
  grind

/-- The next integer is further away, or as near and not further from zero. -/
theorem lt_add_half (h : IsNearest x k) (hx : 0 ≤ x) : x < k + 1 / 2 := by
  have hhalf := h.abs_sub_le
  by_cases htie : x = k + 1 / 2
  · have hnext : (x - (k + 1 : Int)).abs = (x - k).abs := by
      rw [htie, Rat.intCast_add]
      unfold Rat.abs
      grind
    have haway := h.away (k + 1) hnext
    have hk : k < 0 := by omega
    have hcast : (k : Rat) ≤ -1 := by
      have hle : ((k : Int) : Rat) ≤ ((-1 : Int) : Rat) := Rat.intCast_le_intCast.2 (by omega)
      simpa using hle
    grind
  · unfold Rat.abs at hhalf
    grind

end IsNearest

theorem isNearest_round (hx : 0 ≤ x) : IsNearest x (round x) := by
  obtain ⟨hlo, hhi⟩ := (round_eq_iff hx).mp rfl
  have hround := round_nonneg hx
  generalize round x = k at *
  have hnext (m : Int) (hm : k < m) : (k : Rat) + 1 ≤ m := by
    have hle := Rat.intCast_le_intCast.2 (show k + 1 ≤ m by omega)
    rwa [Rat.intCast_add] at hle
  have hprevious (m : Int) (hm : m < k) : (m : Rat) ≤ k - 1 := by
    have hle := Rat.intCast_le_intCast.2 (show m ≤ k - 1 by omega)
    rwa [Rat.intCast_sub] at hle
  constructor
  · intro m
    unfold Rat.abs
    obtain hm | rfl | hm := Int.lt_trichotomy m k
    · have := hprevious m hm
      grind
    · exact Rat.le_refl
    · have := hnext m hm
      grind
  · intro m heq
    unfold Rat.abs at heq
    obtain hm | rfl | hm := Int.lt_trichotomy m k
    · -- an integer below zero is further away than a half
      have hlow := hprevious m hm
      have hpos : ¬ (m : Rat) ≤ -1 := by grind
      have hm' : 0 ≤ m := by
        rw [← Rat.intCast_one, ← Rat.intCast_neg, Rat.intCast_le_intCast] at hpos
        omega
      omega
    · exact Nat.le_refl _
    · have := hnext m hm
      grind

/-- **Rounding.** A fraction is rounded to the integer nearest to it. -/
theorem isNearest_iff : IsNearest x k ↔ round x = k := by
  have hnonneg {x : Rat} {k : Int} (hx : 0 ≤ x) : IsNearest x k ↔ round x = k := by
    constructor
    · intro h
      have hhalf := h.abs_sub_le
      have hhi := h.lt_add_half hx
      rw [round_eq_iff hx]
      unfold Rat.abs at hhalf
      grind
    · rintro rfl
      exact isNearest_round hx
  by_cases hx : 0 ≤ x
  · exact hnonneg hx
  · have hneg : 0 ≤ -x := by grind
    have hflip : IsNearest x k ↔ IsNearest (-x) (-k) := by
      refine ⟨IsNearest.neg, fun h => ?_⟩
      have hback := h.neg
      rwa [Rat.neg_neg, Int.neg_neg] at hback
    rw [hflip, hnonneg hneg, round_neg]
    omega

end ExactLength.Fraction
