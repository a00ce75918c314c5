import ExactLength.Proofs.Surface.Signed

/-!
# Decimal numbers as expressions

A signed decimal is read in one go by its own reader, and in stages as an expression: there the
sign is an operator, the digits and the point are one token, and the value of the token changes its
sign. Both readers come to the same number, also where there are no digits on one side of the point
or on either.

Results:
* `evaluate_of_copies`: a text in which nothing is written out is worth the tree of its tokens.
* `Decimal.evaluate_append_text`: a sign and a numeral are worth the numeral with that sign.
* `Decimal.evaluate_of_read`: what the reader of signed decimals accepts is worth the same as an
  expression.
-/

namespace ExactLength

open MixedNumber Digits Text

namespace Numeral

variable (n : Numeral)

theorem admitted_text : n.text.Admitted := by
  intro c hc
  obtain h | rfl := n.isDigit_or_eq_of_mem hc
  · simp [isAdmitted, h]
  · rfl

theorem copies_digits {joint : Joint} {ds : Text} (h : ∀ c ∈ ds, c.isDigit = true) :
    Copies joint ds ds := by
  by_cases hne : ds = []
  · subst hne
    exact fun rest _ => rfl
  · exact Copies.run ⟨ds, hne, h⟩

theorem copies_text (joint : Joint) : Copies joint n.text n.text := by
  unfold text
  cases hp : n.places with
  | none => exact copies_digits n.isDigit_whole
  | some places =>
    have hplaces := n.isDigit_of_places hp
    exact (copies_digits n.isDigit_whole).append ((copies_digits hplaces).cons rfl)
      fun _ _ => Joint.parts_cons rfl (by decide) (by decide)

end Numeral

/-- A text in which nothing is written out is worth the tree that its tokens stand for. -/
theorem evaluate_of_copies {cs : Text} {tokens : List Token} {n k : Nat} {e : Expr}
    (hadmitted : cs.Admitted) (hcopies : ∀ joint, Copies joint cs cs)
    (hscans : Scans cs false tokens) (he : Derives .sum tokens n k e) (hn : n ≤ maxNesting)
    (hk : k ≤ maxOperators) : evaluate cs = e.eval := by
  have hexpand : cs.expandMixed = cs := (hcopies .dash).expandMixed_eq (hcopies .blanks)
  refine evaluate_eq_eval hadmitted ?_ he hn hk
  rw [hexpand]
  exact hscans.tokensFrom_eq 0

namespace Decimal

/-- **Signed numerals.** A sign, or none, and a numeral are worth the numeral with that sign. -/
theorem evaluate_append_text {sign : Text} (hsign : sign ∈ signs) (n : Numeral) :
    evaluate (sign ++ n.text) = .ok (signed (sign = ['-']) n.reading) := by
  have hadmitted := n.admitted_text
  have hscans := n.scans_text
  have hnumber : Derives .factor [.number n.reading] 0 0 (.lit n.reading) := .number n.reading
  simp only [signs, List.mem_cons, List.not_mem_nil, or_false] at hsign
  obtain rfl | rfl | rfl := hsign
  · exact evaluate_of_copies hadmitted n.copies_text hscans (.sum (.term hnumber)) (by decide)
      (by decide)
  · exact evaluate_of_copies (hadmitted.cons rfl) (fun joint => (n.copies_text joint).cons rfl)
      (hscans.symbol (c := '+') (t := .op .add) rfl rfl) (.sum (.term (.plus hnumber))) (by decide)
      (by decide)
  · exact evaluate_of_copies (hadmitted.cons rfl) (fun joint => (n.copies_text joint).cons rfl)
      (hscans.symbol (c := '-') (t := .op .sub) rfl rfl) (.sum (.term (.minus hnumber))) (by decide)
      (by decide)

/-- **Two readers.** What is read as a signed decimal is worth the same number as an expression. All
the numerals, also those with digits on one side of the point only and the point alone, are read by
both with each sign and without one, and as their exact values if they have fewer than `2 ^ 32`
places. -/
theorem evaluate_of_read :
    (∀ (text : Text) (r : Rat), read text = .ok r → evaluate text = .ok r) ∧
    ∀ sign ∈ signs, ∀ n : Numeral, ∃ v,
      read (sign ++ n.text) = .ok v ∧ evaluate (sign ++ n.text) = .ok v ∧
      (n.placeCount < UInt32.size → v = signed (sign = ['-']) n.value) := by
  refine ⟨fun text r h => ?_, fun sign hsign n => ?_⟩
  · obtain ⟨sign, hsign, n, rfl, rfl⟩ := read_eq_ok_iff.mp h
    exact evaluate_append_text hsign n
  · refine ⟨_, read_append_text hsign n, evaluate_append_text hsign n, fun hplaces => ?_⟩
    rw [n.reading_eq_value hplaces]

/-- A point alone is zero, and `-.50` is minus one half. -/
theorem evaluate_of_read_points :
    read ['.'] = .ok 0 ∧ evaluate ['.'] = .ok 0 ∧
    read ['-', '.', '5', '0'] = .ok (-1 / 2) ∧ evaluate ['-', '.', '5', '0'] = .ok (-1 / 2) := by
  have hpoint : read ['.'] = .ok 0 :=
    congrArg Except.ok (by decide +kernel : signed false (value [] []) = 0)
  have hplaces : read ['-', '.', '5', '0'] = .ok (-1 / 2) :=
    congrArg Except.ok (by decide +kernel : signed true (value [] ['5', '0']) = -1 / 2)
  exact ⟨hpoint, evaluate_of_read.1 _ _ hpoint, hplaces, evaluate_of_read.1 _ _ hplaces⟩

end Decimal

end ExactLength
