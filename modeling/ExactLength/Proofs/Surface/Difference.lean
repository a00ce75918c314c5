import ExactLength.Proofs.Surface.Signed

/-!
# Fractions taken from a fraction or a decimal number

Mixed numbers are looked for before there are tokens, so the digits in front of a dash are taken for
a whole number wherever they stand. In `3/4 - 1/2` they are a denominator: the text is read as
`3/(4 + 1/2)`. In `1.5 - 1/2` they are decimals: what is left of the number is `1.`, and a
parenthesis cannot follow it. A difference of fractions is written `3/4 - (1/2)`.

Results:
* `expandMixed_behind`: a mixed number with a dash is written out behind other digits.
* `evaluate_behind_stroke`, `evaluate_behind_point`: what becomes of the digits in front of it.
* `evaluate_difference`: a fraction taken from a fraction or from a decimal number.
* `evaluate_difference_eq_iff`: when the outcome is the difference all the same.
-/

namespace ExactLength

open MixedNumber Digits Text

/-! ## Writing out -/

/-- **Writing out.** Digits and a sign in front do not keep a mixed number from being written out.
-/
theorem Text.expandMixed_behind (a : Run) {b c d : Run} {sign : Char} {t : Text}
    (hd : sign.isDigit = false) (hb : isBlank sign = false) (hsign : sign ≠ '-')
    (ht : Written .dash (Leaf.mixed b c d) t) :
    expandMixed (a.digits ++ sign :: t) = a.digits ++ sign :: (Leaf.mixed b c d).sumText := by
  have hruns := Leaf.isRuns_mixed b c d
  have hsum : Copies .blanks (Leaf.mixed b c d).sumText (Leaf.mixed b c d).sumText :=
    fun rest _ => expandJoint_sumText_append hruns rest
  have hparts {joint : Joint} (cs : Text) : joint.Parts (sign :: cs) := Joint.parts_cons hd hb hsign
  exact ((Copies.run a).append ((Copies.written ht hruns).cons hd)
    fun _ _ => hparts _).expandMixed_eq
    ((Copies.run a).append (hsum.cons hd) fun _ _ => hparts _)

/-! ## Values -/

theorem Run.mixed_ne_zero {b c d : Run} (hb : b.value ≠ 0) :
    b.value + c.value / d.value ≠ 0 := by
  have hwhole : 0 ≤ b.value := Rat.natCast_nonneg
  have hfraction : 0 ≤ c.value / d.value := by
    rw [value, value, ← Rat.intCast_natCast, ← Rat.intCast_natCast, ← Rat.divInt_eq_div]
    exact Rat.divInt_nonneg (Int.natCast_nonneg _) (Int.natCast_nonneg _)
  grind

theorem MixedNumber.Written.admitted {joint : Joint} {b c d : Run} {t : Text}
    (h : Written joint (Leaf.mixed b c d) t) : t.Admitted := by
  obtain ⟨g, x, y, hg, hx, hy, rfl⟩ := h
  have hjoint : g.Admitted := by
    cases joint with
    | dash =>
      obtain ⟨x, y, hx, hy, rfl⟩ := hg
      exact hx.admitted.append (hy.admitted.cons rfl)
    | blanks => exact Blank.admitted hg.2
  exact (((b.admitted.append hjoint).append c.admitted).append hx.admitted).append
    (hy.admitted.cons rfl) |>.append d.admitted

section Behind

variable (a : Run) {b c d : Run} {t : Text}

/-- **Denominators.** Behind a stroke a mixed number is the divisor. -/
theorem evaluate_behind_stroke (hb : b.value ≠ 0) (hd : d.value ≠ 0)
    (ht : Written .dash (Leaf.mixed b c d) t) :
    evaluate (a.digits ++ '/' :: t) = .ok (a.value / (b.value + c.value / d.value)) := by
  have hadmitted : Admitted (a.digits ++ '/' :: t) := a.admitted.append (ht.admitted.cons rfl)
  have hstart : NoDigitAtStart (Leaf.mixed b c d).sumText := noDigitAtStart_cons.mpr rfl
  have hsum := b.scans_sum c d
  rw [decide_eq_false hd] at hsum
  have hscan : tokensFrom 0 (expandMixed (a.digits ++ '/' :: t)) =
      .ok (.number a.value :: .op .div :: (Leaf.dashed b c d).tokens) := by
    have hstroke := a.integer.tokensFrom_append 0 (a.integer.read_stroke fun _ => hstart)
    rw [a.reading_integer] at hstroke
    rw [expandMixed_behind a rfl (by decide) (by decide) ht]
    refine hstroke.trans ?_
    rw [(hsum.symbol (c := '/') (t := .op .div) rfl rfl).tokensFrom_eq]
    rfl
  have hderives : Derives .sum (.number a.value :: .op .div :: (Leaf.dashed b c d).tokens) 1 2
      (.binary .div (.lit a.value) (Leaf.dashed b c d).tree) :=
    .sum (.product (.term (.number a.value)) rfl (Leaf.dashed b c d).derives_tokens)
  rw [evaluate_eq_eval hadmitted hscan hderives (by decide) (by decide),
    Expr.eval_binary_of_ok rfl (Leaf.eval_tree (.dashed b c d) (by decide : 0 < UInt32.size))]
  exact Operator.apply_eq_result fun _ => Run.mixed_ne_zero hb

/-- **Decimals.** Behind a point a mixed number is one number too many. -/
theorem evaluate_behind_point (hd : d.value ≠ 0) (ht : Written .dash (Leaf.mixed b c d) t) :
    evaluate (a.digits ++ '.' :: t) = .error (.trailingInput .lparen (a.digits.length + 1)) := by
  have hadmitted : Admitted (a.digits ++ '.' :: t) := a.admitted.append (ht.admitted.cons rfl)
  obtain ⟨cs, hcs⟩ : ∃ cs, (Leaf.mixed b c d).sumText = '(' :: cs := ⟨_, rfl⟩
  have hends : EndsNumber ('(' :: cs) := endsNumber_cons rfl (by decide) (by decide)
  have hexpand : expandMixed (a.digits ++ '.' :: t) = _ :=
    expandMixed_behind a rfl (by decide) (by decide) ht
  have hsum := b.scans_sum c d
  rw [decide_eq_false hd, hcs] at hsum
  have htokens := hsum.tokensFrom_eq (a.digits.length + 1)
  rw [tokensFrom, Lexeme.scanFrom_symbol rfl rfl] at htokens
  cases hlexemes : Lexeme.scanFrom (a.digits.length + 1 + 1) cs with
  | error e =>
    rw [hlexemes] at htokens
    cases htokens
  | ok lexemes =>
    -- the digits and the point are a numeral without places
    let n : Numeral :=
      ⟨a.digits, some [], by simpa using a.isRun.isDigit, .inr (Option.some_ne_none _)⟩
    have hlength : 0 + n.text.length = a.digits.length + 1 := by simp [n, Numeral.text]
    have hnumber := n.scanFrom_append 0 (n.read_text hends)
    rw [hlength, Lexeme.scanFrom_symbol rfl rfl, hlexemes] at hnumber
    have hscan : Lexeme.scan (expandMixed (a.digits ++ '.' :: t)) =
        .ok (⟨.number n.reading, 0⟩ :: ⟨.lparen, a.digits.length + 1⟩ :: lexemes) := by
      rw [hexpand, hcs, List.append_cons]
      exact hnumber
    have hnot : ∀ o, Token.lparen ≠ .op o := fun _ h => Token.noConfusion h
    exact evaluate_eq_error_of_parse hadmitted hscan (parse_number_cons hnot _ _ _ _ _)

end Behind

/-! ## Differences -/

/-- Digits, a sign and digits, and a fraction taken from them, as in `3/4 - 1/2`. -/
def differenceText (a : Run) (sign : Char) (b c d : Run) : Text :=
  a.digits ++ sign :: (b.digits ++ [' ', '-', ' '] ++ c.digits ++ '/' :: d.digits)

/-- The digits in front of the dash and the fraction behind it are written as a mixed number. -/
theorem written_difference (b c d : Run) : Written .dash (Leaf.mixed b c d)
    (b.digits ++ [' ', '-', ' '] ++ c.digits ++ '/' :: d.digits) := by
  have hspace : Blank [' '] := List.forall_mem_singleton.2 rfl
  refine ⟨[' ', '-', ' '], [], [], ⟨[' '], [' '], hspace, hspace, rfl⟩, nofun, nofun, ?_⟩
  simp [Leaf.mixed]

/-- **A fraction taken from a fraction** divides by the mixed number that its denominator begins,
and **a fraction taken from a decimal number** is refused at the parenthesis of the mixed number
that the decimals begin. -/
theorem evaluate_difference (a b c d : Run) (hb : b.value ≠ 0) (hd : d.value ≠ 0) :
    evaluate (differenceText a '/' b c d) = .ok (a.value / (b.value + c.value / d.value)) ∧
    evaluate (differenceText a '.' b c d) = .error (.trailingInput .lparen (a.digits.length + 1)) :=
  ⟨evaluate_behind_stroke a hb hd (written_difference b c d),
    evaluate_behind_point a hd (written_difference b c d)⟩

/-- `3/4 - 1/2` is 2/3, and `1.5 - 1/2` has no value. -/
theorem evaluate_difference_halves :
    evaluate ['3', '/', '4', ' ', '-', ' ', '1', '/', '2'] = .ok (2 / 3) ∧
    evaluate ['1', '.', '5', ' ', '-', ' ', '1', '/', '2'] = .error (.trailingInput .lparen 2) := by
  have hquotient := (evaluate_difference (.ofNat 3) (.ofNat 4) (.ofNat 1) (.ofNat 2)
    (by decide +kernel) (by decide +kernel)).1
  have hrefused := (evaluate_difference (.ofNat 1) (.ofNat 5) (.ofNat 1) (.ofNat 2)
    (by decide +kernel) (by decide +kernel)).2
  have hthirds : (3 : Rat) / (4 + 1 / 2) = 2 / 3 := by decide +kernel
  simp only [Run.value_ofNat] at hquotient
  exact ⟨hquotient.trans (congrArg Except.ok hthirds), hrefused⟩

/-- The difference is not what comes out, at `3/4 - 1/2` for one. -/
theorem not_evaluate_difference : ¬ ∀ a b c d : Run, b.value ≠ 0 → d.value ≠ 0 →
    evaluate (differenceText a '/' b c d) = .ok (a.value / b.value - c.value / d.value) ∧
    ∃ v, evaluate (differenceText a '.' b c d) = .ok v := by
  intro h
  have hfour : (Run.ofNat 4).value ≠ 0 := by decide +kernel
  have htwo : (Run.ofNat 2).value ≠ 0 := by decide +kernel
  have hdifference := (h (.ofNat 3) (.ofNat 4) (.ofNat 1) (.ofNat 2) hfour htwo).1
  have hquotient := evaluate_behind_stroke (.ofNat 3) hfour htwo
    (written_difference (.ofNat 4) (.ofNat 1) (.ofNat 2))
  rw [differenceText, hquotient] at hdifference
  exact absurd (Except.ok.inj hdifference) (by decide +kernel)

/-- **Where it makes no difference.** The quotient is the difference of the two fractions only if
nothing is taken away, or if what is taken away leaves the denominator of the first fraction. -/
theorem evaluate_difference_eq_iff (a c : Run) {b d : Run} (hb : b.value ≠ 0) (hd : d.value ≠ 0) :
    evaluate (differenceText a '/' b c d) = .ok (a.value / b.value - c.value / d.value) ↔
      c.value = 0 ∨ a.value / b.value - c.value / d.value = b.value := by
  have hquotient := evaluate_behind_stroke a hb hd (written_difference b c d)
  have hne : b.value + c.value / d.value ≠ 0 := Run.mixed_ne_zero hb
  rw [differenceText, hquotient, Except.ok.injEq]
  grind

end ExactLength
