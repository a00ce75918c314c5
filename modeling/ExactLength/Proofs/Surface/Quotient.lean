import ExactLength.Proofs.Surface.Decimal

/-!
# Quotients of two numerals

Two decimal numerals with a stroke between them are worth their quotient when the stroke has blanks
around it. Without blanks they are worth the same, unless the first numeral has no point and the
second one has digits in front of its point.

**Deviation.** A stroke between two digits makes a fraction of the digits before it and the digits
behind it. If a point follows these, the second numeral is torn apart: `1/2.5` is read as `1/2` with
`.5` behind it, and refused; in `1/0.5` the denominator is the zero in front of the point.

Results:
* `Numeral.evaluate_spaced`: the quotient with blanks.
* `Numeral.evaluate_joined`, `Numeral.evaluate_torn`: without blanks.
* `Numeral.evaluate_quotient`: when both are worth the same, and what comes out instead.
-/

namespace ExactLength

open MixedNumber Digits Text

namespace Numeral

variable (x y : Numeral)

/-- Between these two numerals a stroke takes the digits in front of the second point for a
denominator. -/
def Tears : Prop := x.places = none ∧ y.whole ≠ [] ∧ y.places ≠ none

instance : Decidable (x.Tears y) := inferInstanceAs (Decidable (_ ∧ _ ∧ _))

/-! ## Writing out -/

theorem expandMixed_spaced : expandMixed (x.text ++ [' ', '/', ' '] ++ y.text) =
    x.text ++ [' ', '/', ' '] ++ y.text := by
  have hcopies (joint : Joint) : Copies joint (x.text ++ ' ' :: '/' :: ' ' :: y.text)
      (x.text ++ ' ' :: '/' :: ' ' :: y.text) :=
    (x.copies_text joint).append ((((y.copies_text joint).cons rfl).cons rfl).cons rfl)
      fun _ _ => Joint.parts_operator .div nofun
  simpa using (hcopies .dash).expandMixed_eq (hcopies .blanks)

theorem expandMixed_joined : expandMixed (x.text ++ '/' :: y.text) = x.text ++ '/' :: y.text := by
  have hcopies (joint : Joint) : Copies joint (x.text ++ '/' :: y.text) (x.text ++ '/' :: y.text) :=
    (x.copies_text joint).append ((y.copies_text joint).cons rfl)
      fun _ _ => Joint.parts_cons rfl (by decide) (by decide)
  exact (hcopies .dash).expandMixed_eq (hcopies .blanks)

theorem admitted_spaced : Admitted (x.text ++ [' ', '/', ' '] ++ y.text) :=
  (x.admitted_text.append (((admitted_nil.cons rfl).cons rfl).cons rfl)).append y.admitted_text

theorem admitted_joined : Admitted (x.text ++ '/' :: y.text) :=
  x.admitted_text.append (y.admitted_text.cons rfl)

/-! ## Values -/

theorem evaluate_of_tokens {cs : Text} {a b : Rat} (hcs : cs.Admitted)
    (hscan : tokensFrom 0 cs.expandMixed = .ok [.number a, .op .div, .number b]) :
    evaluate cs = Operator.div.apply a b := by
  have hderives : Derives .sum [.number a, .op .div, .number b] 0 1
      (.binary .div (.lit a) (.lit b)) :=
    .sum (.product (.term (.number a)) rfl (.number b))
  rw [evaluate_eq_eval hcs hscan hderives (by decide) (by decide)]
  rfl

/-- **With blanks** around the stroke the text is worth the quotient. -/
theorem evaluate_spaced :
    evaluate (x.text ++ [' ', '/', ' '] ++ y.text) = Operator.div.apply x.reading y.reading := by
  have hscans := x.scans_text.operator .div y.scans_text
  have hscan := hscans.tokensFrom_eq 0
  refine evaluate_of_tokens (x.admitted_spaced y) ?_
  rw [x.expandMixed_spaced y]
  simpa [Operator.symbol] using hscan

theorem evaluate_spaced_exact (hx : x.placeCount < UInt32.size) (hy : y.placeCount < UInt32.size) :
    evaluate (x.text ++ [' ', '/', ' '] ++ y.text) =
      if y.value = 0 then .error .divisionByZero else .ok (x.value / y.value) := by
  rw [x.evaluate_spaced y, x.reading_eq_value hx, y.reading_eq_value hy, Operator.apply_eq]
  simp only [true_and, Operator.result]

/-- Without a point in either numeral the text is one fraction. -/
theorem evaluate_fraction (hx : x.places = none) (hy : y.places = none) :
    evaluate (x.text ++ '/' :: y.text) = Operator.div.apply x.reading y.reading := by
  have hwhole {n : Numeral} (hn : n.places = none) : ∃ r : Run, n = r.integer := by
    obtain ⟨whole, places, isDigit, ne_nil⟩ := n
    subst hn
    exact ⟨⟨whole, ne_nil.resolve_right (fun h => h rfl), by simpa using isDigit⟩, rfl⟩
  obtain ⟨n, rfl⟩ := hwhole hx
  obtain ⟨d, rfl⟩ := hwhole hy
  rw [n.reading_integer, d.reading_integer, Operator.apply_eq]
  simp only [true_and]
  have hscan := (n.scans_fraction d).tokensFrom_eq 0
  have hexpand := n.integer.expandMixed_joined d.integer
  have hadmitted := n.integer.admitted_joined d.integer
  split
  · next hd =>
    rw [decide_eq_true hd] at hscan
    refine evaluate_eq_error_of_scan hadmitted ?_
    rw [hexpand]
    exact hscan
  · next hd =>
    rw [decide_eq_false hd] at hscan
    have hderives : Derives .sum [.number (n.value / d.value)] 0 0 (.lit (n.value / d.value)) :=
      .sum (.term (.number _))
    refine evaluate_eq_eval hadmitted ?_ hderives (by decide) (by decide)
    rw [hexpand]
    exact hscan

/-- **Without blanks** the text is worth the quotient too if the stroke tears nothing apart. -/
theorem evaluate_joined (h : ¬ x.Tears y) :
    evaluate (x.text ++ '/' :: y.text) = Operator.div.apply x.reading y.reading := by
  by_cases hfraction : x.places = none ∧ y.places = none
  · exact x.evaluate_fraction y hfraction.1 hfraction.2
  · -- the stroke is a token of its own, since a point stands next to it or further in front
    have hstart : x.places = none → NoDigitAtStart y.text := by
      intro hx
      have hy : y.places ≠ none := fun hy => hfraction ⟨hx, hy⟩
      have hwhole : y.whole = [] := Classical.not_not.1 fun hwhole => h ⟨hx, hwhole, hy⟩
      obtain ⟨places, hp⟩ := Option.ne_none_iff_exists'.mp hy
      rw [text, hp, hwhole]
      exact noDigitAtStart_cons.mpr rfl
    have hstroke := (y.scans_text.symbol (c := '/') (t := .op .div) rfl rfl).tokensFrom_eq
      (0 + x.text.length)
    refine evaluate_of_tokens (x.admitted_joined y) ?_
    rw [x.expandMixed_joined y, x.tokensFrom_append 0 (x.read_stroke hstart), hstroke]
    rfl

/-- The digits behind the point, with the point in front of them. -/
def fractional : Numeral :=
  ⟨[], some (y.places.getD []), by simpa using y.isDigit_places, .inr nofun⟩

theorem text_eq_append_fractional (h : y.places ≠ none) :
    y.text = y.whole ++ y.fractional.text := by
  obtain ⟨places, hp⟩ := Option.ne_none_iff_exists'.mp h
  simp [text, fractional, hp]

/-- The digits on both sides of the stroke are one number, and what is left of the second numeral is
another one. -/
theorem scanFrom_torn (h : x.Tears y) :
    Lexeme.scanFrom 0 (x.text ++ '/' :: y.text) =
      if toNat y.whole = 0 then .error .divisionByZero
      else .ok [⟨.number (toNat x.whole / toNat y.whole), 0⟩,
        ⟨.number y.fractional.reading, x.whole.length + 1 + y.whole.length⟩] := by
  obtain ⟨hx, hwhole, hy⟩ := h
  let n : Run := ⟨x.whole, x.ne_nil.resolve_right fun h => h hx, x.isDigit_whole⟩
  let d : Run := ⟨y.whole, hwhole, y.isDigit_whole⟩
  have htext : x.text ++ '/' :: y.text = x.whole ++ '/' :: y.whole ++ y.fractional.text := by
    rw [y.text_eq_append_fractional hy, text, hx, List.append_assoc, List.cons_append]
  have hread : Literal.read (x.whole ++ '/' :: y.whole ++ y.fractional.text) =
      (.fraction x.whole y.whole, y.fractional.text) := by
    rw [List.append_assoc]
    exact n.read_fraction d (noDigitAtStart_cons.mpr rfl)
  have hlength : 0 + (Literal.fraction x.whole y.whole).text.length =
      x.whole.length + 1 + y.whole.length := by
    simp [Literal.text]
    omega
  have hvalue : (Literal.fraction x.whole y.whole).value =
      if toNat y.whole = 0 then .error .divisionByZero else .ok (n.value / d.value) := by
    have hzero : d.value = 0 ↔ toNat y.whole = 0 := Rat.natCast_eq_zero_iff
    have h := n.value_fraction d
    simp only [hzero] at h
    exact h
  have hends : EndsNumber [] := fun _ h => absurd h (Option.not_mem_none _)
  have hrest := y.fractional.scanFrom_append (x.whole.length + 1 + y.whole.length)
    (y.fractional.read_text hends)
  rw [List.append_nil, Lexeme.scanFrom_nil] at hrest
  have hscan : Lexeme.scanFrom 0 (x.whole ++ '/' :: y.whole ++ y.fractional.text) = _ :=
    scanFrom_read (n.starts_append ('/' :: d.digits)) hread
  rw [htext, hscan, hlength, hrest, hvalue]
  split <;> rfl

/-- **Torn apart.** The digits in front of the second point are the denominator, and what is left of
the second numeral is one number too many. -/
theorem evaluate_torn (h : x.Tears y) :
    evaluate (x.text ++ '/' :: y.text) =
      if toNat y.whole = 0 then .error .divisionByZero
      else .error (.trailingInput (.number y.fractional.reading)
        (x.whole.length + 1 + y.whole.length)) := by
  have hadmitted := x.admitted_joined y
  have hscan := x.scanFrom_torn y h
  rw [← x.expandMixed_joined y] at hscan
  split
  · next hzero =>
    rw [if_pos hzero] at hscan
    refine evaluate_eq_error_of_scan hadmitted ?_
    rw [tokensFrom, hscan]
    rfl
  · next hzero =>
    rw [if_neg hzero] at hscan
    have hnot : ∀ o, Token.number y.fractional.reading ≠ .op o := fun _ h => Token.noConfusion h
    exact evaluate_eq_error_of_parse hadmitted hscan (parse_number_cons hnot _ _ _ _ _)

/-- **Quotients.** With blanks around the stroke two numerals are worth their quotient, exactly if
they have fewer than `2 ^ 32` places. Without blanks they are worth the same, unless the stroke
tears the second one apart: then the digits in front of its point are a denominator, and what is
left is refused. -/
theorem evaluate_quotient :
    (x.placeCount < UInt32.size → y.placeCount < UInt32.size →
      evaluate (x.text ++ [' ', '/', ' '] ++ y.text) =
        if y.value = 0 then .error .divisionByZero else .ok (x.value / y.value)) ∧
    (¬ x.Tears y →
      evaluate (x.text ++ '/' :: y.text) = evaluate (x.text ++ [' ', '/', ' '] ++ y.text)) ∧
    (x.Tears y → evaluate (x.text ++ '/' :: y.text) =
      if toNat y.whole = 0 then .error .divisionByZero
      else .error (.trailingInput (.number y.fractional.reading)
        (x.whole.length + 1 + y.whole.length))) := by
  refine ⟨x.evaluate_spaced_exact y, fun h => ?_, x.evaluate_torn y⟩
  rw [x.evaluate_joined y h, x.evaluate_spaced y]

/-- `1.5/2.5` is 3/5, and `1/2.5` has no value. -/
theorem evaluate_quotient_halves :
    evaluate ['1', '.', '5', '/', '2', '.', '5'] = .ok (3 / 5) ∧
    evaluate ['1', '/', '2', '.', '5'] = .error (.trailingInput (.number (1 / 2)) 3) := by
  let one : Numeral := ⟨['1'], none, List.all_eq_true.1 (by decide), .inl nofun⟩
  let sesqui : Numeral := ⟨['1'], some ['5'], List.all_eq_true.1 (by decide), .inr nofun⟩
  let divisor : Numeral := ⟨['2'], some ['5'], List.all_eq_true.1 (by decide), .inr nofun⟩
  constructor
  · have hquotient := sesqui.evaluate_quotient divisor
    refine (hquotient.2.1 (by decide)).trans ((hquotient.1 (by decide) (by decide)).trans ?_)
    rw [if_neg (by decide +kernel)]
    exact congrArg Except.ok (by decide +kernel)
  · have hplaces : divisor.fractional.reading = 1 / 2 := by decide +kernel
    rw [← hplaces]
    exact (one.evaluate_quotient divisor).2.2 (by decide)

/-- At `1/2.5` for one, the blanks make a difference. -/
theorem not_evaluate_quotient : ¬ ∀ (x y : Numeral) (v : Rat),
    evaluate (x.text ++ [' ', '/', ' '] ++ y.text) = .ok v →
    evaluate (x.text ++ '/' :: y.text) = .ok v ∧ v = x.value / y.value := by
  intro h
  let one : Numeral := ⟨['1'], none, List.all_eq_true.1 (by decide), .inl nofun⟩
  let divisor : Numeral := ⟨['2'], some ['5'], List.all_eq_true.1 (by decide), .inr nofun⟩
  have hspaced : evaluate (one.text ++ [' ', '/', ' '] ++ divisor.text) = .ok (2 / 5) := by
    rw [one.evaluate_spaced_exact divisor (by decide) (by decide), if_neg (by decide +kernel)]
    exact congrArg Except.ok (by decide +kernel)
  have hjoined := (h one divisor _ hspaced).1
  rw [one.evaluate_torn divisor (by decide)] at hjoined
  cases hjoined

end Numeral

end ExactLength
