import ExactLength.Expr.Printer
import ExactLength.Proofs.MixedNumber.Reading
import ExactLength.Proofs.Number.LowestTerms

/-!
# Trees are told by their texts

No two trees have the same text. A number that begins with a dash or has a stroke in it stands in
brackets, so its signs are not those of the tree; every other number is a run of digits. An operator
stands between its operands and a pair of parentheses around the three, so where the first operand
ends the operator begins.

The operands of a tree have more text behind them, so the proof is about a tree in front of any
text. There is one place where it ends, unless what follows begins with a digit, which a number at
the end would take in.

Results:
* `literalText_cases`: what is written of a number in a tree.
* `literalText_append_inj`, `text_append_inj`: a number, and a tree, in front of more text.
* `text_inj`: trees with the same text are the same.
-/

namespace ExactLength

open Text Digits

theorem Text.cut_inj {c : Char} {a b s t : Text} (ha : c ∉ a) (hb : c ∉ b)
    (h : a ++ c :: s = b ++ c :: t) : a = b ∧ s = t := by
  have hfront {x y : Text} (hx : c ∉ x) : (x ++ c :: y).takeWhile (· != c) = x := by
    rw [List.takeWhile_append_of_pos fun d hd => by simpa using ne_of_mem_of_not_mem hd hx,
      List.takeWhile_cons_of_neg (by simp), List.append_nil]
  obtain rfl : a = b := by rw [← hfront (y := s) ha, h, hfront hb]
  exact ⟨rfl, (List.cons.inj (List.append_cancel_left h)).2⟩

namespace Digits.IsRun

variable {a b s t : Text}

theorem append_ne_cons {c : Char} (ha : IsRun a) (hc : c.isDigit = false) : a ++ s ≠ c :: t := by
  intro h
  obtain ⟨d, ds, rfl⟩ := List.exists_cons_of_ne_nil ha.ne_nil
  obtain rfl := (List.cons.inj h).1
  rw [ha.isDigit d List.mem_cons_self] at hc
  cases hc

/-- A run of digits ends at the first character that is not a digit. -/
theorem append_inj (ha : IsRun a) (hb : IsRun b) (hs : NoDigitAtStart s) (ht : NoDigitAtStart t)
    (h : a ++ s = b ++ t) : a = b ∧ s = t := by
  constructor
  · rw [← leading_run ha.isDigit hs, h, leading_run hb.isDigit ht]
  · rw [← after_run ha.isDigit hs, h, after_run hb.isDigit ht]

end Digits.IsRun

theorem Fraction.bracket_notMem_text (r : Rat) : ']' ∉ text r := by
  have hnum : ']' ∉ ofInt r.num := fun h => by
    obtain h | h := isDigit_or_eq_of_mem_ofInt h <;> cases h
  have hden : ']' ∉ ofNat r.den := fun h => by cases isDigit_of_mem_ofNat h
  unfold text
  split
  · exact hnum
  · simp [hnum, hden]

namespace Expr

/-! ## Numbers -/

/-- A number in a tree stands in brackets or is a run of digits. -/
theorem literalText_cases (r : Rat) :
    literalText r = '[' :: (Fraction.text r ++ [']']) ∨
      literalText r = Fraction.text r ∧ IsRun (Fraction.text r) := by
  unfold literalText
  split
  · exact .inl rfl
  · next h =>
    obtain ⟨hr, hint⟩ := not_or.1 h
    have htext : Fraction.text r = ofNat r.num.natAbs := by
      rw [Fraction.text_of_nonneg (Rat.not_lt.1 hr), if_pos (eq_true_of_ne_false hint)]
    rw [htext]
    exact .inr ⟨rfl, ofNat_ne_nil _, fun _ hc => isDigit_of_mem_ofNat hc⟩

theorem literalText_append_ne {c : Char} (hbracket : c ≠ '[') (hdigit : c.isDigit = false) (r : Rat)
    (s t : Text) : literalText r ++ s ≠ c :: t := by
  obtain hr | ⟨hr, hrun⟩ := literalText_cases r
  · rw [hr]
    exact fun h => hbracket (List.cons.inj h).1.symm
  · rw [hr]
    exact hrun.append_ne_cons hdigit

variable {s t : Text}

/-- **Numbers.** A number in front of more text ends in one place, and its text tells it. -/
theorem literalText_append_inj {q r : Rat} (hs : NoDigitAtStart s) (ht : NoDigitAtStart t)
    (h : literalText q ++ s = literalText r ++ t) : q = r ∧ s = t := by
  obtain hq | ⟨hq, hrun⟩ := literalText_cases q <;>
    obtain hr | ⟨hr, hrun'⟩ := literalText_cases r <;> rw [hq, hr] at h
  · have hinner : Fraction.text q ++ ']' :: s = Fraction.text r ++ ']' :: t := by simpa using h
    obtain ⟨htext, hst⟩ := Text.cut_inj (Fraction.bracket_notMem_text q)
      (Fraction.bracket_notMem_text r) hinner
    exact ⟨Fraction.text_injective htext, hst⟩
  · exact absurd h.symm (hrun'.append_ne_cons (by decide))
  · exact absurd h (hrun.append_ne_cons (by decide))
  · obtain ⟨htext, hst⟩ := hrun.append_inj hrun' hs ht h
    exact ⟨Fraction.text_injective htext, hst⟩

/-! ## Trees -/

theorem text_binary_append (o : Operator) (a b : Expr) (s : Text) : (binary o a b).text ++ s =
    '(' :: (a.text ++ ' ' :: o.symbol :: ' ' :: (b.text ++ ')' :: s)) := by
  simp [text]

/-- **Trees.** A tree in front of more text ends in one place, and its text tells it. The induction
is on the tree; the texts that follow are arbitrary, for those of the operands are followed by the
rest of the tree. -/
theorem text_append_inj {e e' : Expr} (hs : NoDigitAtStart s) (ht : NoDigitAtStart t)
    (h : e.text ++ s = e'.text ++ t) : e = e' ∧ s = t := by
  induction e generalizing e' s t with
  | lit q =>
    cases e' with
    | lit r =>
      obtain ⟨rfl, hst⟩ := literalText_append_inj hs ht h
      exact ⟨rfl, hst⟩
    | neg b => exact absurd h (literalText_append_ne (by decide) (by decide) q s _)
    | binary o b c =>
      rw [text_binary_append] at h
      exact absurd h (literalText_append_ne (by decide) (by decide) q s _)
  | neg a ih =>
    cases e' with
    | lit r => exact absurd h.symm (literalText_append_ne (by decide) (by decide) r t _)
    | neg b =>
      obtain ⟨rfl, hst⟩ := ih hs ht (List.cons.inj h).2
      exact ⟨rfl, hst⟩
    | binary o b c =>
      rw [text_binary_append] at h
      exact absurd (List.cons.inj h).1 (by decide)
  | binary o a b iha ihb =>
    rw [text_binary_append] at h
    cases e' with
    | lit r => exact absurd h.symm (literalText_append_ne (by decide) (by decide) r t _)
    | neg c => exact absurd (List.cons.inj h).1 (by decide)
    | binary o' a' b' =>
      rw [text_binary_append] at h
      -- each operand ends where a space or a parenthesis follows it
      have hspace (u : Text) : NoDigitAtStart (' ' :: u) := noDigitAtStart_cons.2 (by decide)
      have hclose (u : Text) : NoDigitAtStart (')' :: u) := noDigitAtStart_cons.2 (by decide)
      obtain ⟨rfl, hrest⟩ := iha (hspace _) (hspace _) (List.cons.inj h).2
      obtain ⟨hsymbol, hright⟩ := List.cons.inj (List.cons.inj hrest).2
      obtain ⟨rfl, hend⟩ := ihb (hclose _) (hclose _) (List.cons.inj hright).2
      have ho : o = o' := by
        have hread := Operator.ofSymbol?_symbol o
        rw [hsymbol, Operator.ofSymbol?_symbol] at hread
        exact (Option.some.inj hread).symm
      exact ⟨by rw [ho], (List.cons.inj hend).2⟩

/-- **Unambiguous texts.** Two trees have the same text exactly when they are the same tree, with
the same numbers, signs and grouping. -/
theorem text_inj {e e' : Expr} : e.text = e'.text ↔ e = e' := by
  refine ⟨fun h => ?_, congrArg text⟩
  have hnil : e.text ++ [] = e'.text ++ [] := congrArg (· ++ []) h
  exact (text_append_inj noDigitAtStart_nil noDigitAtStart_nil hnil).1

-- the opposite of one and one less than nothing, a half and one over two
example :
    (neg (lit 1)).text = ['-', '1'] ∧ (lit (-1)).text = ['[', '-', '1', ']'] ∧
    (lit (1 / 2)).text = ['[', '1', '/', '2', ']'] ∧
    (binary .div (lit 1) (lit 2)).text = ['(', '1', ' ', '/', ' ', '2', ')'] := by
  decide +kernel

end Expr

end ExactLength
