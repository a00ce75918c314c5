import ExactLength.Proofs.Converter.Consistency

/-!
# Choosing a precision

A precision that is chosen shows the last length anew and changes nothing else, and a conversion
shows its length at the precision it finds. So a precision may be chosen before a button is pressed
or after it, and of two choices the second one counts. Only the keyboard can tell the difference:
where the precision is the present one already, choosing it does not hand the keyboard to the entry.

This needs what holds after every history, that the texts on display are those of the last length at
the present precision: choosing the present precision does not make them anew.

Results:
* `Consistent.step_choose`: what choosing a precision does.
* `atPrecision_convert`, `atPrecision_press`: conversions and the other buttons do not mind it.
* `run_choose_press`: a precision is chosen before or after a button, and the last choice counts.
-/

namespace ExactLength.Converter

/-- The same state with another precision, and the last length shown at it. -/
def atPrecision (s : Converter) (n : Nat) : Converter :=
  { s with precision := n, readout := s.readoutAt n }

/-- Two states that differ in nothing but the keyboard, which drawing takes out of account. -/
def SameButFocus (s t : Converter) : Prop := s.draw = t.draw

variable {s t : Converter} {n : Nat}

namespace SameButFocus

theorem symm {s t : Converter} (h : SameButFocus s t) : SameButFocus t s := Eq.symm h

theorem trans {s t u : Converter} (h : SameButFocus s t) (h' : SameButFocus t u) :
    SameButFocus s u := Eq.trans h h'

theorem atPrecision (h : SameButFocus s t) (n : Nat) :
    SameButFocus (s.atPrecision n) (t.atPrecision n) :=
  congrArg (Converter.atPrecision · n) h

/-- A button is pressed after the window was drawn, so the keyboard does not count. -/
theorem step_press (h : SameButFocus s t) (b : Button) :
    s.step (.press b) = t.step (.press b) :=
  congrArg (fun drawn => (drawn.press b).focus) h

end SameButFocus

/-! ## Choosing -/

theorem Consistent.atPrecision_precision (h : s.Consistent) : s.atPrecision s.precision = s := by
  have hreadout : s.readoutAt s.precision = s.readout := by
    obtain hlast | ⟨l, hlast⟩ := Option.eq_none_or_eq_some s.last
    · exact readoutAt_of_last_none hlast
    · exact readoutAt_of_last hlast (h.shown l hlast)
  rw [Converter.atPrecision, hreadout]

theorem atPrecision_atPrecision (s : Converter) (m n : Nat) :
    (s.atPrecision m).atPrecision n = s.atPrecision n := by
  have hreadout : (s.atPrecision m).readoutAt n = s.readoutAt n := by
    obtain hlast | ⟨l, hlast⟩ := Option.eq_none_or_eq_some s.last
    · rw [readoutAt_of_last_none (s := s.atPrecision m) hlast, readoutAt_of_last_none hlast]
      exact readoutAt_of_last_none hlast
    · simp only [readoutAt, atPrecision, hlast]
  rw [atPrecision, hreadout]
  rfl

/-- **Choosing.** The precision and the texts that show the last length are replaced, and nothing
else is. -/
theorem Consistent.sameButFocus_choose (h : s.Consistent) (hn : n ∈ precisions) :
    SameButFocus (s.choose n) (s.atPrecision n) := by
  rw [choose_eq]
  split
  · next heq =>
    rw [heq, h.atPrecision_precision]
    rfl
  · rw [roundPrecision_of_mem hn]
    rfl

theorem Consistent.step_choose (h : s.Consistent) (hn : n ∈ precisions) :
    SameButFocus (s.step (.choose n)) (s.atPrecision n) :=
  (h.withEntry s.entry false).sameButFocus_choose hn

/-! ## Choosing and pressing a button -/

/-- **Conversions.** The length is the same at every precision, and it is shown at the one that is
chosen, be it before or after. An error leaves the last length on display. -/
theorem atPrecision_convert (hs : s.precision ∈ precisions) (hn : n ∈ precisions) :
    (s.atPrecision n).convert = s.convert.atPrecision n := by
  obtain ⟨e, he, hconvert⟩ | ⟨l, r, hl, -, hconvert⟩ := convert_eq hs
  · rw [hconvert, convert_of_error (s := s.atPrecision n) he]
    rfl
  · obtain ⟨r', hr'⟩ := l.exists_readout_of_offered hn
    have hshown : (s.deposit l r).readoutAt n = r' := readoutAt_of_last rfl hr'
    rw [hconvert, convert_of_ok (s := s.atPrecision n) hl hr', ← hshown]
    rfl

/-- **Buttons.** All of them but AC, which takes the precision back, leave it alone. -/
theorem atPrecision_press (hs : s.precision ∈ precisions) (hn : n ∈ precisions) {b : Button}
    (hb : b ≠ .clearAll) : (s.atPrecision n).press b = (s.press b).atPrecision n := by
  cases b with
  | insert _ | delete | clearEntry | clearResults => rfl
  | clearAll => exact absurd rfl hb
  | equals => exact atPrecision_convert hs hn

theorem Consistent.step_choose_press (h : s.Consistent) (hn : n ∈ precisions) {b : Button}
    (hb : b ≠ .clearAll) : SameButFocus ((s.step (.choose n)).step (.press b))
      ((s.step (.press b)).step (.choose n)) := by
  have hpress : (s.draw.atPrecision n).press b = (s.draw.press b).atPrecision n :=
    atPrecision_press (s := s.draw) h.offered hn hb
  have hbefore : (s.step (.choose n)).step (.press b) = ((s.draw.press b).atPrecision n).focus := by
    rw [(h.step_choose hn).step_press b, ← hpress]
    rfl
  have hafter := (h.step (.press b)).step_choose hn
  rw [hbefore]
  exact hafter.symm

theorem Consistent.step_choose_choose (h : s.Consistent) {m : Nat} (hm : m ∈ precisions)
    (hn : n ∈ precisions) :
    SameButFocus ((s.step (.choose m)).step (.choose n)) (s.step (.choose n)) := by
  have hfirst := (h.step_choose hm).atPrecision n
  rw [atPrecision_atPrecision] at hfirst
  exact (((h.step (.choose m)).step_choose hn).trans hfirst).trans (h.step_choose hn).symm

/-- **Every history.** Whether a precision is chosen before any button but AC or after it, the state
is the same, apart from the keyboard. A choice that another one follows makes no difference. -/
theorem run_choose_press (events : List Event) {n : Nat} (hn : n ∈ precisions) :
    (∀ b : Button, b ≠ .clearAll →
      SameButFocus (run (events ++ [.choose n, .press b]))
        (run (events ++ [.press b, .choose n]))) ∧
    ∀ m ∈ precisions,
      SameButFocus (run (events ++ [.choose m, .choose n])) (run (events ++ [.choose n])) := by
  have h := consistent_run events
  simp only [run_append, List.foldl_cons, List.foldl_nil]
  exact ⟨fun b hb => h.step_choose_press hn hb, fun m hm => h.step_choose_choose hm hn⟩

/-- An inch is on display, and the conversion of a bare number is refused: halves are chosen before
it or after it, with quarters in between or not. -/
theorem run_choose_press_refused :
    2 ∈ precisions ∧ Button.equals ≠ .clearAll ∧ 4 ∈ precisions ∧
    (run [.type ['1', '"'], .press .equals, .type ['1'], .press .equals]).hasResult = true ∧
    (run [.type ['1', '"'], .press .equals, .type ['1'], .press .equals]).error ≠ [] ∧
    SameButFocus
      (run [.type ['1', '"'], .press .equals, .type ['1'], .choose 2, .press .equals])
      (run [.type ['1', '"'], .press .equals, .type ['1'], .press .equals, .choose 2]) ∧
    SameButFocus
      (run [.type ['1', '"'], .press .equals, .type ['1'], .choose 4, .choose 2])
      (run [.type ['1', '"'], .press .equals, .type ['1'], .choose 2]) := by
  have h := run_choose_press [.type ['1', '"'], .press .equals, .type ['1']] (n := 2) (by decide)
  exact ⟨by decide, by decide, by decide, by decide +kernel, by decide +kernel,
    h.1 .equals (by decide), h.2 4 (by decide)⟩

end ExactLength.Converter
