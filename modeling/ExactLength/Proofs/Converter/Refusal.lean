import ExactLength.Proofs.Converter.History

/-!
# Refused conversions

A conversion can be refused at two places: the entry may be no length, and a length may have no
texts, when its inches are to be shown in parts of size zero. The length is put on display only
after its texts were made, so in either case the display is left as it was, and an error is told in
the place of the working. Whatever was refused, a conversion that succeeds afterwards replaces all
that was left of it.

Results:
* `step_equals_of_refuses`, `step_equals_of_ok`: what a press of `=` makes of the state.
* `exists_refuses_iff`: when it is refused.
* `attempt_congr`: a success depends on the entry and the precision and on nothing else.
* `step_equals_atomic`: a refusal changes nothing on display and leaves no trace.
-/

namespace ExactLength.Converter

/-- Why the entry is not shown: it is no length, or the length cannot be shown. -/
inductive Refuses (s : Converter) : LengthError → Prop
  | noLength {e : LengthError} (h : Length.ofText s.entry = .error e) : Refuses s e
  | noTexts {e : LengthError} {l : Length} (h : Length.ofText s.entry = .ok l)
    (hr : l.readout s.precision = .error e) : Refuses s e

/-- From `s` to `t` the length in the entry was put on display, with all that belongs to it. -/
structure Accepted (s t : Converter) (l : Length) : Prop where
  converted : Length.ofText s.entry = .ok l
  last : t.last = some l
  readout : l.readout s.precision = .ok t.readout
  working : t.working = l.working
  error : t.error = []
  entry : t.entry = s.entry
  precision : t.precision = s.precision

/-- From `s` to `t` an error was told and nothing else on display was changed, but for the working,
which is no longer shown. -/
structure Rejected (s t : Converter) (e : LengthError) : Prop where
  refused : s.Refuses e
  last : t.last = s.last
  readout : t.readout = s.readout
  working : t.working = .empty
  error : t.error = e.message
  told : t.error ≠ []
  entry : t.entry = s.entry
  precision : t.precision = s.precision

/-- The user types a text and presses `=`. -/
def attempt (s : Converter) (text : Text) : Converter := (s.step (.type text)).step (.press .equals)

variable {s t : Converter} {e : LengthError} {l : Length} {r : Readout}

/-! ## Both outcomes -/

theorem convert_of_refuses (h : s.Refuses e) : s.convert = s.fail e.message := by
  cases h with
  | noLength h => exact convert_of_error h
  | noTexts h hr => simp only [convert, h, hr]

theorem step_equals_of_refuses (h : s.Refuses e) :
    s.step (.press .equals) = s.fail e.message := by
  have hdraw : s.draw.Refuses e := by
    cases h with
    | noLength h => exact .noLength h
    | noTexts h hr => exact .noTexts h hr
  show s.draw.convert.focus = s.fail e.message
  rw [convert_of_refuses hdraw]
  rfl

theorem step_equals_of_ok (h : Length.ofText s.entry = .ok l)
    (hr : l.readout s.precision = .ok r) : s.step (.press .equals) = s.deposit l r := by
  show s.draw.convert.focus = s.deposit l r
  rw [convert_of_ok (s := s.draw) h hr]
  rfl

/-- Either the length in the entry has texts, or there is a reason to refuse it. -/
theorem refuses_or_ok (s : Converter) :
    (∃ e, s.Refuses e) ∨
      ∃ l r, Length.ofText s.entry = .ok l ∧ l.readout s.precision = .ok r := by
  cases h : Length.ofText s.entry with
  | error e => exact .inl ⟨e, .noLength h⟩
  | ok l =>
    cases hr : l.readout s.precision with
    | error e => exact .inl ⟨e, .noTexts h hr⟩
    | ok r => exact .inr ⟨l, r, rfl, hr⟩

/-- **Refusals.** The entry is refused when it is no length, and at precision zero. -/
theorem exists_refuses_iff :
    (∃ e, s.Refuses e) ↔ (∃ e, Length.ofText s.entry = .error e) ∨ s.precision = 0 := by
  constructor
  · rintro ⟨e, h⟩
    cases h with
    | noLength h => exact .inl ⟨e, h⟩
    | noTexts _ hr => exact .inr (Length.readout_eq_error_iff.1 hr).1
  · rintro (⟨e, h⟩ | h)
    · exact ⟨e, .noLength h⟩
    · obtain hrefuses | ⟨l, r, -, hr⟩ := refuses_or_ok s
      · exact hrefuses
      · have herror : l.readout s.precision = .error (.invalidDenominator 0) :=
          Length.readout_eq_error_iff.2 ⟨h, rfl⟩
        rw [hr] at herror
        cases herror

theorem rejected_fail (h : s.Refuses e) : Rejected s (s.fail e.message) e :=
  ⟨h, rfl, rfl, rfl, rfl, e.message_ne_nil, rfl, rfl⟩

theorem accepted_deposit (h : Length.ofText s.entry = .ok l)
    (hr : l.readout s.precision = .ok r) : Accepted s (s.deposit l r) l :=
  ⟨h, rfl, hr, rfl, rfl, rfl, rfl⟩

/-! ## One attempt after another -/

theorem attempt_precision (s : Converter) (text : Text) :
    (s.attempt text).precision = s.precision :=
  convert_precision (s.step (.type text)).draw

theorem foldl_attempt_precision (texts : List Text) (s : Converter) :
    (texts.foldl attempt s).precision = s.precision := by
  induction texts generalizing s with
  | nil => rfl
  | cons text texts ih => exact (ih (s.attempt text)).trans (attempt_precision s text)

/-- **No trace.** A success depends on what was typed and on the precision, and on nothing else that
the state holds. -/
theorem attempt_congr {text : Text} (hp : t.precision = s.precision)
    (h : (s.attempt text).error = []) : t.attempt text = s.attempt text := by
  obtain ⟨e, hrefuses⟩ | ⟨l, r, hl, hr⟩ := refuses_or_ok (s.step (.type text))
  · rw [attempt, step_equals_of_refuses hrefuses] at h
    exact absurd h e.message_ne_nil
  · -- the texts are made anew from the length, at a precision that both states share
    have hr' : l.readout (t.step (.type text)).precision = .ok r := by
      rw [show (t.step (.type text)).precision = s.precision from hp]
      exact hr
    have hs : s.attempt text = (s.step (.type text)).deposit l r := step_equals_of_ok hl hr
    have ht : t.attempt text = (t.step (.type text)).deposit l r := step_equals_of_ok hl hr'
    rw [hs, ht]
    simp only [deposit, step, hp]

/-- **Refused conversions.** From any state a press of `=` either puts the length in the entry on
display, with its texts, its working and no error, or tells an error and takes the working away; the
entry and the precision stay, and after an error so do the last length and its texts. It is an error
exactly when the entry is no length or the precision is zero. After any number of attempts, an
attempt that would have succeeded before them leads to the state that it would have led to. -/
theorem step_equals_atomic (s : Converter) :
    ((∃ l, Accepted s (s.step (.press .equals)) l) ∨
      ∃ e, Rejected s (s.step (.press .equals)) e) ∧
    ((∃ e, Rejected s (s.step (.press .equals)) e) ↔
      (∃ e, Length.ofText s.entry = .error e) ∨ s.precision = 0) ∧
    ∀ (before : List Text) (good : Text), (s.attempt good).error = [] →
      (before.foldl attempt s).attempt good = s.attempt good := by
  have hrejected {e : LengthError} (h : s.Refuses e) :
      Rejected s (s.step (.press .equals)) e := by
    rw [step_equals_of_refuses h]
    exact rejected_fail h
  refine ⟨?_, ?_, fun before good h => attempt_congr (foldl_attempt_precision before s) h⟩
  · obtain ⟨e, h⟩ | ⟨l, r, hl, hr⟩ := refuses_or_ok s
    · exact .inr ⟨e, hrejected h⟩
    · rw [step_equals_of_ok hl hr]
      exact .inl ⟨l, accepted_deposit hl hr⟩
  · rw [← exists_refuses_iff]
    exact exists_congr fun e => ⟨Rejected.refused, hrejected⟩

/-- An inch is on display at the first precision. Neither a bare number nor a fraction over zero is
converted, and two millimetres are shown as if neither had been typed. At precision zero the inch
itself is refused. -/
theorem step_equals_atomic_twoMillimetres :
    let s := run [.type ['1', '"'], .press .equals]
    s.hasResult = true ∧ (s.attempt ['1']).error ≠ [] ∧
    (s.attempt ['1', '/', '0', 'm', 'm']).error ≠ [] ∧ (s.attempt ['2', 'm', 'm']).error = [] ∧
    ((s.attempt ['1']).attempt ['1', '/', '0', 'm', 'm']).attempt ['2', 'm', 'm'] =
      s.attempt ['2', 'm', 'm'] ∧
    ∃ e, Rejected { s with precision := 0 } ({ s with precision := 0 }.step (.press .equals)) e := by
  intro s
  have hgood : (s.attempt ['2', 'm', 'm']).error = [] := by decide +kernel
  obtain ⟨-, -, htrace⟩ := step_equals_atomic s
  obtain ⟨-, hrefused, -⟩ := step_equals_atomic { s with precision := 0 }
  exact ⟨by decide +kernel, by decide +kernel, by decide +kernel, hgood,
    htrace [['1'], ['1', '/', '0', 'm', 'm']] _ hgood, hrefused.2 (.inr rfl)⟩

end ExactLength.Converter
