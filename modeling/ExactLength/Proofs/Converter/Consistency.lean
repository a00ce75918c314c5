import ExactLength.Converter.Window

/-!
# What the window shows belongs together

The last length, the texts that show it, the error, the working and the precision are separate parts
of the state, and every event changes only some of them. After every history of events they still
belong to one conversion: the texts are those of the last length at the present precision, and the
working is that of the last length unless an error is shown.

Results:
* `convert_eq`: with an offered precision a conversion either shows the length or an error, and
  formatting never fails.
* `choose_eq`: what choosing a precision changes.
* `run_induction`: what holds at the start and is kept by every event holds after every history.
* `Consistent.step`: every event keeps the parts of the state together.
* `run_belongs_together`: they are together after every history.
-/

namespace ExactLength

theorem mem_precisions_iff {n : Nat} :
    n ∈ precisions ↔ n.isPowerOfTwo ∧ 2 ≤ n ∧ n ≤ finestPrecision := by
  have small : ∀ k < 8, 2 ≤ Nat.pow 2 k → Nat.pow 2 k ∈ precisions := by decide
  have powers : ∀ m ∈ precisions, (∃ k < 8, m = Nat.pow 2 k) ∧ 2 ≤ m ∧ m ≤ finestPrecision := by
    decide
  constructor
  · intro h
    obtain ⟨⟨k, -, hk⟩, hbounds⟩ := powers n h
    exact ⟨⟨k, hk⟩, hbounds⟩
  · rintro ⟨⟨k, rfl⟩, hcoarse, hfine⟩
    rcases Nat.lt_or_ge k 8 with hk | hk
    · exact small k hk hcoarse
    · have hpow : Nat.pow 2 8 ≤ Nat.pow 2 k := Nat.pow_le_pow_right (by decide) hk
      exact absurd (Nat.le_trans hpow hfine) (by decide)

namespace Length

theorem exists_readout (l : Length) {n : Nat} (h : n ≠ 0) : ∃ r, l.readout n = .ok r := by
  cases hr : l.readout n with
  | error e => exact absurd (readout_eq_error_iff.mp hr).1 h
  | ok r => exact ⟨r, rfl⟩

theorem exists_readout_of_offered (l : Length) {n : Nat} (h : n ∈ precisions) :
    ∃ r, l.readout n = .ok r := by
  have hn := (mem_precisions_iff.mp h).2.1
  exact l.exists_readout (by omega)

end Length

namespace Converter

variable {s : Converter} {n : Nat}

/-! ## Conversions -/

theorem convert_of_error {e : LengthError} (h : Length.ofText s.entry = .error e) :
    s.convert = s.fail e.message := by
  rw [convert, h]

theorem convert_of_ok {l : Length} {r : Readout} (h : Length.ofText s.entry = .ok l)
    (hr : l.readout s.precision = .ok r) : s.convert = s.deposit l r := by
  simp only [convert, h, hr]

theorem refresh_of_last {l : Length} {r : Readout} (h : s.last = some l)
    (hr : l.readout s.precision = .ok r) : s.refresh = { s with readout := r } := by
  simp only [refresh, h, hr]

/-- **Conversions.** At an offered precision only the text decides whether a conversion succeeds. -/
theorem convert_eq (h : s.precision ∈ precisions) :
    (∃ e, Length.ofText s.entry = .error e ∧ s.convert = s.fail e.message) ∨
      ∃ l r, Length.ofText s.entry = .ok l ∧ l.readout s.precision = .ok r ∧
        s.convert = s.deposit l r := by
  cases ht : Length.ofText s.entry with
  | error e => exact .inl ⟨e, rfl, convert_of_error ht⟩
  | ok l =>
    obtain ⟨r, hr⟩ := l.exists_readout_of_offered h
    exact .inr ⟨l, r, rfl, hr, convert_of_ok ht hr⟩

/-! ## Precisions -/

/-- The texts that show the last length at a given precision. Without a length nothing is shown
anew. -/
def readoutAt (s : Converter) (n : Nat) : Readout :=
  match s.last with
  | none => s.readout
  | some l => (l.readout n).toOption.getD .empty

theorem readoutAt_of_last_none (h : s.last = none) : s.readoutAt n = s.readout := by
  rw [readoutAt, h]

theorem readoutAt_of_last {l : Length} {r : Readout} (h : s.last = some l)
    (hr : l.readout n = .ok r) : s.readoutAt n = r := by
  simp only [readoutAt, h, hr, Except.toOption, Option.getD_some]

theorem readout_of_last {l : Length} (h : s.last = some l) (hn : n ∈ precisions) :
    l.readout n = .ok (s.readoutAt n) := by
  obtain ⟨r, hr⟩ := l.exists_readout_of_offered hn
  rw [readoutAt_of_last h hr, hr]

/-- **Choosing a precision.** One that is not the present one is set, and the last length is shown
at it. Formatting never fails, so nothing else changes. -/
theorem choose_eq (s : Converter) (n : Nat) : s.choose n =
    if n = s.precision then s
    else { s with
      precision := roundPrecision n
      readout := s.readoutAt (roundPrecision n)
      focused := true } := by
  unfold choose
  split
  · rfl
  · have hoffered := setPrecision_mem s n
    obtain hlast | ⟨l, hlast⟩ := Option.eq_none_or_eq_some s.last
    · rw [refresh_of_last_none (s := s.setPrecision n) hlast, readoutAt_of_last_none hlast]
      rfl
    · rw [refresh_of_last (s := s.setPrecision n) hlast (readout_of_last hlast hoffered)]
      rfl

/-! ## Histories -/

/-- What holds at the start and is kept by every event holds after every history. -/
theorem run_induction {P : Converter → Prop} (start : P initial)
    (step : ∀ s e, P s → P (s.step e)) (events : List Event) : P (run events) := by
  have hfold : ∀ s, P s → P (events.foldl Converter.step s) := by
    induction events with
    | nil => exact fun s hs => hs
    | cons e events ih => exact fun s hs => ih (s.step e) (step s e hs)
  exact hfold initial start

/-- What is shown belongs to one conversion, at the present precision. -/
structure Consistent (s : Converter) : Prop where
  offered : s.precision ∈ precisions
  blank : s.last = none → s.readout = .empty ∧ s.working = .empty
  typed : ∀ l, s.last = some l → ∃ text, Length.ofText text = .ok l
  shown : ∀ l, s.last = some l → l.readout s.precision = .ok s.readout
  explained : ∀ l, s.last = some l → s.error = [] → s.working = l.working
  unexplained : s.error ≠ [] → s.working = .empty

theorem consistent_initial : initial.Consistent where
  offered := by decide
  blank _ := ⟨rfl, rfl⟩
  typed := nofun
  shown := nofun
  explained := nofun
  unexplained h := absurd rfl h

namespace Consistent

/-- Neither the entry nor the keyboard counts. -/
theorem withEntry (h : s.Consistent) (entry : Text) (focused : Bool) :
    Consistent { s with entry, focused } :=
  ⟨h.offered, h.blank, h.typed, h.shown, h.explained, h.unexplained⟩

/-- An error leaves the last length on display and takes its working away. -/
theorem fail (h : s.Consistent) {message : Text} (hm : message ≠ []) :
    (s.fail message).Consistent where
  offered := h.offered
  blank hl := ⟨(h.blank hl).1, rfl⟩
  typed := h.typed
  shown := h.shown
  explained _ _ he := absurd he hm
  unexplained _ := rfl

theorem deposit (h : s.Consistent) {text : Text} {l : Length} {r : Readout}
    (ht : Length.ofText text = .ok l) (hr : l.readout s.precision = .ok r) :
    (s.deposit l r).Consistent where
  offered := h.offered
  blank := nofun
  typed _ hl := by cases hl; exact ⟨text, ht⟩
  shown _ hl := by cases hl; exact hr
  explained _ hl _ := by cases hl; rfl
  unexplained he := absurd rfl he

theorem convert (h : s.Consistent) : s.convert.Consistent := by
  obtain ⟨e, -, hs⟩ | ⟨l, r, ht, hr, hs⟩ := convert_eq h.offered
  · rw [hs]
    exact h.fail e.message_ne_nil
  · rw [hs]
    exact h.deposit ht hr

theorem clearResults (h : s.Consistent) : s.clearResults.Consistent where
  offered := h.offered
  blank _ := ⟨rfl, rfl⟩
  typed := nofun
  shown := nofun
  explained := nofun
  unexplained he := absurd rfl he

theorem clearAll (s : Converter) : s.clearAll.Consistent :=
  consistent_initial.withEntry [] true

/-- The texts are made anew for the last length when the precision changes. -/
theorem choose (h : s.Consistent) (n : Nat) : (s.choose n).Consistent := by
  have hoffered : roundPrecision n ∈ precisions := setPrecision_mem s n
  have hblank (hlast : s.last = none) : s.readoutAt (roundPrecision n) = .empty := by
    rw [readoutAt_of_last_none hlast, (h.blank hlast).1]
  rw [choose_eq]
  split
  · exact h
  · exact ⟨hoffered, fun hlast => ⟨hblank hlast, (h.blank hlast).2⟩, h.typed,
      fun l hlast => readout_of_last hlast hoffered, h.explained, h.unexplained⟩

theorem press (h : s.Consistent) (b : Button) : (s.press b).Consistent := by
  cases b with
  | insert key => exact h.withEntry _ _
  | delete => exact h.withEntry _ _
  | clearEntry => exact h.withEntry _ _
  | clearResults => exact h.clearResults
  | clearAll => exact clearAll s
  | equals => exact h.convert

/-- **Events.** Every event keeps the parts of the state together. -/
theorem step (h : s.Consistent) (e : Event) : (s.step e).Consistent := by
  have hdraw : s.draw.Consistent := h.withEntry _ _
  cases e with
  | type text => exact h.withEntry _ _
  | idle => exact hdraw
  | press b => exact (hdraw.press b).withEntry _ _
  | choose n => exact hdraw.choose n
  | escape => exact h.withEntry _ _
  | enter =>
    show Consistent (if s.focused then s.draw.convert.focus else s.draw)
    split
    · exact hdraw.convert.withEntry _ _
    · exact hdraw

end Consistent

theorem consistent_run (events : List Event) : (run events).Consistent :=
  run_induction consistent_initial (fun _ e h => h.step e) events

/-- **Every history.** The precision is a power of two from 2 to 128. Without a length nothing is
shown; a length on display is that of some text, its texts are those at the present precision, and
its working is shown unless there is an error. With an error there is no working. No length fails to
be shown at the precision that is reached. -/
theorem run_belongs_together (events : List Event) :
    ((run events).precision.isPowerOfTwo ∧ 2 ≤ (run events).precision ∧
      (run events).precision ≤ 128) ∧
    ((run events).last = none →
      (run events).readout = .empty ∧ (run events).working = .empty) ∧
    (∀ l, (run events).last = some l →
      (∃ text, Length.ofText text = .ok l) ∧
      l.readout (run events).precision = .ok (run events).readout ∧
      ((run events).error = [] → (run events).working = l.working)) ∧
    ((run events).error ≠ [] → (run events).working = .empty) ∧
    ∀ l : Length, ∃ r, l.readout (run events).precision = .ok r := by
  have h := consistent_run events
  refine ⟨mem_precisions_iff.mp h.offered, h.blank, fun l hl => ?_, h.unexplained, fun l => ?_⟩
  · exact ⟨h.typed l hl, h.shown l hl, h.explained l hl⟩
  · exact l.exists_readout_of_offered h.offered

end Converter

end ExactLength
