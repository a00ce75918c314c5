import ExactLength.Proofs.Converter.Consistency

/-!
# What the window tells of its history

The length, the error and the precision on display can be read off the history of events. An attempt
is a press of `=`, or Enter when the entry was about to take the keyboard; its answer is what the
entry was worth at that moment. CLR and AC make the attempts before them count no more, and AC the
choices of a precision too.

Results:
* `history_induction`: what holds of the empty history and is kept by one more event holds of every
  history and the state it leads to.
* `step_of_attempt`, `step_of_clears`, `step_of_quiet`: what one event does to the length and to the
  error on display.
* `run_tells_history`: both, and the precision, after every history.
-/

namespace ExactLength

/-- An event and the state it met. -/
structure Moment where
  state : Converter
  event : Event

namespace Moment

/-- The state after the event. -/
def next (m : Moment) : Converter := m.state.step m.event

/-- The user asks for a conversion: by `=`, or by Enter when the entry was about to take the
keyboard. -/
def isAttempt (m : Moment) : Bool :=
  match m.event with
  | .press .equals => true
  | .enter => m.state.focused
  | _ => false

/-- What the entry was worth, if the user asked for it. -/
def answer? (m : Moment) : Option (Except LengthError Length) :=
  if m.isAttempt then some (Length.ofText m.state.entry) else none

/-- The results are taken away: by CLR or by AC. -/
def clears (m : Moment) : Bool :=
  match m.event with
  | .press .clearResults | .press .clearAll => true
  | _ => false

/-- Everything is taken away: by AC. -/
def resets (m : Moment) : Bool :=
  match m.event with
  | .press .clearAll => true
  | _ => false

/-- The precision, if one was chosen. -/
def choice? (m : Moment) : Option Nat :=
  match m.event with
  | .choose n => some n
  | _ => none

end Moment

/-- The moments after the last one of a kind, in order. -/
def sinceLast (kind : Moment → Bool) (log : List Moment) : List Moment :=
  (log.reverse.takeWhile (!kind ·)).reverse

/-- The answers after the last CLR or AC, in order. -/
def answers (log : List Moment) : List (Except LengthError Length) :=
  (sinceLast Moment.clears log).filterMap Moment.answer?

/-- The precisions chosen after the last AC, in order. -/
def choices (log : List Moment) : List Nat :=
  (sinceLast Moment.resets log).filterMap Moment.choice?

/-- The last length among the answers. -/
def lastLength (answers : List (Except LengthError Length)) : Option Length :=
  (answers.filterMap Except.toOption).getLast?

/-- What the user is told of the last answer, if it was an error. -/
def lastError (answers : List (Except LengthError Length)) : Text :=
  match answers.getLast? with
  | some (.error e) => e.message
  | _ => []

/-! ## One more moment -/

section Logs

variable {log : List Moment} {m : Moment}

theorem sinceLast_concat (kind : Moment → Bool) (log : List Moment) (m : Moment) :
    sinceLast kind (log ++ [m]) = if kind m then [] else sinceLast kind log ++ [m] := by
  unfold sinceLast
  rw [List.reverse_append, List.reverse_singleton, List.singleton_append, List.takeWhile_cons]
  cases kind m with
  | true => rfl
  | false => exact List.reverse_cons

theorem answers_of_clears (h : m.clears = true) : answers (log ++ [m]) = [] := by
  rw [answers, sinceLast_concat, if_pos h, List.filterMap_nil]

theorem answers_of_not_clears (h : m.clears = false) :
    answers (log ++ [m]) = answers log ++ m.answer?.toList := by
  rw [answers, sinceLast_concat, if_neg (ne_true_of_eq_false h), List.filterMap_append, answers]
  cases ha : m.answer? <;> simp [ha]

theorem choices_of_resets (h : m.resets = true) : choices (log ++ [m]) = [] := by
  rw [choices, sinceLast_concat, if_pos h, List.filterMap_nil]

theorem choices_of_not_resets (h : m.resets = false) :
    choices (log ++ [m]) = choices log ++ m.choice?.toList := by
  rw [choices, sinceLast_concat, if_neg (ne_true_of_eq_false h), List.filterMap_append, choices]
  cases hc : m.choice? <;> simp [hc]

theorem lastLength_concat_ok (as : List (Except LengthError Length)) (l : Length) :
    lastLength (as ++ [.ok l]) = some l := by
  simp [lastLength, Except.toOption]

theorem lastLength_concat_error (as : List (Except LengthError Length)) (e : LengthError) :
    lastLength (as ++ [.error e]) = lastLength as := by
  simp [lastLength, Except.toOption]

theorem lastError_concat_ok (as : List (Except LengthError Length)) (l : Length) :
    lastError (as ++ [.ok l]) = [] := by
  simp [lastError]

theorem lastError_concat_error (as : List (Except LengthError Length)) (e : LengthError) :
    lastError (as ++ [.error e]) = e.message := by
  simp [lastError]

end Logs

namespace Converter

variable {s : Converter}

/-- The events in order from a state on, each with the state it meets. -/
def history (s : Converter) : List Event → List Moment
  | [] => []
  | e :: events => ⟨s, e⟩ :: history (s.step e) events

theorem map_event_history (s : Converter) (events : List Event) :
    (history s events).map Moment.event = events := by
  induction events generalizing s with
  | nil => rfl
  | cons e events ih => rw [history, List.map_cons, ih]

/-- What holds of the empty history and is kept by one more event holds of every history and the
state it leads to. -/
theorem history_induction {P : List Moment → Converter → Prop} (start : P [] initial)
    (step : ∀ log m, P log m.state → P (log ++ [m]) m.next) (events : List Event) :
    P (history initial events) (run events) := by
  have hfold : ∀ log s, P log s → P (log ++ history s events) (events.foldl Converter.step s) := by
    induction events with
    | nil => exact fun log s h => by rwa [history, List.append_nil]
    | cons e events ih =>
      intro log s h
      have hrest := ih (log ++ [⟨s, e⟩]) (s.step e) (step log ⟨s, e⟩ h)
      rwa [List.append_assoc] at hrest
  exact hfold [] initial start

/-! ## The length and the error on display -/

theorem choose_last_error (s : Converter) (n : Nat) :
    (s.choose n).last = s.last ∧ (s.choose n).error = s.error := by
  rw [choose_eq]
  split <;> exact ⟨rfl, rfl⟩

/-- An attempt converts the entry as it is, whichever way it is made. -/
theorem next_of_attempt {m : Moment} (h : m.isAttempt = true) :
    m.next = m.state.draw.convert.focus := by
  obtain ⟨s, e⟩ := m
  cases e with
  | press b =>
    cases b with
    | equals => rfl
    | insert _ | delete | clearEntry | clearResults | clearAll => cases h
  | enter => exact if_pos h
  | type _ | idle | choose _ | escape => cases h

/-- **Attempts.** A length is shown in the place of the last one, an error beside it. -/
theorem step_of_attempt {m : Moment} (hm : m.isAttempt = true)
    (h : m.state.precision ∈ precisions) :
    (∃ e, Length.ofText m.state.entry = .error e ∧ m.next.last = m.state.last ∧
        m.next.error = e.message) ∨
      ∃ l, Length.ofText m.state.entry = .ok l ∧ m.next.last = some l ∧ m.next.error = [] := by
  rw [next_of_attempt hm]
  obtain ⟨e, he, hs⟩ | ⟨l, r, hl, -, hs⟩ := convert_eq (s := m.state.draw) h
  · rw [hs]
    exact .inl ⟨e, he, rfl, rfl⟩
  · rw [hs]
    exact .inr ⟨l, hl, rfl, rfl⟩

/-- **Clearing.** Neither a length nor an error is left. -/
theorem step_of_clears {m : Moment} (h : m.clears = true) :
    m.next.last = none ∧ m.next.error = [] := by
  obtain ⟨s, e⟩ := m
  cases e with
  | press b =>
    cases b with
    | clearResults | clearAll => exact ⟨rfl, rfl⟩
    | insert _ | delete | clearEntry | equals => cases h
  | type _ | idle | choose _ | escape | enter => cases h

/-- **Everything else** leaves the length and the error on display. -/
theorem step_of_quiet {m : Moment} (ha : m.isAttempt = false) (hc : m.clears = false) :
    m.next.last = m.state.last ∧ m.next.error = m.state.error := by
  obtain ⟨s, e⟩ := m
  cases e with
  | press b =>
    cases b with
    | insert _ | delete | clearEntry => exact ⟨rfl, rfl⟩
    | clearResults | clearAll => cases hc
    | equals => cases ha
  | choose n => exact choose_last_error s.draw n
  | enter =>
    have hs : Converter.step s .enter = s.draw := if_neg (ne_true_of_eq_false ha)
    rw [Moment.next, hs]
    exact ⟨rfl, rfl⟩
  | type _ | idle | escape => exact ⟨rfl, rfl⟩

/-- The length and the error on display are those that the answers tell. -/
structure Tells (log : List Moment) (s : Converter) : Prop where
  consistent : s.Consistent
  last : s.last = lastLength (answers log)
  error : s.error = lastError (answers log)

theorem Tells.step {log : List Moment} {m : Moment} (h : Tells log m.state) :
    Tells (log ++ [m]) m.next := by
  have hnext := h.consistent.step m.event
  cases hc : m.clears with
  | true =>
    obtain ⟨hlast, herror⟩ := step_of_clears hc
    exact ⟨hnext, by rw [hlast, answers_of_clears hc]; rfl,
      by rw [herror, answers_of_clears hc]; rfl⟩
  | false =>
    cases ha : m.isAttempt with
    | false =>
      have hanswers : answers (log ++ [m]) = answers log := by
        rw [answers_of_not_clears hc, Moment.answer?, ha]
        exact List.append_nil _
      obtain ⟨hlast, herror⟩ := step_of_quiet ha hc
      exact ⟨hnext, by rw [hlast, hanswers, h.last], by rw [herror, hanswers, h.error]⟩
    | true =>
      have hanswers : answers (log ++ [m]) = answers log ++ [Length.ofText m.state.entry] := by
        rw [answers_of_not_clears hc, Moment.answer?, ha]
        rfl
      obtain ⟨e, ht, hlast, herror⟩ | ⟨l, ht, hlast, herror⟩ :=
        step_of_attempt ha h.consistent.offered
      · exact ⟨hnext, by rw [hlast, hanswers, ht, lastLength_concat_error, h.last],
          by rw [herror, hanswers, ht, lastError_concat_error]⟩
      · exact ⟨hnext, by rw [hlast, hanswers, ht, lastLength_concat_ok],
          by rw [herror, hanswers, ht, lastError_concat_ok]⟩

theorem tells_run (events : List Event) : Tells (history initial events) (run events) :=
  history_induction ⟨consistent_initial, rfl, rfl⟩ (fun _ _ h => h.step) events

theorem foldl_step_of_quiet (events : List Event) (s : Converter)
    (h : ∀ m ∈ history s events, m.isAttempt = false ∧ m.clears = false) :
    (events.foldl step s).last = s.last ∧ (events.foldl step s).error = s.error := by
  induction events generalizing s with
  | nil => exact ⟨rfl, rfl⟩
  | cons e events ih =>
    obtain ⟨⟨ha, hc⟩, hrest⟩ := List.forall_mem_cons.1 h
    obtain ⟨hlast, herror⟩ := ih (s.step e) hrest
    obtain ⟨hlast', herror'⟩ := step_of_quiet ha hc
    exact ⟨hlast.trans hlast', herror.trans herror'⟩

/-! ## The precision -/

theorem convert_precision (s : Converter) : s.convert.precision = s.precision := by
  unfold convert
  split
  · rfl
  · split <;> rfl

theorem choose_precision (s : Converter) {n : Nat} (h : n ∈ precisions) :
    (s.choose n).precision = n := by
  rw [choose_eq]
  split
  · next heq => exact heq.symm
  · exact roundPrecision_of_mem h

/-- The precision is reset by AC, set when one of those offered is chosen, and kept otherwise. -/
theorem next_precision (m : Moment) (h : ∀ n, m.choice? = some n → n ∈ precisions) :
    m.next.precision =
      if m.resets then defaultPrecision else m.choice?.getD m.state.precision := by
  obtain ⟨s, e⟩ := m
  cases e with
  | press b =>
    cases b with
    | equals => exact convert_precision s.draw
    | insert _ | delete | clearEntry | clearResults | clearAll => rfl
  | choose n => exact choose_precision s.draw (h n rfl)
  | enter =>
    show (if s.focused then s.draw.convert.focus else s.draw).precision = s.precision
    split
    · exact convert_precision s.draw
    · rfl
  | type _ | idle | escape => rfl

theorem precision_run (events : List Event) (h : ∀ n, .choose n ∈ events → n ∈ precisions) :
    (run events).precision = (choices (history initial events)).getLast?.getD defaultPrecision := by
  have hlog : ∀ m ∈ history initial events, ∀ n, m.choice? = some n → n ∈ precisions := by
    intro m hm n hn
    refine h n ?_
    rw [← map_event_history initial events]
    obtain ⟨s, e⟩ := m
    cases e <;> cases hn
    exact List.mem_map_of_mem hm
  revert hlog
  refine history_induction
    (P := fun log s => (∀ m ∈ log, ∀ n, m.choice? = some n → n ∈ precisions) →
      s.precision = (choices log).getLast?.getD defaultPrecision) (fun _ => rfl) ?_ events
  intro log m ih hlog
  obtain ⟨hlog, hm⟩ := List.forall_mem_append.1 hlog
  rw [next_precision m (hm m List.mem_cons_self)]
  cases hr : m.resets with
  | true => rw [choices_of_resets hr]; rfl
  | false =>
    rw [choices_of_not_resets hr, ih hlog]
    cases m.choice? with
    | none => rw [Option.toList_none, List.append_nil]; rfl
    | some n => rw [Option.toList_some, List.getLast?_concat]; rfl

/-- **Every history.** After the last CLR or AC, the length on display is the last one among the
answers and the error is that of the last answer. The precision is the last one that was chosen
after the last AC. Events that neither ask for a conversion nor clear change neither the length nor
the error. -/
theorem run_tells_history (events : List Event) :
    (run events).last = lastLength (answers (history initial events)) ∧
    (run events).error = lastError (answers (history initial events)) ∧
    ((∀ n, .choose n ∈ events → n ∈ precisions) →
      (run events).precision = (choices (history initial events)).getLast?.getD 32) ∧
    ∀ more : List Event,
      (∀ m ∈ history (run events) more, m.isAttempt = false ∧ m.clears = false) →
      (run (events ++ more)).last = (run events).last ∧
        (run (events ++ more)).error = (run events).error := by
  have h := tells_run events
  refine ⟨h.last, h.error, precision_run events, fun more hquiet => ?_⟩
  rw [run_append]
  exact foldl_step_of_quiet more (run events) hquiet

end Converter

end ExactLength
