import ExactLength.Proofs.Expr.Descent
import ExactLength.Proofs.Expr.Exactness
import ExactLength.Proofs.Surface.Basic

/-!
# The alphabet of expressions

The characters that an expression is checked for are those that the scanner knows: a blank, a sign,
a digit or a point. So in a text that passes the check nothing but a fraction over zero ends the
scan, also once its mixed numbers are written out, and a text that fails the check fails at its
first refused character.

Results:
* `isAdmitted_iff`: the admitted characters are those that the scanner has a rule for.
* `scanFrom_append_stop`: the scan is cut at a character that no number goes on with.
* `scanFrom_append_refused`: a refused character ends the scan where it stands, unless the scan
  ended before.
* `scanFrom_of_admitted`: admitted characters are scanned, or divide by zero.
* `Text.Admitted.expandMixed`: writing out mixed numbers keeps to the alphabet.
* `alphabet_of_evaluation`: what the check, the scanner and the evaluation say of a text.
-/

namespace ExactLength

open Digits Text

/-! ## The characters -/

theorem isSome_ofSymbol? (c : Char) :
    (Token.ofSymbol? c).isSome = ['+', '-', '*', '/', '(', ')'].contains c := by
  by_cases h : c ∈ ['+', '-', '*', '/', '(', ')']
  · have all : ['+', '-', '*', '/', '(', ')'].all (Token.ofSymbol? · |>.isSome) = true := by decide
    rw [List.all_eq_true.1 all c h, List.contains_iff_mem.2 h]
  · have hnone : Token.ofSymbol? c = none := by
      simp only [List.mem_cons, List.not_mem_nil, or_false, not_or] at h
      unfold Token.ofSymbol? Operator.ofSymbol?
      split <;> simp_all
    rw [hnone, Option.isSome_none]
    exact (Bool.eq_false_iff.2 fun hc => h (List.contains_iff_mem.1 hc)).symm

/-- **One alphabet.** The admitted characters are those that the scanner has a rule for. -/
theorem isAdmitted_iff {c : Char} :
    isAdmitted c = true ↔
      isBlank c = true ∨ (Token.ofSymbol? c).isSome = true ∨ Literal.starts c = true := by
  rw [isSome_ofSymbol?, isAdmitted, Literal.starts]
  simp only [List.contains_cons, List.contains_nil, Bool.or_eq_true, beq_iff_eq, Bool.or_false]
  grind

theorem not_isAdmitted_iff {c : Char} :
    isAdmitted c = false ↔
      isBlank c = false ∧ Token.ofSymbol? c = none ∧ Literal.starts c = false := by
  rw [← Bool.not_eq_true, isAdmitted_iff]
  simp

/-! ## Literals -/

theorem Digits.leading_append_stop {c : Char} (hc : c.isDigit = false) (ds post : Text) :
    leading (ds ++ c :: post) = leading ds ∧ after (ds ++ c :: post) = after ds ++ c :: post := by
  have hsplit : ds ++ c :: post = leading ds ++ (after ds ++ c :: post) := by
    rw [← List.append_assoc, leading_append_after]
  have hstop : NoDigitAtStart (c :: post) := noDigitAtStart_cons.mpr hc
  have hrest : NoDigitAtStart (after ds ++ c :: post) := (noDigitAtStart_after ds).append hstop
  rw [hsplit, leading_run (isDigit_leading _) hrest,
    after_run (isDigit_leading _) hrest]
  exact ⟨rfl, rfl⟩

namespace Literal

theorem read_of_run {cs : Text} (h : ∀ c ∈ (after cs).head?, c ≠ '.' ∧ c ≠ '/') :
    read cs = (decimal (leading cs) none, after cs) := by
  unfold read
  split
  · next rest hr => exact absurd rfl (h '.' (by rw [hr]; rfl)).1
  · next rest hr => exact absurd rfl (h '/' (by rw [hr]; rfl)).2
  · rfl

/-- A character that neither goes on a number nor joins two leaves the literal before it as it is
at the end of a text. -/
theorem read_append_stop {c : Char} (hd : c.isDigit = false) (hp : c ≠ '.') (hs : c ≠ '/')
    (cs post : Text) : read (cs ++ c :: post) = ((read cs).1, (read cs).2 ++ c :: post) := by
  have hcut (ds : Text) := Digits.leading_append_stop hd ds post
  cases hr : after cs with
  | nil =>
    have hcs : ∀ d ∈ (after cs).head?, d ≠ '.' ∧ d ≠ '/' := by simp [hr]
    have hstop : ∀ d ∈ (after (cs ++ c :: post)).head?, d ≠ '.' ∧ d ≠ '/' := by
      simp [(hcut cs).2, hr, hp, hs]
    rw [read_of_run hcs, read_of_run hstop, (hcut cs).1, (hcut cs).2]
  | cons d rest =>
    by_cases hd' : d = '.'
    · subst hd'
      simp only [read, (hcut cs).1, (hcut cs).2, hr, List.cons_append, (hcut rest).1,
        (hcut rest).2]
    · by_cases hs' : d = '/'
      · subst hs'
        simp only [read, (hcut cs).1, (hcut cs).2, hr, List.cons_append, (hcut rest).1,
          (hcut rest).2]
        split <;> rfl
      · have hcs : ∀ d ∈ (after cs).head?, d ≠ '.' ∧ d ≠ '/' := by simp [hr, hd', hs']
        have hstop : ∀ d ∈ (after (cs ++ c :: post)).head?, d ≠ '.' ∧ d ≠ '/' := by
          simp [(hcut cs).2, hr, hd', hs']
        rw [read_of_run hcs, read_of_run hstop, (hcut cs).1, (hcut cs).2]

/-- Only a zero denominator keeps a literal from having a value. -/
theorem value_eq_error {l : Literal} {e : EvalError} (h : l.value = .error e) :
    e = .divisionByZero := by
  cases l with
  | decimal whole places => cases h
  | fraction n d =>
    simp only [value, Fraction.ofInts_eq] at h
    split at h <;> cases h
    rfl

end Literal

/-! ## The scan -/

namespace Lexeme

theorem admitted_rest {cs : Text} (h : cs.Admitted) : Admitted (Literal.read cs).2 := by
  intro c hc
  refine h c ?_
  rw [← Literal.text_read cs]
  exact List.mem_append_right _ hc

/-- **Induction along the scan.** A text is empty, or starts with a blank, with a sign, with a
literal or with a refused character. -/
theorem scan_induction {P : Text → Prop} (nil : P [])
    (blank : ∀ c cs, isBlank c = true → P cs → P (c :: cs))
    (symbol : ∀ c cs t, isBlank c = false → Token.ofSymbol? c = some t → P cs → P (c :: cs))
    (literal : ∀ c cs, isBlank c = false → Token.ofSymbol? c = none → Literal.starts c = true →
      P (Literal.read (c :: cs)).2 → P (c :: cs))
    (refused : ∀ c cs, isAdmitted c = false → P (c :: cs)) (cs : Text) : P cs := by
  match cs with
  | [] => exact nil
  | c :: cs =>
    by_cases hb : isBlank c = true
    · exact blank c cs hb (scan_induction nil blank symbol literal refused cs)
    · have hb : isBlank c = false := Bool.eq_false_iff.2 hb
      cases ht : Token.ofSymbol? c with
      | some t => exact symbol c cs t hb ht (scan_induction nil blank symbol literal refused cs)
      | none =>
        by_cases hs : Literal.starts c = true
        · exact literal c cs hb ht hs (scan_induction nil blank symbol literal refused _)
        · exact refused c cs (not_isAdmitted_iff.mpr ⟨hb, ht, Bool.eq_false_iff.2 hs⟩)
termination_by cs.length
decreasing_by
  · exact Nat.lt_succ_self _
  · exact Literal.length_rest_lt hs
  · exact Nat.lt_succ_self _

/-- Induction along the scan of a text of admitted characters. -/
theorem admitted_induction {P : Text → Prop} (nil : P [])
    (blank : ∀ c cs, isBlank c = true → P cs → P (c :: cs))
    (symbol : ∀ c cs t, isBlank c = false → Token.ofSymbol? c = some t → P cs → P (c :: cs))
    (literal : ∀ c cs, isBlank c = false → Token.ofSymbol? c = none → Literal.starts c = true →
      P (Literal.read (c :: cs)).2 → P (c :: cs))
    (cs : Text) (h : cs.Admitted) : P cs := by
  have hrest {c : Char} {cs : Text} (h : Admitted (c :: cs)) : cs.Admitted :=
    (List.forall_mem_cons.1 h).2
  refine scan_induction (P := fun cs => cs.Admitted → P cs) (fun _ => nil)
    (fun c cs hb ih h => blank c cs hb (ih (hrest h)))
    (fun c cs t hb ht ih h => symbol c cs t hb ht (ih (hrest h)))
    (fun c cs hb ht hs ih h => literal c cs hb ht hs (ih (admitted_rest h)))
    (fun c cs hc h => ?_) cs h
  have hadmitted := h c List.mem_cons_self
  rw [hc] at hadmitted
  cases hadmitted

/-- **Where a number ends.** A character that neither goes on a number nor joins two cuts the scan:
the text up to it is scanned first, and the scan goes on at it. -/
theorem scanFrom_append_stop {c : Char} (hd : c.isDigit = false) (hp : c ≠ '.') (hs : c ≠ '/')
    (cs post : Text) (pos : Nat) :
    scanFrom pos (cs ++ c :: post) = (scanFrom pos cs).bind fun lexemes =>
      (scanFrom (pos + cs.length) (c :: post)).map (lexemes ++ ·) := by
  have hcons (x y : Except EvalError (List Lexeme)) (l : Lexeme) :
      (x.bind fun lexemes => y.map (lexemes ++ ·)).map (l :: ·) =
        (x.map (l :: ·)).bind fun lexemes => y.map (lexemes ++ ·) := by
    cases x with
    | error e => rfl
    | ok lexemes => cases y <;> rfl
  refine scan_induction (P := fun cs => ∀ pos, scanFrom pos (cs ++ c :: post) =
    (scanFrom pos cs).bind fun lexemes =>
      (scanFrom (pos + cs.length) (c :: post)).map (lexemes ++ ·))
    ?nil ?blank ?symbol ?literal ?refused cs pos
  case nil =>
    intro pos
    rw [List.nil_append, scanFrom_nil, List.length_nil, Nat.add_zero]
    cases scanFrom pos (c :: post) <;> rfl
  case blank =>
    intro b cs hb ih pos
    rw [List.cons_append, scanFrom_blank hb, scanFrom_blank hb, ih, List.length_cons, Nat.add_assoc,
      Nat.add_comm 1]
  case symbol =>
    intro b cs t hb ht ih pos
    rw [List.cons_append, scanFrom_symbol hb ht, scanFrom_symbol hb ht, ih, hcons, List.length_cons,
      Nat.add_assoc, Nat.add_comm 1]
  case literal =>
    intro b cs hb ht hstart ih pos
    -- the last literal in front of the character is no longer for it
    have hread := Literal.read_append_stop hd hp hs (b :: cs) post
    have hlength : (Literal.read (b :: cs)).1.text.length + (Literal.read (b :: cs)).2.length =
        (b :: cs).length := by
      rw [← List.length_append, Literal.text_read]
    rw [List.cons_append] at hread ⊢
    rw [scanFrom_literal hb ht hstart, scanFrom_literal hb ht hstart, hread]
    cases (Literal.read (b :: cs)).1.value with
    | error e => rfl
    | ok v =>
      simp only [Except.bind]
      rw [ih, Nat.add_assoc, hlength]
      exact hcons _ _ _
  case refused =>
    intro b cs hb pos
    obtain ⟨hblank, hsymbol, hstarts⟩ := not_isAdmitted_iff.mp hb
    rw [List.cons_append, scanFrom_invalid hblank hsymbol hstarts,
      scanFrom_invalid hblank hsymbol hstarts]
    rfl

/-- **Refused characters.** A refused character ends the scan where it stands, unless the scan ended
before; what is behind it does not count. -/
theorem scanFrom_append_refused {c : Char} (hc : isAdmitted c = false) (cs post : Text)
    (pos : Nat) : scanFrom pos (cs ++ c :: post) =
      (scanFrom pos cs).bind fun _ => .error (.invalidCharacter c (pos + cs.length)) := by
  obtain ⟨hblank, hsymbol, hstarts⟩ := not_isAdmitted_iff.mp hc
  have hd : c.isDigit = false := by simp_all [Literal.starts]
  have hp : c ≠ '.' := by rintro rfl; cases hstarts
  have hs : c ≠ '/' := by rintro rfl; cases hsymbol
  rw [scanFrom_append_stop hd hp hs, scanFrom_invalid hblank hsymbol hstarts]
  rfl

/-- **Admitted characters.** Nothing but a fraction over zero ends the scan of admitted
characters. -/
theorem scanFrom_of_admitted {cs : Text} (hcs : cs.Admitted) (pos : Nat) :
    (∃ lexemes, scanFrom pos cs = .ok lexemes) ∨ scanFrom pos cs = .error .divisionByZero := by
  have hmap {α β : Type} {x : Except EvalError α} (f : α → β)
      (hx : (∃ a, x = .ok a) ∨ x = .error .divisionByZero) :
      (∃ b, x.map f = .ok b) ∨ x.map f = .error .divisionByZero := by
    obtain ⟨a, rfl⟩ | rfl := hx
    · exact .inl ⟨f a, rfl⟩
    · exact .inr rfl
  refine admitted_induction (P := fun cs => ∀ pos, (∃ lexemes, scanFrom pos cs = .ok lexemes) ∨
    scanFrom pos cs = .error .divisionByZero) ?nil ?blank ?symbol ?literal cs hcs pos
  case nil =>
    intro pos
    exact .inl ⟨[], scanFrom_nil pos⟩
  case blank =>
    intro b cs hb ih pos
    rw [scanFrom_blank hb]
    exact ih (pos + 1)
  case symbol =>
    intro b cs t hb ht ih pos
    rw [scanFrom_symbol hb ht]
    exact hmap _ (ih (pos + 1))
  case literal =>
    intro b cs hb ht hstart ih pos
    rw [scanFrom_literal hb ht hstart]
    cases hv : (Literal.read (b :: cs)).1.value with
    | error e => exact .inr (congrArg Except.error (Literal.value_eq_error hv))
    | ok v => exact hmap _ (ih _)

end Lexeme

/-! ## Writing out -/

namespace Text

theorem admitted_of_digits {ds : Text} (h : ∀ c ∈ ds, c.isDigit = true) : ds.Admitted := by
  intro c hc
  simp [isAdmitted, h c hc]

theorem admitted_sumText {m : MixedNumber} (h : m.IsRuns) : m.sumText.Admitted := by
  have hw : Admitted m.whole := admitted_of_digits h.whole.isDigit
  have hn : Admitted m.numerator := admitted_of_digits h.numerator.isDigit
  have hd : Admitted m.denominator := admitted_of_digits h.denominator.isDigit
  have hplus : Admitted [' ', '+', ' '] := ((admitted_nil.cons rfl).cons rfl).cons rfl
  exact ((((hw.cons rfl).append hplus).append hn).append (hd.cons rfl)).append
    (admitted_nil.cons rfl)

theorem Admitted.expandJoint {cs : Text} (h : cs.Admitted) (joint : MixedNumber.Joint) :
    (cs.expandJoint joint).Admitted := by
  fun_induction Text.expandJoint joint cs with
  | case1 => exact admitted_nil
  | case2 c cs hc m rest hr ih =>
    obtain ⟨hruns, -⟩ := MixedNumber.isRuns_of_read? hr
    obtain ⟨t, -, -, ht⟩ := MixedNumber.eq_append_of_read? hr
    rw [ht] at h
    exact (admitted_sumText hruns).append (ih (List.forall_mem_append.1 h).2)
  | case3 c cs hc hr ih =>
    rw [Digits.cons_eq_cons_leading_append c cs] at h
    obtain ⟨hrun, hafter⟩ := List.forall_mem_append.1 h
    exact Admitted.append hrun (ih hafter)
  | case4 c cs hc ih =>
    obtain ⟨hadmitted, hcs⟩ := List.forall_mem_cons.1 h
    exact (ih hcs).cons hadmitted

/-- Writing out mixed numbers keeps to the alphabet. -/
theorem Admitted.expandMixed {cs : Text} (h : cs.Admitted) : cs.expandMixed.Admitted :=
  (h.expandJoint .dash).expandJoint .blanks

end Text

/-! ## Parsing and evaluating -/

theorem parse_ne_invalidCharacter (lexemes : List Lexeme) (stop : Nat) (c : Char) (pos : Nat) :
    Expr.parse lexemes stop ≠ .error (.invalidCharacter c pos) := by
  rw [Parser.parse_eq_outcome, Reading.outcome]
  intro h
  cases hr : Reading.run .parser .start lexemes with
  | error e =>
    rw [hr] at h
    cases h
    obtain ⟨_, l, _, _, _, _, hstep⟩ := Reading.exists_of_run_eq_error hr
    obtain he | he | he := Reading.step_eq_error hstep <;> cases he
  | ok r =>
    rw [hr] at h
    cases r with
    | wanting opened slot k => cases h
    | holding opened sum term k => cases opened <;> cases h

/-- What keeps a text of admitted characters without mixed numbers from having a value is a division
by zero or an error of the parser. -/
theorem explainExpanded_eq_error {cs : Text} (hcs : cs.Admitted) {err : EvalError}
    (h : explainExpanded cs = .error err) :
    err = .divisionByZero ∨ ∃ lexemes, Lexeme.scan cs = .ok lexemes ∧
      Expr.parse lexemes cs.length = .error err := by
  unfold explainExpanded at h
  obtain ⟨lexemes, hscan⟩ | hscan := Lexeme.scanFrom_of_admitted hcs 0
  · rw [Lexeme.scan, hscan] at h ⊢
    cases hparse : Expr.parse lexemes cs.length with
    | error e =>
      simp only [bind, Except.bind, hparse] at h
      cases h
      exact .inr ⟨lexemes, rfl, hparse⟩
    | ok tree =>
      cases heval : tree.eval with
      | error e =>
        simp only [bind, Except.bind, hparse, heval] at h
        cases h
        exact .inl (Expr.eval_eq_error heval)
      | ok v =>
        simp only [bind, Except.bind, hparse, heval] at h
        cases h
  · rw [Lexeme.scan, hscan] at h
    cases h
    exact .inl rfl

theorem explainExpanded_ne_invalidCharacter {cs : Text} (hcs : cs.Admitted) (c : Char) (pos : Nat) :
    explainExpanded cs ≠ .error (.invalidCharacter c pos) := by
  intro h
  obtain h | ⟨lexemes, -, hparse⟩ := explainExpanded_eq_error hcs h
  · cases h
  · exact parse_ne_invalidCharacter lexemes cs.length c pos hparse

/-! ## The first refused character -/

/-- The character at an index is refused, and none before it is. -/
structure Text.FirstRefused (cs : Text) (c : Char) (pos : Nat) : Prop where
  before : Text.Admitted (cs.take pos)
  here : cs[pos]? = some c
  refused : isAdmitted c = false

namespace Text.FirstRefused

variable {cs : Text} {c : Char} {pos : Nat}

theorem eq_append (h : cs.FirstRefused c pos) :
    cs = cs.take pos ++ c :: cs.drop (pos + 1) ∧ (cs.take pos).length = pos := by
  obtain ⟨hlt, hc⟩ := List.getElem?_eq_some_iff.1 h.here
  constructor
  · rw [← hc, ← List.drop_eq_getElem_cons hlt, List.take_append_drop]
  · rw [List.length_take]
    omega

theorem exists_of_mem {cs : Text} (h : ∃ c ∈ cs, isAdmitted c = false) :
    ∃ c pos, cs.FirstRefused c pos := by
  induction cs with
  | nil =>
    obtain ⟨c, hc, -⟩ := h
    cases hc
  | cons d cs ih =>
    by_cases hd : isAdmitted d = true
    · obtain ⟨c, hc, hrefused⟩ := h
      have hcs : c ∈ cs := by
        obtain rfl | hcs := List.mem_cons.1 hc
        · rw [hd] at hrefused
          cases hrefused
        · exact hcs
      obtain ⟨e, pos, hfirst⟩ := ih ⟨c, hcs, hrefused⟩
      exact ⟨e, pos + 1, hfirst.before.cons hd, hfirst.here, hfirst.refused⟩
    · exact ⟨d, 0, admitted_nil, rfl, Bool.eq_false_iff.2 hd⟩

end Text.FirstRefused

theorem firstRefused_append {pre : Text} (hpre : pre.Admitted) {c : Char}
    (hc : isAdmitted c = false) (post : Text) (pos : Nat) :
    firstRefused pos (pre ++ c :: post) = some (c, pos + pre.length) := by
  induction pre generalizing pos with
  | nil => simp [firstRefused, hc]
  | cons d pre ih =>
    obtain ⟨hd, hpre⟩ := List.forall_mem_cons.1 hpre
    rw [List.cons_append, firstRefused, if_pos hd, ih hpre, List.length_cons]
    congr 2
    omega

theorem Text.FirstRefused.evaluate {cs : Text} {c : Char} {pos : Nat} (h : cs.FirstRefused c pos) :
    evaluate cs = .error (.invalidCharacter c pos) := by
  obtain ⟨hcut, hlength⟩ := h.eq_append
  have hfound := firstRefused_append h.before h.refused (cs.drop (pos + 1)) 0
  rw [← hcut, hlength, Nat.zero_add] at hfound
  rw [ExactLength.evaluate, explain_refused hfound]
  rfl

/-- The scan finds the first refused character, unless a fraction over zero stands before it. -/
theorem Text.FirstRefused.scan {cs : Text} {c : Char} {pos : Nat} (h : cs.FirstRefused c pos) :
    Lexeme.scan cs =
      (Lexeme.scan (cs.take pos)).bind fun _ => .error (.invalidCharacter c pos) := by
  obtain ⟨hcut, hlength⟩ := h.eq_append
  have hscan := Lexeme.scanFrom_append_refused h.refused (cs.take pos) (cs.drop (pos + 1)) 0
  rw [← hcut, hlength, Nat.zero_add] at hscan
  exact hscan

/-- **The alphabet.** A text with a refused character is refused at the first one. A text of
admitted characters never is: its mixed numbers are written out in admitted characters, and these
are scanned or divide by zero. The scan by itself is refused at the first refused character too,
unless what stands before it divides by zero. -/
theorem alphabet_of_evaluation (text : Text) :
    ((∃ c ∈ text, isAdmitted c = false) →
      ∃ c pos, text.FirstRefused c pos ∧ evaluate text = .error (.invalidCharacter c pos)) ∧
    ((∀ c ∈ text, isAdmitted c = true) →
      (∀ c pos, evaluate text ≠ .error (.invalidCharacter c pos)) ∧
      (∀ c ∈ text.expandMixed, isAdmitted c = true) ∧
      ((∃ lexemes, Lexeme.scan text.expandMixed = .ok lexemes) ∨
        Lexeme.scan text.expandMixed = .error .divisionByZero)) ∧
    (∀ c pos, text.FirstRefused c pos →
      (Lexeme.scan (text.take pos) = .error .divisionByZero →
        Lexeme.scan text = .error .divisionByZero) ∧
      (Lexeme.scan (text.take pos) ≠ .error .divisionByZero →
        Lexeme.scan text = .error (.invalidCharacter c pos))) := by
  refine ⟨fun hrefused => ?_, fun hadmitted => ⟨?_, ?_, ?_⟩, fun c pos hfirst => ⟨?_, ?_⟩⟩
  · obtain ⟨c, pos, hfirst⟩ := Text.FirstRefused.exists_of_mem hrefused
    exact ⟨c, pos, hfirst, hfirst.evaluate⟩
  · intro c pos h
    rw [evaluate, explain_admitted hadmitted] at h
    cases hx : explainExpanded text.expandMixed with
    | error e =>
      rw [hx] at h
      cases h
      exact explainExpanded_ne_invalidCharacter (Text.Admitted.expandMixed hadmitted) c pos hx
    | ok v => rw [hx] at h; cases h
  · exact Text.Admitted.expandMixed hadmitted
  · exact Lexeme.scanFrom_of_admitted (Text.Admitted.expandMixed hadmitted) 0
  · intro hbefore
    rw [hfirst.scan, hbefore]
    rfl
  · intro hbefore
    obtain ⟨lexemes, hscan⟩ | hscan := Lexeme.scanFrom_of_admitted hfirst.before 0
    · rw [hfirst.scan, Lexeme.scan, hscan]
      rfl
    · exact absurd hscan hbefore

end ExactLength
