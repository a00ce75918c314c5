import ExactLength.Proofs.Number.Numeral
import ExactLength.Proofs.Surface.WrittenOut

/-!
# Scanning a written expression

The tokens of an expression with its mixed numbers written out. Only a fraction over zero can end
the scan before the end of the text.

Results:
* `Scans.literal`, `Scans.operator`, `Scans.enclosed`: the scan of a text is put together from those
  of its parts.
* `Numeral.scans_text`, `Numeral.scanFrom_append`: a decimal numeral is one token.
* `Surface.scan_of_zeroDenominator`, `Surface.exists_scan_eq_ok`: an expression is scanned as its
  tokens exactly when it has no zero denominator.
-/

namespace ExactLength

open Digits Text

/-- The tokens of a text, without their positions. -/
def tokensFrom (pos : Nat) (cs : Text) : Except EvalError (List Token) :=
  (Lexeme.scanFrom pos cs).map (List.map Lexeme.token)

/-- A number cannot go on into this text. -/
def Text.EndsNumber (cs : Text) : Prop := ∀ c ∈ cs.head?, c.isDigit = false ∧ c ≠ '.' ∧ c ≠ '/'

/-- In front of a text that ends a number, `s` is scanned as `tokens` and the scan goes on behind
it; with `zero` it ends in `s` at a fraction over zero. -/
def Scans (s : Text) (zero : Bool) (tokens : List Token) : Prop :=
  ∀ pos, ∃ pos', ∀ rest, EndsNumber rest →
    tokensFrom pos (s ++ rest) =
      if zero then .error .divisionByZero else (tokensFrom pos' rest).map (tokens ++ ·)

/-! ## The tokens of the parts -/

section Steps

variable {pos : Nat} {c : Char} {cs : Text}

theorem tokensFrom_blank (h : isBlank c = true) :
    tokensFrom pos (c :: cs) = tokensFrom (pos + 1) cs := by
  rw [tokensFrom, Lexeme.scanFrom_blank h, tokensFrom]

theorem tokensFrom_symbol {t : Token} (hb : isBlank c = false) (hc : Token.ofSymbol? c = some t) :
    tokensFrom pos (c :: cs) = (tokensFrom (pos + 1) cs).map (t :: ·) := by
  rw [tokensFrom, Lexeme.scanFrom_symbol hb hc, tokensFrom]
  cases Lexeme.scanFrom (pos + 1) cs <;> rfl

theorem Literal.starts_of_isDigit (h : c.isDigit = true) : Literal.starts c = true := by
  rw [Literal.starts, h, Bool.true_or]

theorem Literal.isBlank_of_starts (h : Literal.starts c = true) : isBlank c = false := by
  rw [Literal.starts, Bool.or_eq_true, beq_iff_eq] at h
  obtain h | rfl := h
  · exact isBlank_of_isDigit h
  · rfl

theorem Token.ofSymbol?_of_starts (h : Literal.starts c = true) : Token.ofSymbol? c = none := by
  unfold Token.ofSymbol? Operator.ofSymbol?
  split
  · cases h
  · cases h
  · split <;> first | rfl | cases h

theorem tokensFrom_read (hb : isBlank c = false) (hc : Token.ofSymbol? c = none)
    (hstarts : Literal.starts c = true) :
    tokensFrom pos (c :: cs) = (Literal.read (c :: cs)).1.value.bind fun v =>
      (tokensFrom (pos + (Literal.read (c :: cs)).1.text.length) (Literal.read (c :: cs)).2).map
        (.number v :: ·) := by
  rw [tokensFrom, Lexeme.scanFrom_literal hb hc hstarts]
  cases (Literal.read (c :: cs)).1.value with
  | error e => rfl
  | ok v =>
    simp only [Except.bind, tokensFrom]
    cases Lexeme.scanFrom _ (Literal.read (c :: cs)).2 <;> rfl

theorem scanFrom_read {l : Literal} {s rest : Text} (hstart : ∃ c cs, s = c :: cs ∧
    Literal.starts c = true) (hread : Literal.read (s ++ rest) = (l, rest)) :
    Lexeme.scanFrom pos (s ++ rest) = l.value.bind fun v =>
      (Lexeme.scanFrom (pos + l.text.length) rest).map (⟨.number v, pos⟩ :: ·) := by
  obtain ⟨c, cs, rfl, hc⟩ := hstart
  rw [List.cons_append] at hread ⊢
  rw [Lexeme.scanFrom_literal (Literal.isBlank_of_starts hc) (Token.ofSymbol?_of_starts hc) hc,
    hread]

end Steps

theorem Text.endsNumber_cons {c : Char} {cs : Text} (hd : c.isDigit = false) (hp : c ≠ '.')
    (hs : c ≠ '/') : EndsNumber (c :: cs) := by
  intro b hb
  cases hb
  exact ⟨hd, hp, hs⟩

theorem Text.EndsNumber.noDigitAtStart {cs : Text} (h : EndsNumber cs) : NoDigitAtStart cs :=
  fun c hc => (h c hc).1

namespace Scans

variable {s s' : Text} {zero zero' : Bool} {tokens tokens' : List Token}

theorem nil : Scans [] false [] := by
  intro pos
  refine ⟨pos, fun rest _ => ?_⟩
  show tokensFrom pos rest = (tokensFrom pos rest).map ([] ++ ·)
  cases tokensFrom pos rest <;> rfl

theorem blank {c : Char} (h : Scans s zero tokens) (hc : isBlank c = true) :
    Scans (c :: s) zero tokens := by
  intro pos
  obtain ⟨pos', h⟩ := h (pos + 1)
  refine ⟨pos', fun rest hrest => ?_⟩
  rw [List.cons_append, tokensFrom_blank hc, h rest hrest]

theorem blanks {g : Text} (hg : g.Blank) (h : Scans s zero tokens) :
    Scans (g ++ s) zero tokens := by
  induction g with
  | nil => exact h
  | cons c g ih =>
    obtain ⟨hc, hg⟩ := List.forall_mem_cons.1 hg
    exact (ih hg).blank hc

theorem symbol {c : Char} {t : Token} (h : Scans s zero tokens) (hb : isBlank c = false)
    (hc : Token.ofSymbol? c = some t) : Scans (c :: s) zero (t :: tokens) := by
  intro pos
  obtain ⟨pos', h⟩ := h (pos + 1)
  refine ⟨pos', fun rest hrest => ?_⟩
  rw [List.cons_append, tokensFrom_symbol hb hc, h rest hrest]
  cases zero with
  | true => rfl
  | false =>
    show ((tokensFrom pos' rest).map (tokens ++ ·)).map (t :: ·) = _
    cases tokensFrom pos' rest <;> rfl

/-- Two texts are scanned one after the other when no number goes on into the second one. -/
theorem append (h : Scans s zero tokens) (h' : Scans s' zero' tokens')
    (hends : ∀ rest, EndsNumber rest → EndsNumber (s' ++ rest)) :
    Scans (s ++ s') (zero || zero') (tokens ++ tokens') := by
  intro pos
  obtain ⟨pos', h⟩ := h pos
  obtain ⟨pos'', h'⟩ := h' pos'
  refine ⟨pos'', fun rest hrest => ?_⟩
  rw [List.append_assoc, h _ (hends rest hrest), h' rest hrest]
  cases zero with
  | true => rfl
  | false =>
    cases zero' with
    | true => rfl
    | false =>
      show ((tokensFrom pos'' rest).map (tokens' ++ ·)).map (tokens ++ ·) =
        (tokensFrom pos'' rest).map (tokens ++ tokens' ++ ·)
      cases tokensFrom pos'' rest with
      | error e => rfl
      | ok us =>
        show Except.ok (tokens ++ (tokens' ++ us)) = Except.ok (tokens ++ tokens' ++ us)
        rw [List.append_assoc]

theorem enclosed (h : Scans s zero tokens) :
    Scans ('(' :: s ++ [')']) zero (.lparen :: tokens ++ [.rparen]) := by
  have hclose : Scans [')'] false [.rparen] := nil.symbol rfl rfl
  have hends : ∀ rest, EndsNumber rest → EndsNumber ([')'] ++ rest) :=
    fun rest _ => endsNumber_cons rfl (by decide) (by decide)
  have hboth := (h.symbol (c := '(') (t := .lparen) rfl rfl).append hclose hends
  rw [Bool.or_false] at hboth
  exact hboth

theorem right (o : Operator) (h : Scans s zero tokens) :
    Scans (o.right '(' ')' s) zero (o.right .lparen .rparen tokens) := by
  unfold Operator.right
  split
  · exact h.enclosed
  · exact h

theorem operator (o : Operator) (h : Scans s zero tokens) (h' : Scans s' zero' tokens') :
    Scans (s ++ ' ' :: o.symbol :: ' ' :: s') (zero || zero') (tokens ++ .op o :: tokens') := by
  have hb : isBlank o.symbol = false := by cases o <;> rfl
  have hc : Token.ofSymbol? o.symbol = some (.op o) := by cases o <;> rfl
  have hends : ∀ rest, EndsNumber rest → EndsNumber (' ' :: o.symbol :: ' ' :: s' ++ rest) :=
    fun rest _ => endsNumber_cons rfl (by decide) (by decide)
  exact h.append (((h'.blank rfl).symbol hb hc).blank rfl) hends

/-- **Numbers.** A literal is a token when it is read up to its end. -/
theorem literal {l : Literal} {v : Rat} (hstart : ∃ c cs, l.text = c :: cs ∧ Literal.starts c = true)
    (hread : ∀ rest, EndsNumber rest → Literal.read (l.text ++ rest) = (l, rest))
    (hvalue : l.value = if zero then .error .divisionByZero else .ok v) :
    Scans l.text zero [.number v] := by
  intro pos
  refine ⟨pos + l.text.length, fun rest hrest => ?_⟩
  rw [tokensFrom, scanFrom_read hstart (hread rest hrest), hvalue, tokensFrom]
  cases zero with
  | true => rfl
  | false => cases Lexeme.scanFrom (pos + l.text.length) rest <;> rfl

theorem tokensFrom_eq (h : Scans s zero tokens) (pos : Nat) :
    tokensFrom pos s = if zero then .error .divisionByZero else .ok tokens := by
  obtain ⟨pos', h⟩ := h pos
  have hscan := h [] nofun
  rw [List.append_nil] at hscan
  have hnil : (tokensFrom pos' []).map (tokens ++ ·) = .ok tokens := by
    rw [tokensFrom, Lexeme.scanFrom_nil]
    show Except.ok (tokens ++ []) = _
    rw [List.append_nil]
  rw [hnil] at hscan
  exact hscan

/-- A text without a fraction over zero is scanned to its end, wherever it starts. -/
theorem exists_scanFrom_eq_ok (h : Scans s false tokens) (pos : Nat) :
    ∃ lexemes, Lexeme.scanFrom pos s = .ok lexemes ∧ lexemes.map Lexeme.token = tokens := by
  have h := h.tokensFrom_eq pos
  rw [tokensFrom] at h
  cases hscan : Lexeme.scanFrom pos s with
  | error e =>
    rw [hscan] at h
    cases h
  | ok lexemes =>
    rw [hscan] at h
    exact ⟨lexemes, rfl, Except.ok.inj h⟩

theorem exists_scan_eq_ok (h : Scans s false tokens) :
    ∃ lexemes, Lexeme.scan s = .ok lexemes ∧ lexemes.map Lexeme.token = tokens :=
  h.exists_scanFrom_eq_ok 0

end Scans

/-! ## Numerals -/

namespace Numeral

variable (n : Numeral) {rest : Text}

/-- A numeral as a literal. -/
def literal : Literal := .decimal n.whole n.places

theorem text_literal : n.literal.text = n.text := by
  unfold literal text Literal.text
  cases n.places <;> rfl

theorem value_literal : n.literal.value = .ok n.reading := rfl

theorem starts_text : ∃ c cs, n.text = c :: cs ∧ Literal.starts c = true := by
  obtain ⟨c, cs, hn⟩ := List.exists_cons_of_ne_nil n.text_ne_nil
  refine ⟨c, cs, hn, ?_⟩
  obtain hc | rfl := n.isDigit_or_eq_of_mem (hn ▸ List.mem_cons_self)
  · exact Literal.starts_of_isDigit hc
  · rfl

/-- A numeral with a point ends at the first character that is no digit; without one, it must not
go on into a point or into a fraction either. -/
theorem read_append (hrest : NoDigitAtStart rest)
    (h : n.places = none → Literal.read (n.whole ++ rest) = (.decimal n.whole none, rest)) :
    Literal.read (n.text ++ rest) = (n.literal, rest) := by
  unfold literal text
  cases hp : n.places with
  | none => exact h hp
  | some places =>
    have hplaces := n.isDigit_of_places hp
    have hpoint : NoDigitAtStart ('.' :: (places ++ rest)) := noDigitAtStart_cons.mpr rfl
    unfold Literal.read
    simp only [List.append_assoc, List.cons_append]
    rw [leading_run n.isDigit_whole hpoint, after_run n.isDigit_whole hpoint]
    simp only
    rw [leading_run hplaces hrest, after_run hplaces hrest]

theorem read_text (hrest : EndsNumber rest) :
    Literal.read (n.text ++ rest) = (n.literal, rest) := by
  refine n.read_append hrest.noDigitAtStart fun _ => ?_
  unfold Literal.read
  rw [leading_run n.isDigit_whole hrest.noDigitAtStart,
    after_run n.isDigit_whole hrest.noDigitAtStart]
  split
  · exact absurd rfl (hrest '.' rfl).2.1
  · exact absurd rfl (hrest '/' rfl).2.2
  · rfl

/-- A stroke belongs to a fraction only if digits without a point stand before it and a digit
behind it. -/
theorem read_stroke (h : n.places = none → NoDigitAtStart rest) :
    Literal.read (n.text ++ '/' :: rest) = (n.literal, '/' :: rest) := by
  have hstroke : NoDigitAtStart ('/' :: rest) := noDigitAtStart_cons.mpr rfl
  refine n.read_append hstroke fun hp => ?_
  unfold Literal.read
  rw [leading_run n.isDigit_whole hstroke, after_run n.isDigit_whole hstroke]
  simp only
  rw [if_pos (leading_eq_nil (h hp))]

/-- **Numerals.** A numeral is one token. -/
theorem scans_text : Scans n.text false [.number n.reading] := by
  have hstart := n.starts_text
  have hread : ∀ rest, EndsNumber rest → Literal.read (n.text ++ rest) = (n.literal, rest) :=
    fun rest => n.read_text
  rw [← text_literal] at hstart hread ⊢
  exact Scans.literal hstart hread n.value_literal

/-- A numeral that is read up to a rest, with its position. -/
theorem scanFrom_append (pos : Nat) (h : Literal.read (n.text ++ rest) = (n.literal, rest)) :
    Lexeme.scanFrom pos (n.text ++ rest) =
      (Lexeme.scanFrom (pos + n.text.length) rest).map (⟨.number n.reading, pos⟩ :: ·) := by
  rw [scanFrom_read n.starts_text h, n.value_literal, n.text_literal]
  rfl

theorem tokensFrom_append (pos : Nat) (h : Literal.read (n.text ++ rest) = (n.literal, rest)) :
    tokensFrom pos (n.text ++ rest) =
      (tokensFrom (pos + n.text.length) rest).map (.number n.reading :: ·) := by
  rw [tokensFrom, n.scanFrom_append pos h, tokensFrom]
  cases Lexeme.scanFrom (pos + n.text.length) rest <;> rfl

end Numeral

/-! ## The numbers of an expression -/

namespace Run

variable (n f d : Run)

/-- A run of digits as a numeral. -/
def integer : Numeral :=
  ⟨n.digits, none, by simpa using n.isRun.isDigit, .inl n.isRun.ne_nil⟩

/-- A run of digits and a point as a numeral, with the digits of another run behind the point. -/
def decimal : Numeral :=
  ⟨n.digits, some f.digits, List.forall_mem_append.2 ⟨n.isRun.isDigit, f.isRun.isDigit⟩,
    .inl n.isRun.ne_nil⟩

theorem reading_integer : n.integer.reading = n.value := Decimal.value_nil n.digits

theorem starts_append (cs : Text) :
    ∃ c ds, n.digits ++ cs = c :: ds ∧ Literal.starts c = true := by
  obtain ⟨c, ds, hn, hc⟩ := n.integer.starts_text
  have hn : n.digits = c :: ds := hn
  exact ⟨c, ds ++ cs, by rw [hn, List.cons_append], hc⟩

theorem read_fraction {rest : Text} (h : NoDigitAtStart rest) :
    Literal.read (n.digits ++ '/' :: (d.digits ++ rest)) = (.fraction n.digits d.digits, rest) := by
  have hstroke : NoDigitAtStart ('/' :: (d.digits ++ rest)) := noDigitAtStart_cons.mpr rfl
  unfold Literal.read
  rw [leading_run n.isRun.isDigit hstroke, after_run n.isRun.isDigit hstroke]
  simp only
  rw [leading_run d.isRun.isDigit h, after_run d.isRun.isDigit h, if_neg d.isRun.ne_nil]

theorem value_fraction : Fraction.ofInts (toNat n.digits) (toNat d.digits) =
    if d.value = 0 then .error .divisionByZero else .ok (n.value / d.value) := by
  have hzero : ((toNat d.digits : Int) = 0) ↔ d.value = 0 := by
    rw [value, Rat.natCast_eq_zero_iff]
    omega
  rw [Fraction.ofInts_eq, Rat.divInt_eq_div]
  simp only [hzero]
  rfl

theorem scans_integer : Scans n.digits false [.number n.value] := by
  have h := n.integer.scans_text
  rw [reading_integer] at h
  exact h

theorem scans_decimal : Scans (n.digits ++ '.' :: f.digits) false
    [.number (Decimal.value n.digits f.digits)] :=
  (n.decimal f).scans_text

theorem scans_fraction : Scans (n.digits ++ '/' :: d.digits) (d.value = 0)
    [.number (n.value / d.value)] := by
  have hread : ∀ rest, EndsNumber rest →
      Literal.read (n.digits ++ '/' :: d.digits ++ rest) = (.fraction n.digits d.digits, rest) := by
    intro rest hrest
    rw [List.append_assoc]
    exact n.read_fraction d hrest.noDigitAtStart
  have hvalue : (Literal.fraction n.digits d.digits).value =
      if decide (d.value = 0) then .error .divisionByZero else .ok (n.value / d.value) := by
    simp only [decide_eq_true_eq]
    exact n.value_fraction d
  exact Scans.literal (l := .fraction n.digits d.digits) (n.starts_append _) hread hvalue

theorem scans_sum (e : Run) : Scans (Leaf.mixed n d e).sumText (e.value = 0)
    [.lparen, .number n.value, .op .add, .number (d.value / e.value), .rparen] := by
  have h := (n.scans_integer.operator .add (d.scans_fraction e)).enclosed
  rw [Bool.false_or] at h
  simpa [Leaf.mixed, MixedNumber.sumText, Operator.symbol] using h

end Run

/-- The tokens of a number. -/
def Leaf.tokens : Leaf → List Token
  | integer n => [.number n.value]
  | decimal n f => [.number (Decimal.value n.digits f.digits)]
  | fraction n d => [.number (n.value / d.value)]
  | spaced n _ d e | dashed n d e =>
    [.lparen, .number n.value, .op .add, .number (d.value / e.value), .rparen]

/-- The tokens of an expression. -/
def Surface.tokens : Surface → List Token
  | leaf l => l.tokens
  | binary o x y =>
    .lparen :: (x.tokens ++ .op o :: o.right .lparen .rparen y.tokens) ++ [.rparen]
  | minus x => .op .sub :: .lparen :: x.tokens ++ [.rparen]
  | plus x => .op .add :: x.tokens

theorem Leaf.scans_expanded (l : Leaf) : Scans l.expanded l.zeroDenominator l.tokens := by
  cases l with
  | integer n => exact n.scans_integer
  | decimal n f => exact n.scans_decimal f
  | fraction n d => exact n.scans_fraction d
  | spaced n gap d e => exact n.scans_sum d e
  | dashed n d e => exact n.scans_sum d e

namespace Surface

theorem scans_expanded (t : Surface) : Scans t.expanded t.zeroDenominator t.tokens := by
  induction t with
  | leaf l => exact l.scans_expanded
  | binary o x y ihx ihy => exact (ihx.operator o (ihy.right o)).enclosed
  | minus x ih => exact ih.enclosed.symbol rfl rfl
  | plus x ih => exact ih.symbol rfl rfl

/-- **Scanning.** An expression without zero denominators is scanned as its tokens. -/
theorem exists_scan_eq_ok {t : Surface} (hz : t.zeroDenominator = false) :
    ∃ lexemes, Lexeme.scan t.expanded = .ok lexemes ∧ lexemes.map Lexeme.token = t.tokens := by
  have h := t.scans_expanded
  rw [hz] at h
  exact h.exists_scan_eq_ok

end Surface

end ExactLength
