import Mathlib.Data.List.Forall2
import ExactLength.Proofs.Surface.Scanned
import ExactLength.Proofs.Token.Placement

/-!
# The spans of tokens

Each token of a scanned text is written in a span of the text that starts at its position. The spans
stand in order and apart, and together they hold the characters that are no blanks: the scan loses,
repeats and invents nothing. An operator or a parenthesis is a single character. A number is the
longest decimal numeral that stands there, or two runs of digits with a stroke between them: a
stroke belongs to the number when there are only digits before it and a digit behind it.

This is all there is to say of the scan. A text that can be cut into such spans is scanned, and its
tokens are those of the spans.

Results:
* `Numeral.longestAt_append_iff`: what stands behind the longest numeral of a text.
* `Token.writtenIn_iff_readFrom`: a token is read from the characters that it is written in.
* `Lexeme.scanFrom_eq_ok_iff_placed`: the scan succeeds with the tokens that stand in the text.
* `Lexeme.scan_eq_ok_iff_spans`: the tokens of a text and their spans.
-/

namespace ExactLength

open Digits Text

/-! ## The longest numeral -/

namespace Numeral

variable {n : Numeral} {rest : Text}

/-- The numeral stands at the start of the text, and no longer one does. -/
def LongestAt (n : Numeral) (cs : Text) : Prop :=
  n.text <+: cs ∧ ∀ m : Numeral, m.text <+: cs → m.text.length ≤ n.text.length

theorem point_notMem_text_iff : '.' ∉ n.text ↔ n.places = none := by
  have hwhole : '.' ∉ n.whole := fun h => absurd (n.isDigit_whole _ h) (by decide)
  unfold text
  cases n.places with
  | none => exact iff_of_true hwhole rfl
  | some places => exact iff_of_false (fun h => h (by simp)) nofun

/-- The longest numeral of a text is no numeral any more with the next character. -/
theorem longestAt_iff_not_numeric :
    n.LongestAt (n.text ++ rest) ↔ ∀ c ∈ rest.head?, ¬ Numeric (n.text ++ [c]) := by
  constructor
  · intro h c hc hnumeric
    obtain ⟨m, hm⟩ := exists_text_eq_iff.mpr
      ⟨List.append_ne_nil_of_left_ne_nil n.text_ne_nil [c], hnumeric⟩
    obtain ⟨tail, rfl⟩ := List.head?_eq_some_iff.mp hc
    have hle := h.2 m ⟨tail, by rw [hm, List.append_assoc, List.singleton_append]⟩
    rw [hm, List.length_append, List.length_singleton] at hle
    omega
  · intro h
    refine ⟨List.prefix_append _ _, fun m hm => ?_⟩
    obtain hm | ⟨more, hmore, hrest⟩ := begins_append hm
    · exact hm.length_le
    · cases more with
      | nil => rw [hmore, List.append_nil]
      | cons c more =>
        have hc : c ∈ rest.head? := by
          obtain ⟨tail, rfl⟩ := hrest
          rfl
        have hprefix : n.text ++ [c] <+: m.text :=
          ⟨more, by rw [hmore, List.append_assoc, List.singleton_append]⟩
        exact absurd (m.numeric_text.of_prefix hprefix) (h c hc)

/-- **Longest numerals.** The longest numeral of a text ends in front of a character that is neither
a digit nor its first point. -/
theorem longestAt_append_iff :
    n.LongestAt (n.text ++ rest) ↔
      rest.NoDigitAtStart ∧ (n.places = none → ∀ c ∈ rest.head?, c ≠ '.') := by
  simp only [longestAt_iff_not_numeric, numeric_concat_iff, n.numeric_text, true_and,
    point_notMem_text_iff]
  constructor
  · intro h
    refine ⟨fun c hc => ?_, fun hn c hc hpoint => h c hc (.inr ⟨hpoint, hn⟩)⟩
    exact Bool.eq_false_iff.mpr fun hdigit => h c hc (.inl hdigit)
  · rintro ⟨hdigit, hpoint⟩ c hc (h | ⟨h, hn⟩)
    · rw [hdigit c hc] at h
      cases h
    · exact hpoint hn c hc h

end Numeral

/-! ## What a token is written in -/

namespace Token

/-- The token is written in the characters `taken`, in front of `rest`. -/
inductive WrittenIn : Token → Text → Text → Prop
  | op (o : Operator) (rest : Text) : WrittenIn (.op o) [o.symbol] rest
  | lparen (rest : Text) : WrittenIn .lparen ['('] rest
  | rparen (rest : Text) : WrittenIn .rparen [')'] rest
  /-- A numeral that does not go on, and makes no fraction with what follows it. -/
  | numeral {n : Numeral} {v : Rat} {rest : Text} (hlongest : n.LongestAt (n.text ++ rest))
    (hfraction : n.places = none → ∀ cs : Text, rest = '/' :: cs → cs.NoDigitAtStart)
    (hv : Decimal.read n.text = .ok v) : WrittenIn (.number v) n.text rest
  /-- Two runs of digits that do not go on. -/
  | fraction {n d : Run} {rest : Text} (hrest : rest.NoDigitAtStart) (hd : d.value ≠ 0) :
    WrittenIn (.number (n.value / d.value)) (n.digits ++ '/' :: d.digits) rest

end Token

theorem Numeral.read_self (n : Numeral) : Decimal.read n.text = .ok n.reading := by
  have hsign : [] ∈ Decimal.signs := by decide
  exact Decimal.read_append_text hsign n

namespace Literal

variable {c : Char} {cs : Text}

theorem leading_ne_nil (hstart : starts c = true)
    (hpoint : ∀ d ∈ (after (c :: cs)).head?, d ≠ '.') : leading (c :: cs) ≠ [] := by
  cases hd : c.isDigit with
  | true =>
    rw [leading_cons hd]
    exact List.cons_ne_nil _ _
  | false =>
    have hself : after (c :: cs) = c :: cs := after_eq_self (noDigitAtStart_cons.mpr hd)
    have hc : c = '.' := by simpa [starts, hd] using hstart
    exact absurd hc (hpoint c (by rw [hself]; rfl))

/-- **The two forms of a number.** What is read is a numeral or a fraction, and neither goes on. -/
theorem read_cases (cs : Text) (hstart : starts c = true) :
    (∃ (n : Numeral) (rest : Text), read (c :: cs) = (n.literal, rest) ∧ rest.NoDigitAtStart ∧
      (n.places = none → ∀ d ∈ rest.head?, d ≠ '.') ∧
      (n.places = none → ∀ tail : Text, rest = '/' :: tail → tail.NoDigitAtStart)) ∨
    ∃ (n d : Run) (rest : Text), read (c :: cs) = (.fraction n.digits d.digits, rest) ∧
      rest.NoDigitAtStart := by
  have hrest := noDigitAtStart_after (c :: cs)
  by_cases hpoint : ∃ tail, after (c :: cs) = '.' :: tail
  · obtain ⟨tail, htail⟩ := hpoint
    let n : Numeral := ⟨leading (c :: cs), some (leading tail),
      List.forall_mem_append.mpr ⟨isDigit_leading _, isDigit_leading _⟩,
      .inr (Option.some_ne_none _)⟩
    refine .inl ⟨n, after tail, ?_, noDigitAtStart_after tail, nofun, nofun⟩
    simp only [read, htail]
    rfl
  · have hne : ∀ d ∈ (after (c :: cs)).head?, d ≠ '.' := by
      rintro d hd rfl
      exact hpoint (List.head?_eq_some_iff.mp hd)
    let n : Run := ⟨leading (c :: cs), leading_ne_nil hstart hne, isDigit_leading _⟩
    by_cases hfraction : ∃ tail, after (c :: cs) = '/' :: tail ∧ leading tail ≠ []
    · obtain ⟨tail, htail, hd⟩ := hfraction
      refine .inr ⟨n, ⟨leading tail, hd, isDigit_leading tail⟩, after tail, ?_,
        noDigitAtStart_after tail⟩
      simp only [read, htail, if_neg hd]
      rfl
    · -- a stroke that may follow has no digits behind it
      have hnone : ∀ tail, after (c :: cs) = '/' :: tail → leading tail = [] := by
        intro tail htail
        exact Classical.not_not.mp fun hd => hfraction ⟨tail, htail, hd⟩
      refine .inl ⟨n.integer, after (c :: cs), ?_, hrest, fun _ => hne, fun _ tail htail => ?_⟩
      · simp only [read]
        split
        · next tail htail => exact absurd ⟨tail, htail⟩ hpoint
        · next tail htail =>
          rw [if_pos (hnone tail htail), htail]
          rfl
        · rfl
      · have hafter := noDigitAtStart_after tail
        rwa [← leading_append_after tail, hnone tail htail, List.nil_append]

end Literal

namespace Token

variable {t : Token} {taken rest : Text}

theorem WrittenIn.of_readFrom (h : t.ReadFrom taken rest) : t.WrittenIn taken rest := by
  cases h with
  | symbol hc =>
    unfold ofSymbol? at hc
    split at hc
    · cases hc
      exact .lparen rest
    · cases hc
      exact .rparen rest
    · obtain ⟨o, ho, rfl⟩ := Option.map_eq_some_iff.mp hc
      rw [← Operator.symbol_of_ofSymbol? ho]
      exact .op o rest
  | @number c cs v hstart hv =>
    obtain ⟨n, rest, hread, hdigit, hpoint, hfraction⟩ | ⟨n, d, rest, hread, hrest⟩ :=
      Literal.read_cases cs hstart
    · rw [hread] at hv ⊢
      rw [n.value_literal] at hv
      rw [n.text_literal]
      exact .numeral (Numeral.longestAt_append_iff.mpr ⟨hdigit, hpoint⟩) hfraction
        (n.read_self.trans hv)
    · rw [hread] at hv ⊢
      rw [Literal.value, n.value_fraction d] at hv
      split at hv
      · cases hv
      · next hd =>
        cases hv
        exact .fraction hrest hd

/-- A literal that is read up to a rest is a number in front of it. -/
theorem ReadFrom.of_read {l : Literal} {s : Text} {v : Rat}
    (hstart : ∃ c cs, s ++ rest = c :: cs ∧ Literal.starts c = true)
    (hread : Literal.read (s ++ rest) = (l, rest)) (hv : l.value = .ok v) :
    ReadFrom (.number v) l.text rest := by
  obtain ⟨c, cs, hs, hc⟩ := hstart
  rw [hs] at hread
  have h : ReadFrom (.number v) (Literal.read (c :: cs)).1.text (Literal.read (c :: cs)).2 :=
    .number hc (by rw [hread]; exact hv)
  rwa [hread] at h

theorem WrittenIn.readFrom (h : t.WrittenIn taken rest) : t.ReadFrom taken rest := by
  cases h with
  | op o _ =>
    refine .symbol ?_
    cases o <;> rfl
  | lparen _ => exact .symbol rfl
  | rparen _ => exact .symbol rfl
  | @numeral n v _ hlongest hfraction hv =>
    obtain ⟨hdigit, hpoint⟩ := Numeral.longestAt_append_iff.mp hlongest
    have hvalue : n.literal.value = .ok v := n.value_literal.trans (n.read_self.symm.trans hv)
    have hread : Literal.read (n.text ++ rest) = (n.literal, rest) := by
      by_cases hstroke : ∃ cs, rest = '/' :: cs
      · obtain ⟨cs, rfl⟩ := hstroke
        exact n.read_stroke fun hn => hfraction hn cs rfl
      · refine n.read_append hdigit fun hn => ?_
        have hafter := after_run n.isDigit_whole hdigit
        rw [Literal.read_of_run, leading_run n.isDigit_whole hdigit, hafter]
        rw [hafter]
        refine fun c hc => ⟨hpoint hn c hc, ?_⟩
        rintro rfl
        exact hstroke (List.head?_eq_some_iff.mp hc)
    obtain ⟨c, cs, hn, hc⟩ := n.starts_text
    rw [← n.text_literal]
    exact .of_read ⟨c, cs ++ rest, by rw [hn, List.cons_append], hc⟩ hread hvalue
  | @fraction n d _ hrest hd =>
    have hvalue : (Literal.fraction n.digits d.digits).value = .ok (n.value / d.value) := by
      rw [Literal.value, n.value_fraction d, if_neg hd]
    have hread := n.read_fraction d hrest
    rw [← List.cons_append, ← List.append_assoc] at hread
    obtain ⟨c, cs, hn, hc⟩ := n.starts_append ('/' :: d.digits ++ rest)
    exact .of_read ⟨c, cs, by rw [List.append_assoc, hn], hc⟩ hread hvalue

/-- **Tokens** are read from the characters that they are written in. -/
theorem writtenIn_iff_readFrom : t.WrittenIn taken rest ↔ t.ReadFrom taken rest :=
  ⟨WrittenIn.readFrom, WrittenIn.of_readFrom⟩

theorem isBlank_of_ofSymbol? {c : Char} (h : ofSymbol? c = some t) : isBlank c = false := by
  unfold ofSymbol? at h
  split at h
  · rfl
  · rfl
  · obtain ⟨o, ho, -⟩ := Option.map_eq_some_iff.mp h
    rw [← Operator.symbol_of_ofSymbol? ho]
    cases o <;> rfl

theorem ReadFrom.isBlank_eq_false (h : t.ReadFrom taken rest) : ∀ c ∈ taken, isBlank c = false := by
  intro c hc
  cases h with
  | symbol hsymbol =>
    rw [List.mem_singleton.mp hc]
    exact isBlank_of_ofSymbol? hsymbol
  | number _ _ =>
    obtain hdigit | rfl | rfl := Literal.mem_text_read hc
    · exact isBlank_of_isDigit hdigit
    · rfl
    · rfl

end Token

namespace Lexeme

variable {pos : Nat} {cs : Text} {l : Lexeme} {ls : List Lexeme}

/-- Tokens that stand in a text one behind the other are scanned. -/
theorem scanFrom_of_placed (h : Placed pos cs ls) : scanFrom pos cs = .ok ls := by
  induction h with
  | nil pos => exact scanFrom_nil pos
  | blank hc _ ih => rw [scanFrom_blank hc, ih]
  | token ht _ ih =>
    cases ht with
    | symbol hc =>
      rw [List.singleton_append, scanFrom_symbol (Token.isBlank_of_ofSymbol? hc) hc]
      exact congrArg (Except.map _) ih
    | number hstart hv =>
      rw [Literal.text_read, scanFrom_literal (Literal.isBlank_of_starts hstart)
        (Token.ofSymbol?_of_starts hstart) hstart, hv]
      exact congrArg (Except.map _) ih

/-- **Scanning** succeeds with the tokens that stand in the text one behind the other. -/
theorem scanFrom_eq_ok_iff_placed : scanFrom pos cs = .ok ls ↔ Placed pos cs ls :=
  ⟨placed_of_scanFrom, scanFrom_of_placed⟩

end Lexeme

/-! ## Spans -/

theorem Text.of_drop_eq_cons {cs rest : Text} {c : Char} {pos : Nat} (h : cs.drop pos = c :: rest) :
    cs[pos]? = some c ∧ cs.drop (pos + 1) = rest :=
  ⟨by rw [← List.head?_drop, h, List.head?_cons], by rw [← List.tail_drop, h, List.tail_cons]⟩

/-- The places of a text from `start` on that come before `stop`. There is at least one. -/
structure Span where
  start : Nat
  stop : Nat
  start_lt_stop : start < stop

namespace Span

instance : Membership Nat Span := ⟨fun s i => s.start ≤ i ∧ i < s.stop⟩

variable {cs : Text} {s : Span}

theorem start_mem (s : Span) : s.start ∈ s := ⟨Nat.le_refl _, s.start_lt_stop⟩

theorem stop_le_length (h : ∀ i ∈ s, ∃ c, cs[i]? = some c) : s.stop ≤ cs.length := by
  have hlt := s.start_lt_stop
  obtain ⟨d, hd⟩ := h (s.stop - 1) ⟨by omega, by omega⟩
  obtain ⟨hlast, -⟩ := List.getElem?_eq_some_iff.mp hd
  omega

theorem extract_append_drop (s : Span) (cs : Text) :
    cs.extract s.start s.stop ++ cs.drop s.stop = cs.drop s.start := by
  have hadd : s.start + (s.stop - s.start) = s.stop :=
    Nat.add_sub_cancel' (Nat.le_of_lt s.start_lt_stop)
  have hdrop : cs.drop s.stop = (cs.drop s.start).drop (s.stop - s.start) := by
    rw [List.drop_drop, hadd]
  rw [List.extract_eq_take_drop, hdrop, List.take_append_drop]

end Span

namespace Lexeme

/-- The tokens of a text from the position `pos` on, and the spans that they are written in. -/
structure SpansFrom (pos : Nat) (cs : Text) (ls : List Lexeme) (spans : List Span) : Prop where
  /-- The spans stand one behind the other. -/
  ordered : spans.Pairwise fun s s' => s.stop ≤ s'.start
  /-- Together they hold the characters that are no blanks. -/
  covers : ∀ i, (∃ s ∈ spans, i ∈ s) ↔ pos ≤ i ∧ ∃ c, cs[i]? = some c ∧ isBlank c = false
  /-- There is one for each token. It starts at the position of the token and holds its
  characters. -/
  written : List.Forall₂ (fun l s => l.pos = s.start ∧
    l.token.WrittenIn (cs.extract s.start s.stop) (cs.drop s.stop)) ls spans

namespace SpansFrom

variable {pos : Nat} {cs : Text} {l : Lexeme} {ls : List Lexeme} {spans : List Span} {s : Span}
  {c : Char}

theorem of_length_le (h : cs.length ≤ pos) : SpansFrom pos cs [] [] where
  ordered := .nil
  covers i := by
    constructor
    · rintro ⟨s, hs, -⟩
      cases hs
    · rintro ⟨hi, c, hc, -⟩
      obtain ⟨hlt, -⟩ := List.getElem?_eq_some_iff.mp hc
      omega
  written := .nil

theorem blank_iff (hc : cs[pos]? = some c) (hb : isBlank c = true) :
    SpansFrom pos cs ls spans ↔ SpansFrom (pos + 1) cs ls spans := by
  have hsolid (i : Nat) : (pos ≤ i ∧ ∃ d, cs[i]? = some d ∧ isBlank d = false) ↔
      pos + 1 ≤ i ∧ ∃ d, cs[i]? = some d ∧ isBlank d = false := by
    constructor
    · rintro ⟨hi, d, hd, hd'⟩
      refine ⟨Nat.lt_of_le_of_ne hi ?_, d, hd, hd'⟩
      rintro rfl
      rw [hc] at hd
      cases hd
      rw [hb] at hd'
      cases hd'
    · exact fun h => ⟨Nat.le_of_succ_le h.1, h.2⟩
  constructor
  · exact fun h => ⟨h.ordered, fun i => (h.covers i).trans (hsolid i), h.written⟩
  · exact fun h => ⟨h.ordered, fun i => (h.covers i).trans (hsolid i).symm, h.written⟩

/-- **The first span** is that of the first token, and the others are those of the text behind
it. -/
theorem cons_iff (hs : ∀ i ∈ s, ∃ c, cs[i]? = some c ∧ isBlank c = false) :
    SpansFrom s.start cs (l :: ls) (s :: spans) ↔
      (l.pos = s.start ∧ l.token.WrittenIn (cs.extract s.start s.stop) (cs.drop s.stop)) ∧
        SpansFrom s.stop cs ls spans := by
  have hlt := s.start_lt_stop
  constructor
  · rintro ⟨hordered, hcovers, hwritten⟩
    obtain ⟨hbehind, hordered⟩ := List.pairwise_cons.mp hordered
    obtain ⟨hl, hwritten⟩ := List.forall₂_cons.mp hwritten
    refine ⟨hl, hordered, fun i => ⟨?_, ?_⟩, hwritten⟩
    · rintro ⟨s', hs', hi⟩
      obtain ⟨-, hsolid⟩ := (hcovers i).mp ⟨s', List.mem_cons_of_mem _ hs', hi⟩
      exact ⟨Nat.le_trans (hbehind s' hs') hi.1, hsolid⟩
    · rintro ⟨hi, hsolid⟩
      obtain ⟨s', hs', hi'⟩ := (hcovers i).mpr ⟨by omega, hsolid⟩
      obtain rfl | hs' := List.mem_cons.mp hs'
      · exact absurd hi (Nat.not_le.mpr hi'.2)
      · exact ⟨s', hs', hi'⟩
  · rintro ⟨hl, hordered, hcovers, hwritten⟩
    refine ⟨List.pairwise_cons.mpr ⟨fun s' hs' => ?_, hordered⟩, fun i => ⟨?_, ?_⟩,
      .cons hl hwritten⟩
    · exact ((hcovers s'.start).mp ⟨s', hs', s'.start_mem⟩).1
    · rintro ⟨s', hs', hi⟩
      obtain rfl | hs' := List.mem_cons.mp hs'
      · exact ⟨hi.1, hs i hi⟩
      · obtain ⟨hstop, hsolid⟩ := (hcovers i).mp ⟨s', hs', hi⟩
        exact ⟨by omega, hsolid⟩
    · rintro ⟨hi, hsolid⟩
      by_cases hstop : i < s.stop
      · exact ⟨s, List.mem_cons_self, hi, hstop⟩
      · obtain ⟨s', hs', hi'⟩ := (hcovers i).mpr ⟨Nat.le_of_not_lt hstop, hsolid⟩
        exact ⟨s', List.mem_cons_of_mem _ hs', hi'⟩

theorem map_pos_eq (h : SpansFrom pos cs ls spans) : ls.map Lexeme.pos = spans.map Span.start := by
  have hwritten := h.written
  clear h
  induction hwritten with
  | nil => rfl
  | cons hl _ ih => rw [List.map_cons, List.map_cons, hl.1, ih]

theorem pairwise_pos (h : SpansFrom pos cs ls spans) : (ls.map Lexeme.pos).Pairwise (· < ·) := by
  rw [h.map_pos_eq, List.pairwise_map]
  exact h.ordered.imp fun {s s'} hs => Nat.lt_of_lt_of_le s.start_lt_stop hs

/-- **Placed tokens** are written in spans of the text. -/
theorem exists_of_placed (h : Placed pos (cs.drop pos) ls) :
    ∃ spans, SpansFrom pos cs ls spans := by
  generalize hrest : cs.drop pos = rest at h
  induction h with
  | nil pos => exact ⟨[], of_length_le (List.drop_eq_nil_iff.mp hrest)⟩
  | @blank pos c rest ls hb _ ih =>
    obtain ⟨hc, htail⟩ := Text.of_drop_eq_cons hrest
    obtain ⟨spans, hspans⟩ := ih htail
    exact ⟨spans, (blank_iff hc hb).mpr hspans⟩
  | @token pos t taken rest ls ht _ ih =>
    have hlength : 0 < taken.length := List.length_pos_of_ne_nil ht.ne_nil
    let s : Span := ⟨pos, pos + taken.length, by omega⟩
    have hbehind : cs.drop s.stop = rest := by rw [← List.drop_drop, hrest, List.drop_left]
    have htaken : cs.extract s.start s.stop = taken := by
      rw [List.extract_eq_take_drop, hrest, Nat.add_sub_cancel_left, List.take_left]
    have hsolid : ∀ i ∈ s, ∃ c, cs[i]? = some c ∧ isBlank c = false := by
      rintro i ⟨hle, hlt⟩
      obtain ⟨j, rfl⟩ := Nat.exists_eq_add_of_le hle
      have hj : j < taken.length := Nat.lt_of_add_lt_add_left hlt
      refine ⟨taken[j], ?_, ht.isBlank_eq_false _ (List.getElem_mem hj)⟩
      rw [← List.getElem?_drop, hrest, List.getElem?_append_left hj, List.getElem?_eq_getElem hj]
    obtain ⟨spans, hspans⟩ := ih hbehind
    refine ⟨s :: spans, (cons_iff hsolid).mpr ⟨⟨rfl, ?_⟩, hspans⟩⟩
    rw [htaken, hbehind]
    exact Token.writtenIn_iff_readFrom.mpr ht

theorem exists_cons (h : SpansFrom pos cs ls spans) (hc : cs[pos]? = some c)
    (hb : isBlank c = false) :
    ∃ l ls' s spans', ls = l :: ls' ∧ spans = s :: spans' ∧ s.start = pos := by
  obtain ⟨s', hs', hpos⟩ := (h.covers pos).mpr ⟨Nat.le_refl _, c, hc, hb⟩
  obtain ⟨hordered, hcovers, hwritten⟩ := h
  cases hwritten with
  | nil => cases hs'
  | @cons l s ls spans hl hwritten =>
    refine ⟨l, ls, s, spans, rfl, rfl, ?_⟩
    obtain ⟨hle, -⟩ := (hcovers s.start).mp ⟨s, List.mem_cons_self, s.start_mem⟩
    have hstart := hpos.1
    have hlt := s.start_lt_stop
    obtain rfl | hs' := List.mem_cons.mp hs'
    · omega
    · have hbehind := (List.pairwise_cons.mp hordered).1 s' hs'
      omega

/-- Tokens that are written in spans of a text stand in it. -/
theorem placed {pos : Nat} {ls : List Lexeme} {spans : List Span} (h : SpansFrom pos cs ls spans) :
    Placed pos (cs.drop pos) ls := by
  cases hrest : cs.drop pos with
  | nil =>
    have hnone : spans = [] := by
      refine List.eq_nil_iff_forall_not_mem.mpr fun s hs => ?_
      obtain ⟨hle, c, hc, -⟩ := (h.covers s.start).mp ⟨s, hs, s.start_mem⟩
      obtain ⟨hlt, -⟩ := List.getElem?_eq_some_iff.mp hc
      have hend := List.drop_eq_nil_iff.mp hrest
      omega
    subst hnone
    cases h.written
    exact .nil pos
  | cons c rest =>
    obtain ⟨hc, htail⟩ := Text.of_drop_eq_cons hrest
    obtain ⟨hlt, -⟩ := List.getElem?_eq_some_iff.mp hc
    cases hb : isBlank c with
    | true =>
      have hplaced := placed ((blank_iff hc hb).mp h)
      rw [htail] at hplaced
      exact .blank hb hplaced
    | false =>
      obtain ⟨⟨t, _⟩, ls, s, spans, rfl, rfl, rfl⟩ := h.exists_cons hc hb
      have hsolid : ∀ i ∈ s, ∃ c, cs[i]? = some c ∧ isBlank c = false :=
        fun i hi => ((h.covers i).mp ⟨s, List.mem_cons_self, hi⟩).2
      obtain ⟨⟨rfl, hwritten⟩, hbehind⟩ := (cons_iff hsolid).mp h
      have hstart := s.start_lt_stop
      have hstop : s.stop ≤ cs.length :=
        s.stop_le_length fun i hi => (hsolid i hi).imp fun _ => And.left
      have hlength : s.start + (cs.extract s.start s.stop).length = s.stop := by
        rw [List.extract_eq_take_drop, List.length_take, List.length_drop]
        omega
      have hplaced := placed hbehind
      rw [← hrest, ← s.extract_append_drop cs]
      refine .token (Token.writtenIn_iff_readFrom.mp hwritten) ?_
      rw [hlength]
      exact hplaced
termination_by cs.length - pos

end SpansFrom

/-- **The spans of tokens.** A text is scanned as these tokens exactly when they are written in
spans of it that stand in order and apart and hold together the characters that are no blanks. The
positions of the tokens increase. -/
theorem scan_eq_ok_iff_spans (cs : Text) (ls : List Lexeme) :
    scan cs = .ok ls ↔
      (∃ spans, SpansFrom 0 cs ls spans) ∧ (ls.map Lexeme.pos).Pairwise (· < ·) := by
  rw [scan, scanFrom_eq_ok_iff_placed]
  constructor
  · intro h
    have hplaced : Placed 0 (cs.drop 0) ls := h
    obtain ⟨spans, hspans⟩ := SpansFrom.exists_of_placed hplaced
    exact ⟨⟨spans, hspans⟩, hspans.pairwise_pos⟩
  · rintro ⟨⟨spans, hspans⟩, -⟩
    exact hspans.placed

/-- A second point opens a number, and a point behind a fraction does too. -/
example : scan (.ofString "1.2.3+ 6/8.") = .ok [⟨.number (6 / 5), 0⟩, ⟨.number (3 / 10), 3⟩,
    ⟨.op .add, 5⟩, ⟨.number (3 / 4), 7⟩, ⟨.number 0, 10⟩] := by
  decide +kernel

end Lexeme

end ExactLength
