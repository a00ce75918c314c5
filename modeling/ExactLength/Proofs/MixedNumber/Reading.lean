import ExactLength.MixedNumber

/-!
# Which texts are read as mixed numbers

The reader takes whole runs of digits. It finds a mixed number at the start of a text exactly when
the text begins with one, and then reads its last run to the end.

Results:
* `read?_written`: a written mixed number is read, its last run with the digits that follow.
* `read?_eq_some_iff`: the reader's answer, without the reader.
* `startsMixed_iff`: it has an answer when the text begins with a written mixed number.
* `free_iff`: a text has no mixed number in it when none is read anywhere.
-/

namespace ExactLength

namespace Text

/-- The text does not go on with a digit. -/
def NoDigitAtStart (cs : Text) : Prop := ∀ c ∈ cs.head?, c.isDigit = false

/-- The text does not leave off at a digit. -/
def NoDigitAtEnd (cs : Text) : Prop := ∀ c ∈ cs.getLast?, c.isDigit = false

end Text

/-- A run of digits, at least one. -/
structure Digits.IsRun (ds : Text) : Prop where
  ne_nil : ds ≠ []
  isDigit : ∀ c ∈ ds, c.isDigit = true

/-- The parts of the mixed number are runs of digits. -/
structure MixedNumber.IsRuns (m : MixedNumber) : Prop where
  whole : Digits.IsRun m.whole
  numerator : Digits.IsRun m.numerator
  denominator : Digits.IsRun m.denominator

/-! ## Runs of digits and blanks -/

theorem isDigit_of_isBlank {c : Char} (h : isBlank c = true) : c.isDigit = false := by
  have all : blanks.all (!·.isDigit) = true := by decide
  have hc := List.all_eq_true.1 all c (isBlank_iff_mem.1 h)
  simpa using hc

theorem isBlank_of_isDigit {c : Char} (h : c.isDigit = true) : isBlank c = false := by
  cases hb : isBlank c with
  | false => rfl
  | true => rw [isDigit_of_isBlank hb] at h; cases h

namespace Text

theorem noDigitAtStart_nil : NoDigitAtStart [] := fun _ h => by cases h

theorem noDigitAtStart_cons {c : Char} {cs : Text} :
    NoDigitAtStart (c :: cs) ↔ c.isDigit = false := by
  simp [NoDigitAtStart]

theorem noDigitAtEnd_append {cs ds : Text} (h : ds ≠ []) :
    NoDigitAtEnd (cs ++ ds) ↔ NoDigitAtEnd ds := by
  rw [NoDigitAtEnd, NoDigitAtEnd, List.getLast?_append, List.getLast?_eq_some_getLast h,
    Option.some_or]

theorem NoDigitAtStart.append {cs ds : Text} (hcs : NoDigitAtStart cs) (hds : NoDigitAtStart ds) :
    NoDigitAtStart (cs ++ ds) := by
  cases cs with
  | nil => exact hds
  | cons c cs => exact noDigitAtStart_cons.mpr (noDigitAtStart_cons.mp hcs)

theorem Blank.noDigitAtStart {g : Text} (h : g.Blank) : NoDigitAtStart g :=
  fun c hc => isDigit_of_isBlank (h c (List.mem_of_mem_head? hc))

theorem Blank.noDigitAtEnd {g : Text} (h : g.Blank) : NoDigitAtEnd g :=
  fun c hc => isDigit_of_isBlank (h c (List.mem_of_mem_getLast? hc))

theorem Blank.skipBlanks_append {g : Text} (h : g.Blank) (cs : Text) :
    skipBlanks (g ++ cs) = skipBlanks cs :=
  List.dropWhile_append_of_pos h

theorem skipBlanks_cons {c : Char} (cs : Text) (h : isBlank c = false) :
    skipBlanks (c :: cs) = c :: cs := by
  simp [skipBlanks, h]

end Text

namespace Digits

theorem isRun_cons_iff {c : Char} {ds : Text} :
    IsRun (c :: ds) ↔ c.isDigit = true ∧ ∀ d ∈ ds, d.isDigit = true := by
  constructor
  · intro h
    exact List.forall_mem_cons.1 h.isDigit
  · intro h
    exact ⟨List.cons_ne_nil _ _, List.forall_mem_cons.2 h⟩

theorem isDigit_of_mem_leading {cs : Text} {c : Char} (h : c ∈ leading cs) : c.isDigit = true :=
  List.all_eq_true.1 List.all_takeWhile c h

theorem isDigit_leading (cs : Text) : ∀ c ∈ leading cs, c.isDigit = true :=
  fun _ => isDigit_of_mem_leading

theorem isDigit_of_mem_cons_leading {c : Char} (hc : c.isDigit = true) (cs : Text) :
    ∀ d ∈ c :: leading cs, d.isDigit = true :=
  List.forall_mem_cons.2 ⟨hc, isDigit_leading _⟩

theorem cons_eq_cons_leading_append (c : Char) (cs : Text) :
    c :: cs = c :: leading cs ++ after cs := by
  rw [List.cons_append, leading_append_after]

theorem leading_eq_nil {cs : Text} (h : cs.NoDigitAtStart) : leading cs = [] := by
  cases cs with
  | nil => rfl
  | cons c cs =>
    have hc := Text.noDigitAtStart_cons.mp h
    simp [leading, hc]

theorem after_eq_self {cs : Text} (h : cs.NoDigitAtStart) : after cs = cs := by
  cases cs with
  | nil => rfl
  | cons c cs =>
    have hc := Text.noDigitAtStart_cons.mp h
    simp [after, hc]

theorem noDigitAtStart_after (cs : Text) : (after cs).NoDigitAtStart := by
  intro c hc
  have h := List.head?_dropWhile_not Char.isDigit cs
  rw [after] at hc
  rw [Option.mem_def.mp hc] at h
  simpa using h

/-- A run and a text that does not go on with a digit are taken apart again. -/
theorem leading_run {ds cs : Text} (hds : ∀ c ∈ ds, c.isDigit = true) (hcs : cs.NoDigitAtStart) :
    leading (ds ++ cs) = ds := by
  rw [leading_append hds, leading_eq_nil hcs, List.append_nil]

theorem after_run {ds cs : Text} (hds : ∀ c ∈ ds, c.isDigit = true) (hcs : cs.NoDigitAtStart) :
    after (ds ++ cs) = cs := by
  rw [after_append hds, after_eq_self hcs]

theorem split?_append {ds : Text} (h : IsRun ds) (cs : Text) :
    split? (ds ++ cs) = some (ds ++ leading cs, after cs) := by
  rw [split?_eq_some_iff]
  exact ⟨List.append_ne_nil_of_left_ne_nil h.ne_nil _, (leading_append h.isDigit).symm,
    (after_append h.isDigit).symm⟩

theorem isRun_of_split? {cs ds rest : Text} (h : split? cs = some (ds, rest)) :
    IsRun ds ∧ rest.NoDigitAtStart := by
  obtain ⟨hne, rfl, rfl⟩ := split?_eq_some_iff.1 h
  exact ⟨⟨hne, isDigit_leading cs⟩, noDigitAtStart_after cs⟩

end Digits

/-! ## Reading what is written -/

namespace MixedNumber

open Text Digits

variable {joint : Joint} {m : MixedNumber}

theorem Joint.Written.noDigitAtStart {g : Text} (h : joint.Written g) (cs : Text) :
    NoDigitAtStart (g ++ cs) := by
  cases joint with
  | dash =>
    obtain ⟨a, b, ha, -, rfl⟩ := h
    have hb : NoDigitAtStart ('-' :: b ++ cs) := noDigitAtStart_cons.mpr rfl
    rw [List.append_assoc]
    exact ha.noDigitAtStart.append hb
  | blanks =>
    obtain ⟨hne, hg⟩ := h
    obtain ⟨c, g, rfl⟩ := List.exists_cons_of_ne_nil hne
    exact noDigitAtStart_cons.mpr (noDigitAtStart_cons.mp hg.noDigitAtStart)

theorem Joint.skip?_written {g : Text} (h : joint.Written g) {ds : Text} (hds : IsRun ds)
    (cs : Text) : joint.skip? (g ++ ds ++ cs) = some (ds ++ cs) := by
  obtain ⟨d, ds, rfl⟩ := List.exists_cons_of_ne_nil hds.ne_nil
  have hd : isBlank d = false := isBlank_of_isDigit (isRun_cons_iff.mp hds).1
  rw [List.append_assoc, List.cons_append]
  cases joint with
  | dash =>
    obtain ⟨a, b, ha, hb, rfl⟩ := h
    rw [skip?, List.append_assoc, ha.skipBlanks_append, List.cons_append,
      skipBlanks_cons _ (by decide), Text.skip?_eq_some_iff.mpr rfl, Option.map_some,
      hb.skipBlanks_append, skipBlanks_cons _ hd]
  | blanks =>
    obtain ⟨hne, hg⟩ := h
    obtain ⟨c, g, rfl⟩ := List.exists_cons_of_ne_nil hne
    obtain ⟨hc, hg⟩ := List.forall_mem_cons.1 hg
    rw [List.cons_append, skip?, if_pos hc, Blank.skipBlanks_append hg, skipBlanks_cons _ hd]

/-- **Reading back.** A written mixed number is read, its last run with the digits that follow. -/
theorem read?_written (hm : m.IsRuns) {t : Text} (ht : Written joint m t) (cs : Text) :
    read? joint (t ++ cs) =
      some (⟨m.whole, m.numerator, m.denominator ++ leading cs⟩, after cs) := by
  obtain ⟨g, a, b, hg, ha, hb, rfl⟩ := ht
  have hsplit : split? (m.whole ++ (g ++ m.numerator ++ (a ++ '/' :: b ++ m.denominator ++ cs))) =
      some (m.whole, g ++ m.numerator ++ (a ++ '/' :: b ++ m.denominator ++ cs)) := by
    have hstart := hg.noDigitAtStart (m.numerator ++ (a ++ '/' :: b ++ m.denominator ++ cs))
    rw [List.append_assoc g, split?_append hm.whole, leading_eq_nil hstart, after_eq_self hstart,
      List.append_nil]
  have hstroke : NoDigitAtStart (a ++ '/' :: b ++ m.denominator ++ cs) := by
    have hs : NoDigitAtStart ('/' :: b ++ (m.denominator ++ cs)) := noDigitAtStart_cons.mpr rfl
    rw [List.append_assoc, List.append_assoc]
    exact ha.noDigitAtStart.append hs
  have hnumerator : split? (m.numerator ++ (a ++ '/' :: b ++ m.denominator ++ cs)) =
      some (m.numerator, a ++ '/' :: b ++ m.denominator ++ cs) := by
    rw [split?_append hm.numerator, leading_eq_nil hstroke, after_eq_self hstroke, List.append_nil]
  have hskip : Text.skip? '/' (skipBlanks (a ++ '/' :: b ++ m.denominator ++ cs)) =
      some (b ++ m.denominator ++ cs) := by
    rw [List.append_assoc, List.append_assoc, ha.skipBlanks_append, List.cons_append,
      skipBlanks_cons _ (by decide), Text.skip?_eq_some_iff.mpr rfl, List.append_assoc]
  have hdenominator : split? (skipBlanks (b ++ m.denominator ++ cs)) =
      some (m.denominator ++ leading cs, after cs) := by
    obtain ⟨d, ds, hds⟩ := List.exists_cons_of_ne_nil hm.denominator.ne_nil
    have hd : isBlank d = false :=
      isBlank_of_isDigit (hm.denominator.isDigit d (hds ▸ List.mem_cons_self))
    have hskip : skipBlanks (m.denominator ++ cs) = m.denominator ++ cs := by
      rw [hds]
      exact skipBlanks_cons _ hd
    rw [List.append_assoc, hb.skipBlanks_append, hskip, split?_append hm.denominator]
  have hassoc : m.whole ++ g ++ m.numerator ++ a ++ '/' :: b ++ m.denominator ++ cs =
      m.whole ++ (g ++ m.numerator ++ (a ++ '/' :: b ++ m.denominator ++ cs)) := by
    simp
  rw [hassoc]
  simp only [read?, Option.bind_eq_bind, hsplit, Option.bind_some, Joint.skip?_written hg
    hm.numerator, hnumerator, hskip, hdenominator]
  rfl

theorem isRuns_of_read? {cs rest : Text} (h : read? joint cs = some (m, rest)) :
    m.IsRuns ∧ rest.NoDigitAtStart := by
  simp only [read?, Option.bind_eq_bind, Option.bind_eq_some_iff, Prod.exists] at h
  obtain ⟨whole, _, hwhole, _, _, numerator, _, hnumerator, _, _, denominator, _, hdenominator, h⟩ :=
    h
  cases h
  obtain ⟨hrun, hrest⟩ := isRun_of_split? hdenominator
  exact ⟨⟨(isRun_of_split? hwhole).1, (isRun_of_split? hnumerator).1, hrun⟩, hrest⟩

/-- **The reader without the reader.** A mixed number and a rest are read from a text when the text
is one of the ways to write the number, and a rest that does not go on with a digit. -/
theorem read?_eq_some_iff {cs rest : Text} :
    read? joint cs = some (m, rest) ↔
      m.IsRuns ∧ rest.NoDigitAtStart ∧ ∃ t, Written joint m t ∧ cs = t ++ rest := by
  constructor
  · intro h
    obtain ⟨t, ht, -, hcs⟩ := eq_append_of_read? h
    exact ⟨(isRuns_of_read? h).1, (isRuns_of_read? h).2, t, ht, hcs⟩
  · rintro ⟨hm, hrest, t, ht, rfl⟩
    rw [read?_written hm ht, leading_eq_nil hrest, after_eq_self hrest, List.append_nil]

end MixedNumber

/-! ## Texts without mixed numbers -/

namespace Text

open MixedNumber

variable {joint : Joint}

/-- The text begins with a written mixed number. -/
def StartsMixed (joint : Joint) (cs : Text) : Prop :=
  ∃ (m : MixedNumber) (t : Text), m.IsRuns ∧ Written joint m t ∧ t <+: cs

/-- No part of the text is a written mixed number. -/
def Free (joint : Joint) (cs : Text) : Prop :=
  ∀ (m : MixedNumber) (t : Text), t <:+: cs → m.IsRuns → ¬ Written joint m t

/-- A mixed number is read when the text begins with one. -/
theorem startsMixed_iff {cs : Text} : StartsMixed joint cs ↔ read? joint cs ≠ none := by
  constructor
  · rintro ⟨m, t, hm, ht, rest, rfl⟩
    rw [read?_written hm ht]
    exact Option.some_ne_none _
  · intro h
    obtain ⟨⟨m, rest⟩, hr⟩ := Option.ne_none_iff_exists'.mp h
    obtain ⟨hm, -, t, ht, rfl⟩ := read?_eq_some_iff.mp hr
    exact ⟨m, t, hm, ht, List.prefix_append t rest⟩

theorem read?_eq_none_iff {cs : Text} : read? joint cs = none ↔ ¬ StartsMixed joint cs := by
  rw [startsMixed_iff, ne_eq, Decidable.not_not]

theorem NoDigitAtStart.not_startsMixed {cs : Text} (h : NoDigitAtStart cs) :
    ¬ StartsMixed joint cs := by
  have hsplit : Digits.split? cs = none := by
    rw [Digits.split?, if_pos (Digits.leading_eq_nil h)]
  rw [← read?_eq_none_iff, read?, hsplit]
  rfl

theorem not_startsMixed_run {ds cs : Text} (hds : ∀ c ∈ ds, c.isDigit = true)
    (hcs : NoDigitAtStart cs) (h : joint.skip? cs = none) : ¬ StartsMixed joint (ds ++ cs) := by
  rw [← read?_eq_none_iff]
  cases hsplit : Digits.split? (ds ++ cs) with
  | none => rw [read?, hsplit]; rfl
  | some p =>
    obtain ⟨-, -, hp⟩ := Digits.split?_eq_some_iff.1 hsplit
    rw [Digits.after_run hds hcs] at hp
    rw [read?, hsplit]
    simp only [Option.bind_eq_bind, Option.bind_some, hp, h, Option.bind_none]

/-- A text has no mixed number in it when no end of it begins with one. -/
theorem free_iff {cs : Text} : Free joint cs ↔ ∀ ds, ds <:+ cs → ¬ StartsMixed joint ds := by
  constructor
  · rintro h ds hds ⟨m, t, hm, ht, htds⟩
    exact h m t (List.infix_iff_prefix_suffix.2 ⟨ds, htds, hds⟩) hm ht
  · intro h m t htcs hm ht
    obtain ⟨ds, htds, hds⟩ := List.infix_iff_prefix_suffix.1 htcs
    exact h ds hds ⟨m, t, hm, ht, htds⟩

theorem free_nil : Free joint [] := by
  rw [free_iff]
  intro ds hds
  rw [List.suffix_nil.1 hds]
  exact noDigitAtStart_nil.not_startsMixed

theorem free_cons {c : Char} {cs : Text} :
    Free joint (c :: cs) ↔ ¬ StartsMixed joint (c :: cs) ∧ Free joint cs := by
  simp only [free_iff, List.suffix_cons_iff, forall_eq_or_imp]

theorem Free.of_suffix {cs ds : Text} (h : Free joint cs) (hds : ds <:+ cs) : Free joint ds :=
  fun m t ht => h m t (ht.trans hds.isInfix)

theorem free_of_no_stroke {cs : Text} (h : '/' ∉ cs) : Free joint cs := by
  rintro m t ht - ⟨g, a, b, -, -, -, rfl⟩
  exact h (ht.subset (by simp))

end Text

end ExactLength
