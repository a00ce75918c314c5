import ExactLength.Proofs.Length.RefusedCharacter

/-!
# What a length is read from

No unit is guessed. A text is read from its cleaned form, and there are four things that it can be:
nothing, a unit by itself, a bare number, or a number of a unit. The unit is the one that the
longest suffix at the end names. An inch without a suffix is meant only where an operator or a
parenthesis makes an expression of the number.

Cleaning is one thing in whatever order it is done: lower case and plain marks leave blanks alone
and make none.

Results:
* `clean_eq_collapse`, `clean_eq_nil_iff`: blanks around a text may be dropped before or after.
* `exists_content`: the cleaned text is one of the four, and that decides the length.
* `HasContent.unique`: it is no two of them, and the number and its unit are cut in one way.
* `ofText_content`: both, and that digits, points and spaces alone are no length.
-/

namespace ExactLength.Length

open Text
open LengthUnit (NoSuffix LongestSuffix suffixes suffixes_pairwise)

/-! ## Cleaning -/

theorem map_plainMark_lowercase (cs : Text) :
    cs.lowercase.map plainMark = cs.flatMap cleanChar := List.map_flatMap

theorem flatMap_cleanChar_of_blank {g : Text} (hg : g.Blank) : g.flatMap cleanChar = g := by
  rw [← map_plainMark_lowercase, hg.admitted.map_plainMark_lowercase]

theorem exists_mem_cleanChar {c : Char} (hc : isBlank c = false) :
    ∃ d ∈ cleanChar c, isBlank d = false := by
  cases hadmitted : isAdmitted c with
  | true =>
    rw [cleanChar_of_admitted hadmitted]
    exact ⟨c, List.mem_singleton_self c, hc⟩
  | false =>
    obtain ⟨d, ds, hclean, hd⟩ := exists_cleanChar_refused hadmitted
    rw [hclean]
    exact ⟨d, List.mem_cons_self, not_isBlank_of_refused hd⟩

theorem blank_flatMap_cleanChar_iff {cs : Text} : Blank (cs.flatMap cleanChar) ↔ cs.Blank := by
  refine ⟨fun h c hc => ?_, fun h => ?_⟩
  · by_contra hblank
    obtain ⟨d, hd, hnot⟩ := exists_mem_cleanChar (Bool.eq_false_iff.mpr hblank)
    rw [h d (List.mem_flatMap.2 ⟨c, hc, hd⟩)] at hnot
    cases hnot
  · rw [flatMap_cleanChar_of_blank h]
    exact h

/-- Blanks around a text do not count, so they need not be trimmed off first. -/
theorem clean_eq_collapse (text : Text) :
    clean text = collapse (text.lowercase.map plainMark) := by
  obtain ⟨g, g', hg, hg', htext⟩ := exists_trim_eq text
  have hparts : text.flatMap cleanChar = g ++ text.trim.flatMap cleanChar ++ g' := by
    conv_lhs => rw [htext]
    rw [List.flatMap_append, List.flatMap_append, flatMap_cleanChar_of_blank hg,
      flatMap_cleanChar_of_blank hg']
  rw [clean, map_plainMark_lowercase, map_plainMark_lowercase, hparts, collapse, collapse,
    words_between_blanks hg hg']

theorem clean_eq_collapse_trim (text : Text) :
    clean text = collapse (trim (text.lowercase.map plainMark)) := by
  rw [clean_eq_collapse, collapse, collapse, words_trim]

/-- Nothing is left of blanks alone. -/
theorem clean_eq_nil_iff {text : Text} : clean text = [] ↔ text.trim = [] := by
  rw [clean_eq_collapse, collapse_eq_nil_iff, map_plainMark_lowercase, blank_flatMap_cleanChar_iff,
    trim_eq_nil_iff]

/-! ## Content -/

/-- What a text is read as. -/
inductive Content
  | nothing
  /-- A unit without a number in front. -/
  | unitAlone (unit : LengthUnit)
  /-- A number without a unit. -/
  | bareNumber
  | quantity (number : Text) (unit : LengthUnit)
  deriving DecidableEq, Repr

/-- The length that it is, or why it is none. -/
def Content.result : Content → Except LengthError Length
  | nothing => .error .empty
  | unitAlone unit => .error (.missingNumber unit)
  | bareNumber => .error .missingUnit
  | quantity number unit =>
    match explain number with
    | .ok (value, working) => .ok ⟨value, unit, working⟩
    | .error e => .error (.calculation e)

/-- What a cleaned text is read as. -/
inductive HasContent (cs : Text) : Content → Prop
  | nothing (h : cs = []) : HasContent cs .nothing
  | unitAlone {p : Text × LengthUnit} (hp : p ∈ suffixes) (h : cs = p.1) :
      HasContent cs (.unitAlone p.2)
  | bareNumber (hne : cs ≠ []) (hno : NoSuffix cs)
      (h : ∀ c ∈ cs, isExpressionSign c = false) : HasContent cs .bareNumber
  /-- The number does not end in a space; spaces may stand behind it. -/
  | quantity {n g : Text} {p : Text × LengthUnit} (hp : LongestSuffix cs p)
      (hn : n ≠ []) (hlast : n.getLast? ≠ some ' ') (hg : ∀ c ∈ g, c = ' ')
      (h : cs = n ++ g ++ p.1) : HasContent cs (.quantity n p.2)
  /-- An expression without a unit is in inches. -/
  | expression (hno : NoSuffix cs) (h : ∃ c ∈ cs, isExpressionSign c = true) :
      HasContent cs (.quantity cs .inch)

theorem measure_eq_result (number : Text) (unit : LengthUnit) :
    measure number unit = (Content.quantity number unit).result := by
  rw [measure, Content.result]
  cases explain number <;> rfl

/-- With a suffix at its end a text is a unit, by itself or with a number in front. -/
theorem HasContent.of_longestSuffix {n : Text} {p : Text × LengthUnit} {a : Content}
    (hp : LongestSuffix (n ++ p.1) p) (h : HasContent (n ++ p.1) a) :
    a = if n = [] then .unitAlone p.2 else .quantity n.dropTrailingSpaces p.2 := by
  cases h with
  | nothing h =>
    exact absurd (List.append_eq_nil_iff.1 h).2 (LengthUnit.isWord_of_mem hp.mem).ne_nil
  | @unitAlone q hq h =>
    have hq' : LongestSuffix (n ++ p.1) q :=
      ⟨hq, h ▸ List.suffix_rfl, fun _ _ hends => h ▸ hends.length_le⟩
    obtain rfl := hp.unique suffixes_pairwise hq'
    rw [if_pos (List.append_left_eq_self.1 h)]
  | bareNumber _ hno => exact absurd hp.ends (hno p hp.mem)
  | @quantity m g q hq hm hlast hg h =>
    obtain rfl := hp.unique suffixes_pairwise hq
    rw [List.append_cancel_right h, if_neg (List.append_ne_nil_of_left_ne_nil hm g),
      dropTrailingSpaces_append hlast hg]
  | expression hno => exact absurd hp.ends (hno p hp.mem)

/-- Without a suffix it is an expression or a bare number. -/
theorem HasContent.of_noSuffix {cs : Text} {a : Content} (hno : NoSuffix cs)
    (h : HasContent cs a) :
    a = if cs = [] then .nothing
      else if cs.any isExpressionSign then .quantity cs .inch else .bareNumber := by
  cases h with
  | nothing h => rw [if_pos h]
  | unitAlone hp h => exact absurd (h ▸ List.suffix_rfl) (hno _ hp)
  | bareNumber hne _ h =>
    have hsigns : ¬ cs.any isExpressionSign = true := by simpa using h
    rw [if_neg hne, if_neg hsigns]
  | quantity hp => exact absurd hp.ends (hno _ hp.mem)
  | expression _ h =>
    obtain ⟨c, hc, hsign⟩ := h
    rw [if_neg (List.ne_nil_of_mem hc), if_pos (List.any_eq_true.2 ⟨c, hc, hsign⟩)]

/-- **One content.** A text is no two of these, and its number and unit are cut in one way. -/
theorem HasContent.unique {cs : Text} {a b : Content} (ha : HasContent cs a)
    (hb : HasContent cs b) : a = b := by
  obtain hno | ⟨n, p, rfl, hp⟩ := none_or_longestEnd suffixes_pairwise cs
  · rw [ha.of_noSuffix hno, hb.of_noSuffix hno]
  · rw [ha.of_longestSuffix hp, hb.of_longestSuffix hp]

/-! ## Lengths -/

theorem exists_number_of_clean {text n : Text} {p : Text × LengthUnit}
    (hclean : clean text = n ++ p.1) (hn : n ≠ []) :
    trimEnd n ≠ [] ∧ (trimEnd n).getLast? ≠ some ' ' ∧
      ∃ g : Text, (∀ c ∈ g, c = ' ') ∧ n = trimEnd n ++ g := by
  obtain ⟨g, hg, hparts⟩ := exists_dropTrailing_append isBlank n
  refine ⟨fun hnil => ?_, fun hlast => ?_, g, fun c hc => ?_, hparts⟩
  · -- the cleaned text would begin with a blank
    obtain ⟨c, n, rfl⟩ := List.exists_cons_of_ne_nil hn
    have hc : isBlank c = true := trimEnd_eq_nil_iff.1 hnil c List.mem_cons_self
    have hskip : skipBlanks (clean text) = clean text := skipBlanks_collapse _
    rw [hclean, List.cons_append, skipBlanks_blank hc] at hskip
    have hle := length_dropWhile_le isBlank (n ++ p.1)
    rw [← skipBlanks, hskip, List.length_cons] at hle
    omega
  · exact absurd (getLast?_dropTrailing isBlank n ' ' hlast) (by decide)
  · have hmem : c ∈ clean text := by
      rw [hclean, hparts]
      exact List.mem_append_left _ (List.mem_append_right _ hc)
    rw [clean] at hmem
    exact eq_space_of_mem_collapse hmem (hg c hc)

/-- **The content decides.** The cleaned text is one of the four, and the length is what it says. -/
theorem exists_content (text : Text) :
    ∃ a, HasContent (clean text) a ∧ ofText text = a.result := by
  by_cases hempty : text.trim = []
  · exact ⟨.nothing, .nothing (clean_eq_nil_iff.2 hempty), by rw [ofText, if_pos hempty]; rfl⟩
  have hne : clean text ≠ [] := fun h => hempty (clean_eq_nil_iff.1 h)
  rw [ofText, if_neg hempty]
  obtain hno | ⟨n, p, hclean, hp⟩ := none_or_longestEnd suffixes_pairwise (clean text)
  · rw [LengthUnit.split_of_noSuffix (trim_clean text) hno, ofParts]
    by_cases hsign : (clean text).any isExpressionSign = true
    · rw [if_pos hsign]
      exact ⟨_, .expression hno (List.any_eq_true.1 hsign), measure_eq_result _ _⟩
    · rw [if_neg hsign]
      exact ⟨_, .bareNumber hne hno (by simpa using hsign), rfl⟩
  · have htrim := trim_clean text
    have hsome := hp
    rw [hclean] at htrim hsome
    rw [hclean, LengthUnit.split_of_longestSuffix htrim hsome, ofParts]
    by_cases hn : n = []
    · subst hn
      exact ⟨_, .unitAlone hp.mem rfl, rfl⟩
    · obtain ⟨hnumber, hlast, g, hg, hparts⟩ := exists_number_of_clean hclean hn
      refine ⟨_, .quantity hsome hnumber hlast hg (by rw [← hparts]), ?_⟩
      rw [if_neg hnumber, measure_eq_result]

theorem admitted_of_number {c : Char} (h : c.isDigit = true ∨ c = '.' ∨ c = ' ') :
    isAdmitted c = true ∧ isExpressionSign c = false := by
  obtain hdigit | rfl | rfl := h
  · refine ⟨by rw [isAdmitted, hdigit]; rfl, Bool.eq_false_iff.mpr fun hsign => ?_⟩
    have all : ['+', '-', '*', '/', '(', ')'].all (fun c => !c.isDigit) = true := by decide
    have hnot := List.all_eq_true.1 all c (List.contains_iff_mem.1 hsign)
    rw [hdigit] at hnot
    cases hnot
  · decide
  · decide

theorem HasContent.of_number {cs : Text} (hcs : ∀ c ∈ cs, c.isDigit = true ∨ c = '.' ∨ c = ' ')
    {a : Content} (h : HasContent cs a) : a = .nothing ∨ a = .bareNumber := by
  have hno : NoSuffix cs :=
    LengthUnit.noSuffix_of_admitted fun c hc => (admitted_of_number (hcs c hc)).1
  cases h with
  | nothing => exact .inl rfl
  | unitAlone hp h => exact absurd (h ▸ List.suffix_rfl) (hno _ hp)
  | bareNumber => exact .inr rfl
  | quantity hp => exact absurd hp.ends (hno _ hp.mem)
  | expression _ h =>
    obtain ⟨c, hc, hsign⟩ := h
    rw [(admitted_of_number (hcs c hc)).2] at hsign
    cases hsign

/-- **No unit is guessed.** Let a text be in lower case with plain marks, trimmed and with one space
between words. It is nothing, a suffix, a number without suffix, operator and parenthesis, or a
number with its longest suffix or, in an expression, without one. It is exactly one of these, in one
way, and that decides the length. So digits, points and spaces alone are never converted, and texts
that are cleaned to the same are the same length. -/
theorem ofText_content (text : Text) :
    clean text = collapse (trim (text.lowercase.map plainMark)) ∧
    (∃! a, HasContent (clean text) a) ∧
    (∀ a, HasContent (clean text) a → ofText text = a.result) ∧
    ((∀ c ∈ clean text, c.isDigit = true ∨ c = '.' ∨ c = ' ') → ∀ l, ofText text ≠ .ok l) ∧
    ∀ text', clean text' = clean text → ofText text' = ofText text := by
  have hdecides {text : Text} {a : Content} (ha : HasContent (clean text) a) :
      ofText text = a.result := by
    obtain ⟨b, hb, hresult⟩ := exists_content text
    rw [hresult, ha.unique hb]
  obtain ⟨a, ha, hresult⟩ := exists_content text
  refine ⟨clean_eq_collapse_trim text, ⟨a, ha, fun b hb => hb.unique ha⟩, fun _ => hdecides,
    fun hnumber l hl => ?_, fun text' hclean => ?_⟩
  · rw [hresult] at hl
    obtain rfl | rfl := ha.of_number hnumber <;> cases hl
  · rw [hresult]
    exact hdecides (hclean ▸ ha)

/-- `3  MM` ends with two suffixes and is a number of millimetres; ` In` is a unit alone, `2.5` is
never converted, and `1″` is cleaned to what `1" ` is. -/
theorem ofText_content_overlap :
    ofText ['3', ' ', ' ', 'M', 'M'] = (Content.quantity ['3'] .millimetre).result ∧
    ofText [' ', 'I', 'n'] = .error (.missingNumber .inch) ∧
    (∀ l, ofText ['2', '.', '5'] ≠ .ok l) ∧
    ofText ['1', '″'] = ofText ['1', '"', ' '] := by
  obtain ⟨-, -, hquantity, -⟩ := ofText_content ['3', ' ', ' ', 'M', 'M']
  obtain ⟨-, -, halone, -⟩ := ofText_content [' ', 'I', 'n']
  obtain ⟨-, -, -, hnumber, -⟩ := ofText_content ['2', '.', '5']
  obtain ⟨-, -, -, -, hsame⟩ := ofText_content ['1', '"', ' ']
  have hmillimetres : HasContent (clean ['3', ' ', ' ', 'M', 'M'])
      (.quantity ['3'] .millimetre) := by
    have hclean : clean ['3', ' ', ' ', 'M', 'M'] = ['3', ' ', 'm', 'm'] := by decide +kernel
    rw [hclean]
    refine .quantity (n := ['3']) (g := [' ']) (p := (['m', 'm'], .millimetre)) ?_ ?_ ?_ ?_ rfl
    · exact ⟨by decide, by decide, by decide⟩
    · exact List.cons_ne_nil _ _
    · decide
    · exact List.forall_mem_singleton.2 rfl
  have hinch : HasContent (clean [' ', 'I', 'n']) (.unitAlone .inch) := by
    have hclean : clean [' ', 'I', 'n'] = ['i', 'n'] := by decide +kernel
    rw [hclean]
    exact .unitAlone (p := (['i', 'n'], .inch)) (by decide) rfl
  have hbare : clean ['2', '.', '5'] = ['2', '.', '5'] := by decide +kernel
  have hsigns : ∀ c ∈ clean ['2', '.', '5'], c.isDigit = true ∨ c = '.' ∨ c = ' ' := by
    rw [hbare]
    simp
  exact ⟨hquantity _ hmillimetres, halone _ hinch, hnumber hsigns, hsame _ (by decide +kernel)⟩

end ExactLength.Length
