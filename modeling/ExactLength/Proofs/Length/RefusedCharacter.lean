import ExactLength.Proofs.Length.Suffix
import ExactLength.Proofs.Text.Squeeze
import ExactLength.Proofs.Token.Alphabet

/-!
# The refused character of a length

A length with a refused character is refused at the first one that was typed. The character is
named in lower case and with a plain mark. Its position is the one in the cleaned text, where the
blanks in front are gone and each run of blanks is one space.

**Deviation.** Positions are promised in the text as it was typed. The cleaned text is shorter: in
`  1 + a"` the letter is reported at position 4, where the text has a plus sign.

Results:
* `exists_lowercaseChar_refused`: no refused character has an admitted lower case.
* `Text.exists_squeeze_append`: squeezing keeps a character that is no blank apart.
* `Length.clean_refused`: cleaning keeps the first refused character.
* `Length.ofText_refused`: the character and the position that are reported.
-/

namespace ExactLength

open Text

/-! ## Characters -/

theorem toNat_of_admitted {c : Char} (h : isAdmitted c = true) :
    c.toNat ≤ 0x40 ∨ c.toNat = 0x85 ∨ c.toNat = 0xA0 ∨ c.toNat = 0x1680 ∨
      (0x2000 ≤ c.toNat ∧ c.toNat ≤ 0x205F) ∨ c.toNat = 0x3000 := by
  simp only [isAdmitted, Bool.or_eq_true] at h
  obtain (h | h) | h := h
  · obtain ⟨-, hle⟩ := Char.isDigit_iff_toNat.1 h
    exact .inl (Nat.le_trans hle (by decide))
  · simp only [isBlank, Bool.or_eq_true, Bool.and_eq_true, decide_eq_true_eq, beq_iff_eq] at h
    omega
  · have all : ['.', '+', '-', '*', '/', '(', ')'].all (·.toNat ≤ 0x40) = true := by decide
    exact .inl (of_decide_eq_true (List.all_eq_true.1 all c (List.contains_iff_mem.1 h)))

/-- The numbers between them. -/
def refusedGaps : List (Int × Int) :=
  [(0x41, 0x84), (0xA1, 0x167F), (0x1681, 0x1FFF), (0x2060, 0x2FFF), (0x3001, 0x10FFFF)]

/-- No character with a lower case of its own has an admitted one. -/
theorem not_isAdmitted_of_contains {r : CaseRange} (hr : r ∈ caseRanges) {n : Nat}
    (hn : r.contains n = true) : isAdmitted (Char.ofNat (n + r.shift).toNat) = false := by
  have all : caseRanges.all (fun r => refusedGaps.any fun g =>
      g.1 ≤ r.first + r.shift && r.last + r.shift ≤ g.2) = true := by
    decide +kernel
  obtain ⟨g, hg, hgap⟩ := List.any_eq_true.1 (List.all_eq_true.1 all r hr)
  simp only [CaseRange.contains, Bool.and_eq_true, decide_eq_true_eq] at hn hgap
  have hnumber (m : Nat) : (Char.ofNat m).toNat = m ∨ (Char.ofNat m) = '\x00' := by
    by_cases hm : m.isValidChar
    · have hchar : Char.ofNat m = Char.ofNatAux m hm := dif_pos hm
      exact .inl (congrArg Char.toNat hchar)
    · exact .inr (dif_neg hm)
  by_contra h
  have hadmitted := toNat_of_admitted (Bool.not_eq_false _ ▸ h)
  obtain hm | hm := hnumber (n + r.shift).toNat
  · rw [hm] at hadmitted
    simp only [refusedGaps, List.mem_cons, List.not_mem_nil, or_false] at hg
    obtain rfl | rfl | rfl | rfl | rfl := hg <;> simp only at hgap <;> omega
  · rw [hm] at h
    exact h rfl

/-- Lower case makes no character of expressions from another one. -/
theorem exists_lowercaseChar_refused {c : Char} (h : isAdmitted c = false) :
    ∃ d ds, lowercaseChar c = d :: ds ∧ isAdmitted d = false := by
  unfold lowercaseChar
  split
  · exact ⟨'i', ['\u0307'], rfl, rfl⟩
  · split
    · next r hr =>
      have hcontains : r.contains c.toNat = true := by simpa using List.find?_some hr
      exact ⟨_, [], rfl, not_isAdmitted_of_contains (List.mem_of_find?_eq_some hr) hcontains⟩
    · exact ⟨c, [], rfl, h⟩

namespace Length

/-- What cleaning makes of a character that is no blank: its lower case, with plain marks. -/
def cleanChar (c : Char) : Text := (lowercaseChar c).map plainMark

theorem cleanChar_of_admitted {c : Char} (h : isAdmitted c = true) : cleanChar c = [c] := by
  rw [cleanChar, lowercaseChar_of_admitted h, List.map_singleton, plainMark_of_admitted h]

theorem exists_cleanChar_refused {c : Char} (h : isAdmitted c = false) :
    ∃ d ds, cleanChar c = d :: ds ∧ isAdmitted d = false := by
  obtain ⟨d, ds, hlower, hd⟩ := exists_lowercaseChar_refused h
  refine ⟨plainMark d, ds.map plainMark, by rw [cleanChar, hlower, List.map_cons], ?_⟩
  unfold plainMark
  split
  · rfl
  · exact hd

end Length

theorem not_isBlank_of_refused {c : Char} (h : isAdmitted c = false) : isBlank c = false :=
  (not_isAdmitted_iff.mp h).1

/-! ## Cuts at a character that is no blank -/

namespace Text

variable {c : Char}

theorem skipBlanks_append_cons (hc : isBlank c = false) (a rest : Text) :
    skipBlanks (a ++ c :: rest) = skipBlanks a ++ c :: rest := by
  induction a with
  | nil => exact skipBlanks_cons rest hc
  | cons d a ih =>
    by_cases hd : isBlank d = true
    · rw [List.cons_append, skipBlanks_blank hd, skipBlanks_blank hd, ih]
    · have hd : isBlank d = false := Bool.eq_false_iff.mpr hd
      rw [List.cons_append, skipBlanks_cons _ hd, skipBlanks_cons _ hd, List.cons_append]

/-- **Squeezing** keeps such a character, and what comes of the text in front of it does not depend
on the rest. -/
theorem exists_squeeze_append {a : Text} (ha : a.Admitted) :
    ∃ s : Text, s.Admitted ∧ s.length ≤ a.length ∧
      ∀ c rest, isBlank c = false → squeeze (a ++ c :: rest) = s ++ c :: squeeze rest := by
  induction a with
  | nil => exact ⟨[], admitted_nil, Nat.le_refl 0, fun c rest hc => squeeze_cons hc rest⟩
  | cons d a ih =>
    obtain ⟨hd, ha⟩ := List.forall_mem_cons.1 ha
    obtain ⟨s, hs, hlength, hsqueeze⟩ := ih ha
    by_cases hblank : isBlank d = true
    · -- of a run of blanks only the last one is kept
      by_cases hends : a ≠ [] ∧ EndsWord a
      · refine ⟨s, hs, Nat.le_succ_of_le hlength, fun c rest hc => ?_⟩
        rw [List.cons_append, squeeze_blank hblank, if_pos (hends.2.append hends.1 _),
          hsqueeze c rest hc]
      · refine ⟨' ' :: s, hs.cons (by decide), Nat.succ_le_succ hlength, fun c rest hc => ?_⟩
        have hword : ¬ EndsWord (a ++ c :: rest) := by
          cases a with
          | nil => simp [endsWord_cons, hc]
          | cons e a => simpa [endsWord_cons] using hends
        rw [List.cons_append, squeeze_blank hblank, if_neg hword, hsqueeze c rest hc,
          List.cons_append]
    · have hblank : isBlank d = false := Bool.eq_false_iff.mpr hblank
      refine ⟨d :: s, hs.cons hd, Nat.succ_le_succ hlength, fun c rest hc => ?_⟩
      rw [List.cons_append, squeeze_cons hblank, hsqueeze c rest hc, List.cons_append]

end Text

/-! ## The first refused character -/

theorem exists_of_firstRefused {cs : Text} {c : Char} {pos start : Nat}
    (h : firstRefused start cs = some (c, pos)) :
    ∃ before after, cs = before ++ c :: after ∧ before.Admitted ∧ isAdmitted c = false ∧
      pos = start + before.length := by
  induction cs generalizing start with
  | nil => cases h
  | cons d cs ih =>
    rw [firstRefused] at h
    split at h
    · next hd =>
      obtain ⟨before, after, rfl, hbefore, hc, rfl⟩ := ih h
      refine ⟨d :: before, after, rfl, hbefore.cons hd, hc, ?_⟩
      rw [List.length_cons]
      omega
    · next hd =>
      cases h
      exact ⟨[], cs, rfl, admitted_nil, Bool.eq_false_iff.2 hd, rfl⟩

theorem firstRefused_unique {a b a' b' : Text} {c c' : Char} (ha : a.Admitted) (ha' : a'.Admitted)
    (hc : isAdmitted c = false) (hc' : isAdmitted c' = false)
    (h : a ++ c :: b = a' ++ c' :: b') : c = c' ∧ a.length = a'.length := by
  have hfound := firstRefused_append ha hc b 0
  rw [h, firstRefused_append ha' hc' b' 0] at hfound
  simp only [Option.some.injEq, Prod.mk.injEq] at hfound
  exact ⟨hfound.1.symm, by omega⟩

/-- An evaluation that refuses a character refuses the first one that is not admitted. -/
theorem firstRefused_of_explain {cs : Text} {c : Char} {pos : Nat}
    (h : explain cs = .error (.invalidCharacter c pos)) : firstRefused 0 cs = some (c, pos) := by
  cases hfirst : firstRefused 0 cs with
  | none =>
    have hadmitted := firstRefused_eq_none_iff.1 hfirst
    rw [explain_admitted hadmitted] at h
    exact absurd h (explainExpanded_ne_invalidCharacter (Text.Admitted.expandMixed hadmitted) c pos)
  | some p =>
    obtain ⟨d, pos'⟩ := p
    rw [explain_refused hfirst] at h
    cases h
    rfl

namespace Length

/-- **Cleaning** keeps the first refused character, in lower case and with a plain mark, behind the
words that were in front of it. -/
theorem clean_refused {before : Text} {c : Char} (hbefore : before.Admitted)
    (hc : isAdmitted c = false) (after : Text) :
    ∃ s d rest, clean (before ++ c :: after) = s ++ d :: rest ∧ s.Admitted ∧
      isAdmitted d = false ∧ (cleanChar c).head? = some d ∧ s.length ≤ before.length ∧
      Text.collapse (before ++ [c]) = s ++ [c] := by
  have hblank := not_isBlank_of_refused hc
  obtain ⟨d, ds, hclean, hd⟩ := exists_cleanChar_refused hc
  have hskip : before.skipBlanks.Admitted := fun b hb =>
    hbefore b ((List.dropWhile_suffix _).mem hb)
  have hlength : before.skipBlanks.length ≤ before.length := length_dropWhile_le _ before
  obtain ⟨s, hs, hsl, hsqueeze⟩ := exists_squeeze_append hskip
  obtain ⟨rest, hrest⟩ := exists_trimEnd_append hblank before.skipBlanks after
  have htrim : trim (before ++ c :: after) = before.skipBlanks ++ c :: rest := by
    rw [trim, ← skipBlanks, skipBlanks_append_cons hblank, hrest]
  have hcleaned : (trim (before ++ c :: after)).lowercase.map plainMark =
      before.skipBlanks ++ d :: (ds ++ (lowercase rest).map plainMark) := by
    have hbefore' := hskip.map_plainMark_lowercase
    rw [lowercase] at hbefore'
    rw [htrim, lowercase, List.flatMap_append, List.flatMap_cons, List.map_append, List.map_append,
      hbefore', ← cleanChar, hclean]
    rfl
  refine ⟨s, d, squeeze (ds ++ (lowercase rest).map plainMark), ?_, hs, hd, by rw [hclean]; rfl,
    Nat.le_trans hsl hlength, ?_⟩
  · have hd' := not_isBlank_of_refused hd
    rw [clean, hcleaned, ← skipBlanks_append_cons hd', collapse, words_skipBlanks, ← collapse,
      collapse_eq_squeeze, skipBlanks_append_cons hd', hsqueeze _ _ hd']
  · rw [collapse_eq_squeeze, skipBlanks_append_cons hblank, hsqueeze c [] hblank]
    rfl

theorem split_clean_starts (text : Text) : (LengthUnit.split (clean text)).1 <+: clean text := by
  have htrim := trim_clean text
  obtain hno | ⟨n, p, hclean, hp⟩ := none_or_longestEnd LengthUnit.suffixes_pairwise (clean text)
  · rw [LengthUnit.split_of_noSuffix htrim hno]
  · rw [hclean] at htrim hp ⊢
    rw [LengthUnit.split_of_longestSuffix htrim hp]
    exact (dropTrailing_starts isBlank n).trans (List.prefix_append n p.1)

/-- A length of admitted characters is cleaned to admitted characters. -/
theorem admitted_clean {text : Text} (h : text.Admitted) : (clean text).Admitted := by
  rw [clean_admitted h]
  exact Text.Admitted.collapse h

/-- What has no value is the number in front of the unit. -/
theorem explain_of_ofText_eq_error {text : Text} {e : EvalError}
    (h : ofText text = .error (.calculation e)) :
    explain (LengthUnit.split (clean text)).1 = .error e := by
  have hmeasure {number : Text} {unit : LengthUnit}
      (h : measure number unit = .error (.calculation e)) : explain number = .error e := by
    rw [measure] at h
    split at h <;> cases h
    assumption
  unfold ofText ofParts at h
  split at h
  · cases h
  · split at h
    · split at h
      · cases h
      · exact hmeasure h
    · split at h
      · exact hmeasure h
      · cases h

/-- **The refused character.** It is the first refused character that was typed, named as cleaning
writes it. Its position counts what stands in front of it once the blanks in front are gone and each
run of blanks is one space; at that position the typed text has the character exactly when nothing
was dropped. -/
theorem ofText_refused {text : Text} {ch : Char} {pos : Nat}
    (h : ofText text = .error (.calculation (.invalidCharacter ch pos))) :
    ∃ before c after, text = before ++ c :: after ∧ (∀ b ∈ before, isAdmitted b = true) ∧
      isAdmitted c = false ∧ (cleanChar c).head? = some ch ∧
      pos + 1 = (Text.collapse (before ++ [c])).length ∧
      ((∃ d, text[pos]? = some d ∧ ch ∈ cleanChar d) ↔ pos = before.length) := by
  have hfound := firstRefused_of_explain (explain_of_ofText_eq_error h)
  obtain ⟨pre, post, hnumber, hpre, hch, hpos⟩ := exists_of_firstRefused hfound
  obtain ⟨tail, htail⟩ := split_clean_starts text
  rw [hnumber, List.append_assoc, List.cons_append] at htail
  obtain ⟨before, c, after, rfl, hbefore, hc⟩ : ∃ before c after, text = before ++ c :: after ∧
      Text.Admitted before ∧ isAdmitted c = false := by
    cases hfirst : firstRefused 0 text with
    | none =>
      have hadmitted := admitted_clean (firstRefused_eq_none_iff.1 hfirst) ch
      rw [← htail, hch] at hadmitted
      exact absurd (hadmitted (List.mem_append_right _ List.mem_cons_self)) Bool.false_ne_true
    | some p =>
      obtain ⟨before, after, htext, hbefore, hc, -⟩ := exists_of_firstRefused hfirst
      exact ⟨before, p.1, after, htext, hbefore, hc⟩
  obtain ⟨s, d, rest, hclean, hs, hd, hhead, hle, hcollapse⟩ :=
    clean_refused hbefore hc after
  rw [hclean] at htail
  obtain ⟨rfl, hlength⟩ := firstRefused_unique hpre hs hch hd htail
  refine ⟨before, c, after, rfl, hbefore, hc, hhead, ?_, fun ⟨e, he, hmem⟩ => ?_, fun hbehind => ?_⟩
  · rw [hcollapse, List.length_append, List.length_singleton, ← hlength, hpos, Nat.zero_add]
  · -- what stands further to the front is admitted, and cleaning keeps it
    by_contra hne
    have hlt : pos < before.length := by omega
    rw [List.getElem?_append_left hlt] at he
    have hadmitted := hbefore e (List.mem_of_getElem? he)
    rw [cleanChar_of_admitted hadmitted, List.mem_singleton] at hmem
    rw [← hmem, hch] at hadmitted
    cases hadmitted
  · refine ⟨c, ?_, List.mem_of_head? hhead⟩
    rw [hbehind, List.getElem?_append_right (Nat.le_refl _), Nat.sub_self]
    rfl

/-- In `  1 + a"` the letter is at position 6, and reported at position 4. -/
theorem ofText_refused_indented :
    ofText (.ofString "  1 + a\"") = .error (.calculation (.invalidCharacter 'a' 4)) ∧
      ∃ before c after, Text.ofString "  1 + a\"" = before ++ c :: after ∧
        (∀ b ∈ before, isAdmitted b = true) ∧ isAdmitted c = false ∧
        (cleanChar c).head? = some 'a' ∧ 4 + 1 = (Text.collapse (before ++ [c])).length ∧
        ((∃ d, (Text.ofString "  1 + a\"")[4]? = some d ∧ 'a' ∈ cleanChar d) ↔
          4 = before.length) := by
  have h : ofText (.ofString "  1 + a\"") = .error (.calculation (.invalidCharacter 'a' 4)) := by
    decide +kernel
  exact ⟨h, ofText_refused h⟩

/-- The reported position is not that of the typed text, in `  1 + a"` for one. -/
theorem not_ofText_refused_typed : ¬ ∀ (text : Text) (ch : Char) (pos : Nat),
    ofText text = .error (.calculation (.invalidCharacter ch pos)) →
      ∃ d, text[pos]? = some d ∧ ch ∈ cleanChar d := by
  intro h
  obtain ⟨d, hd, hmem⟩ := h (.ofString "  1 + a\"") 'a' 4 (by decide +kernel)
  have hplus : (Text.ofString "  1 + a\"")[4]? = some '+' := by decide +kernel
  rw [hplus] at hd
  cases hd
  exact absurd hmem (by decide +kernel)

end Length

end ExactLength
