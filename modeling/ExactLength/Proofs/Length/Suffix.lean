import ExactLength.Length.Basic
import ExactLength.Proofs.Surface.Basic
import ExactLength.Proofs.Text.Ends

/-!
# Unit suffixes

A text of admitted characters with a unit behind it is a length in that unit. Cleaning changes
nothing but the width of blanks in the number. No admitted character occurs in a suffix, so the
suffixes that end such a text are those that end the unit, and of these the table has the whole unit
first: `cm` is never taken for `m`.

Results:
* `clean_append`: cleaning keeps a number and the word behind it apart.
* `LengthUnit.split_of_longestSuffix`, `LengthUnit.split_of_noSuffix`: the longest suffix is the one
  that is split off.
* `LengthUnit.longestSuffix_append`: a suffix behind a number is the longest that ends the whole.
* `ofText_append_suffix`, `ofText_blank_append_suffix`: a number with a suffix is that number of the
  unit, and nothing with a suffix is no length.
* `ofText_admitted`: what a text without a suffix is.
-/

namespace ExactLength

open Text

/-! ## Characters -/

theorem lowercaseChar_of_isDigit {c : Char} (h : c.isDigit = true) : lowercaseChar c = [c] := by
  have all : ∀ n : Fin 58, (Char.ofNat n).isDigit = true →
      lowercaseChar (Char.ofNat n) = [Char.ofNat n] := by
    decide +kernel
  have hlt : c.toNat < 58 := by
    simp only [Char.isDigit, Bool.and_eq_true, decide_eq_true_eq] at h
    exact Nat.lt_succ_of_le h.2
  have hc := all ⟨c.toNat, hlt⟩
  simp only [Char.ofNat_toNat] at hc
  exact hc h

theorem lowercaseChar_of_admitted {c : Char} (h : isAdmitted c = true) : lowercaseChar c = [c] := by
  have all : ['.', '+', '-', '*', '/', '(', ')'].all (fun c => lowercaseChar c == [c]) = true := by
    decide +kernel
  simp only [isAdmitted, Bool.or_eq_true, List.contains_iff_mem] at h
  obtain (h | h) | h := h
  · exact lowercaseChar_of_isDigit h
  · exact lowercase_blank h
  · exact eq_of_beq (List.all_eq_true.1 all c h)

theorem plainMark_of_admitted {c : Char} (h : isAdmitted c = true) : Length.plainMark c = c := by
  rw [Length.plainMark, if_neg]
  rintro (rfl | rfl | rfl) <;> exact absurd h (by decide)

theorem Text.Admitted.map_plainMark_lowercase {cs : Text} (h : cs.Admitted) :
    cs.lowercase.map Length.plainMark = cs := by
  induction cs with
  | nil => rfl
  | cons c cs ih =>
    obtain ⟨hc, hcs⟩ := List.forall_mem_cons.1 h
    have ih := ih hcs
    rw [lowercase] at ih ⊢
    rw [List.flatMap_cons, lowercaseChar_of_admitted hc, List.map_append, ih, List.map_singleton,
      plainMark_of_admitted hc]
    rfl

theorem Text.Admitted.collapse {cs : Text} (h : cs.Admitted) : cs.collapse.Admitted := by
  induction cs using word_induction with
  | nil =>
    rw [Text.collapse, words_nil]
    exact admitted_nil
  | blank c cs hc ih =>
    rw [collapse_blank hc]
    exact ih (List.forall_mem_cons.1 h).2
  | word w cs hw hends ih =>
    obtain ⟨hword, hrest⟩ := List.forall_mem_append.1 h
    by_cases hcs : cs.Blank
    · rw [hw.collapse_append_blank hends hcs]
      exact hword
    · rw [hw.collapse_append hends hcs]
      exact Admitted.append hword ((ih hrest).cons rfl)

/-! ## Suffixes -/

namespace LengthUnit

theorem not_isAdmitted_of_mem {p : Text × LengthUnit} (hp : p ∈ suffixes) {c : Char}
    (hc : c ∈ p.1) : isAdmitted c = false := by
  have all : suffixes.all (fun p => p.1.all (!isAdmitted ·)) = true := by decide
  simpa using List.all_eq_true.1 (List.all_eq_true.1 all p hp) c hc

theorem isWord_of_mem {p : Text × LengthUnit} (hp : p ∈ suffixes) : IsWord p.1 := by
  have hne : ∀ p ∈ suffixes, p.1 ≠ [] := by decide
  refine ⟨hne p hp, fun c hc => ?_⟩
  cases hb : isBlank c with
  | false => rfl
  | true =>
    have hadmitted := isAdmitted_of_isBlank hb
    rw [not_isAdmitted_of_mem hp hc] at hadmitted
    cases hadmitted

/-- No suffix of the table ends the text. -/
def NoSuffix (cs : Text) : Prop := ∀ p ∈ suffixes, ¬ p.1 <:+ cs

theorem noSuffix_of_admitted {cs : Text} (h : cs.Admitted) : NoSuffix cs := by
  intro p hp hends
  obtain ⟨c, w, hw⟩ := List.exists_cons_of_ne_nil (isWord_of_mem hp).ne_nil
  have hmem : c ∈ p.1 := hw ▸ List.mem_cons_self
  have hadmitted := h c (hends.mem hmem)
  rw [not_isAdmitted_of_mem hp hmem] at hadmitted
  cases hadmitted

/-- **The table.** No suffix ends one further down. -/
theorem suffixes_pairwise : suffixes.Pairwise fun p q => ¬ p.1 <:+ q.1 := by
  decide

/-- The longest suffix of the table that ends a text. -/
abbrev LongestSuffix (cs : Text) (p : Text × LengthUnit) : Prop :=
  LongestEnd Prod.fst suffixes cs p

/-- Behind admitted characters there is no longer suffix than the one that was written. -/
theorem longestSuffix_append {s : Text} (hs : s.Admitted) {p : Text × LengthUnit}
    (hp : p ∈ suffixes) : LongestSuffix (s ++ p.1) p := by
  refine ⟨hp, List.suffix_append s p.1, fun q hq ⟨rest, hrest⟩ => ?_⟩
  obtain ⟨as, rfl, hqp⟩ | ⟨bs, rfl, hpq⟩ := List.append_eq_append_iff.1 hrest
  · -- what the suffix would take from the front is not admitted
    have has : as = [] := by
      refine List.eq_nil_iff_forall_not_mem.2 fun c hc => ?_
      have hadmitted := hs c (List.mem_append_right rest hc)
      rw [not_isAdmitted_of_mem hq (hqp ▸ List.mem_append_left p.1 hc)] at hadmitted
      cases hadmitted
    rw [hqp, has]
    exact Nat.le_refl _
  · exact List.IsSuffix.length_le ⟨bs, hpq.symm⟩

/-- The longest suffix is split off, and the blanks in front of it go with it. -/
theorem split_of_longestSuffix {n : Text} {p : Text × LengthUnit}
    (htrim : (n ++ p.1).trim = n ++ p.1) (h : LongestSuffix (n ++ p.1) p) :
    split (n ++ p.1) = (trimEnd n, some p.2) := by
  have hfound : suffixes.findSome? (detach? (n ++ p.1)) = some (trimEnd n, p.2) :=
    h.findSome?_eq suffixes_pairwise (g := fun p n => (trimEnd n, p.2))
  rw [split, htrim, hfound]

theorem split_of_noSuffix {cs : Text} (htrim : cs.trim = cs) (h : NoSuffix cs) :
    split cs = (cs, none) := by
  have hnone : suffixes.findSome? (detach? cs) = none := findSome?_isSuffixOf?_eq_none_iff.2 h
  rw [split, htrim, hnone]

end LengthUnit

/-! ## Lengths -/

namespace Length

theorem trim_clean (text : Text) : (clean text).trim = clean text := trim_collapse _

/-- **Cleaning.** A number keeps its words, and the word behind it stays behind it. -/
theorem clean_append {number u v : Text} (hn : number.Admitted) (hne : ¬ number.Blank)
    (hu : u.IsWord) (huv : u.lowercase.map plainMark = v) (hv : v.IsWord) :
    ∃ g : Text, g.Blank ∧ clean (number ++ u) = number.collapse ++ g ++ v := by
  obtain ⟨g, hg, hcollapse⟩ := collapse_append_word (not_blank_skipBlanks hne) hv
  have hskip : number.skipBlanks.Admitted := fun c hc => hn c (List.dropWhile_suffix _ |>.mem hc)
  have hwords : number.skipBlanks.collapse = number.collapse := by
    rw [collapse, words_skipBlanks, collapse]
  refine ⟨g, hg, ?_⟩
  rw [clean, trim_append_word hne hu, lowercase, List.flatMap_append, List.map_append, ← lowercase,
    ← lowercase, hskip.map_plainMark_lowercase, huv, hcollapse, hwords]

/-- A suffix at the end is split off with the blanks in front of it. -/
theorem split_append_suffix {number g : Text} (hn : number.collapse.Admitted)
    (hne : ¬ number.Blank) (hg : g.Blank) {p : Text × LengthUnit}
    (hp : p ∈ LengthUnit.suffixes) :
    LengthUnit.split (number.collapse ++ g ++ p.1) = (number.collapse, some p.2) := by
  obtain ⟨-, t, d, hend, hd⟩ := exists_collapse_eq hne
  have hnumber : trimEnd (number.collapse ++ g) = number.collapse := by
    rw [hend, trimEnd_append_blank hd hg]
  have htrim := trim_collapse_append_word hne (LengthUnit.isWord_of_mem hp) (g := g)
  rw [LengthUnit.split_of_longestSuffix htrim
    (LengthUnit.longestSuffix_append (hn.append hg.admitted) hp), hnumber]

theorem exists_measure {number : Text} {value : Rat} (h : evaluate number = .ok value)
    (unit : LengthUnit) : ∃ working, measure number unit = .ok ⟨value, unit, working⟩ := by
  rw [evaluate] at h
  rw [measure]
  cases hexplain : explain number with
  | error e =>
    rw [hexplain] at h
    cases h
  | ok p =>
    obtain ⟨v, working⟩ := p
    rw [hexplain] at h
    cases h
    exact ⟨working, rfl⟩

theorem measure_of_error {number : Text} {e : EvalError} (h : evaluate number = .error e)
    (unit : LengthUnit) : measure number unit = .error (.calculation e) := by
  rw [evaluate] at h
  rw [measure]
  cases hexplain : explain number with
  | error e' =>
    rw [hexplain] at h
    cases h
    rfl
  | ok p =>
    rw [hexplain] at h
    cases h

theorem isWord_of_suffix {u : Text} {p : Text × LengthUnit} (hp : p ∈ LengthUnit.suffixes)
    (hup : u.lowercase.map plainMark = p.1) : u.IsWord := by
  refine ⟨?_, fun c hc => ?_⟩
  · rintro rfl
    exact (LengthUnit.isWord_of_mem hp).ne_nil hup.symm
  · cases hb : isBlank c with
    | false => rfl
    | true =>
      have hadmitted := isAdmitted_of_isBlank hb
      have hlower : c ∈ u.lowercase := by
        refine List.mem_flatMap.2 ⟨c, hc, ?_⟩
        rw [lowercaseChar_of_admitted hadmitted]
        exact List.mem_singleton_self c
      have hmem : c ∈ p.1 := by
        rw [← hup]
        exact List.mem_map.2 ⟨c, hlower, plainMark_of_admitted hadmitted⟩
      rw [LengthUnit.not_isAdmitted_of_mem hp hmem] at hadmitted
      cases hadmitted

/-- **Suffixes.** A number with a suffix behind it, in whatever case or style, is that number of the
unit that the suffix names. -/
theorem ofText_append_suffix {number u : Text} {p : Text × LengthUnit} (hn : number.Admitted)
    (hne : ¬ number.Blank) (hp : p ∈ LengthUnit.suffixes)
    (hup : u.lowercase.map plainMark = p.1) :
    ofText (number ++ u) = measure number.collapse p.2 := by
  have hu := isWord_of_suffix hp hup
  obtain ⟨g, hg, hclean⟩ := clean_append hn hne hu hup (LengthUnit.isWord_of_mem hp)
  have htrim : (number ++ u).trim ≠ [] := by
    rw [trim_append_word hne hu]
    exact List.append_ne_nil_of_right_ne_nil _ hu.ne_nil
  have hnumber : number.collapse ≠ [] := by
    obtain ⟨⟨c, s, hstart, -⟩, -⟩ := exists_collapse_eq hne
    rw [hstart]
    exact List.cons_ne_nil c s
  refine ofText_of_split htrim ?_ hnumber
  rw [hclean, split_append_suffix (Admitted.collapse hn) hne hg hp]

/-- **Nothing to measure.** A suffix without a number in front of it is no length. -/
theorem ofText_blank_append_suffix {g u : Text} {p : Text × LengthUnit} (hg : g.Blank)
    (hp : p ∈ LengthUnit.suffixes) (hup : u.lowercase.map plainMark = p.1) :
    ofText (g ++ u) = .error (.missingNumber p.2) := by
  have hu := isWord_of_suffix hp hup
  have hword := LengthUnit.isWord_of_mem hp
  have htrim : (g ++ u).trim = u := by
    rw [trim, List.dropWhile_append_of_pos hg, ← trim, hu.trim_eq]
  have hclean : clean (g ++ u) = p.1 := by rw [clean, htrim, hup, hword.collapse_eq]
  have hsplit : LengthUnit.split p.1 = ([], some p.2) :=
    LengthUnit.split_of_longestSuffix (n := []) hword.trim_eq
      (LengthUnit.longestSuffix_append admitted_nil hp)
  rw [ofText, htrim, if_neg hu.ne_nil, hclean, hsplit]
  rfl

/-- Cleaning changes nothing but the width of blanks in a text of admitted characters. -/
theorem clean_admitted {text : Text} (h : text.Admitted) : clean text = text.collapse := by
  have htrim : text.trim.Admitted := by
    intro c hc
    obtain ⟨g, -, hcs⟩ := exists_dropTrailing_append isBlank text.skipBlanks
    refine h c ((List.dropWhile_suffix isBlank).mem ?_)
    rw [← skipBlanks, hcs]
    exact List.mem_append_left g hc
  rw [clean, htrim.map_plainMark_lowercase, collapse, words_trim, collapse]

theorem split_collapse_admitted {text : Text} (h : text.Admitted) :
    LengthUnit.split text.collapse = (text.collapse, none) :=
  LengthUnit.split_of_noSuffix (trim_collapse text)
    (LengthUnit.noSuffix_of_admitted (Admitted.collapse h))

/-- **No suffix.** A text of admitted characters is empty, or an expression in inches, or a number
without a unit. -/
theorem ofText_admitted {text : Text} (h : text.Admitted) :
    ofText text = if text.Blank then .error .empty else ofParts text.collapse none := by
  simp only [ofText, trim_eq_nil_iff, clean_admitted h, split_collapse_admitted h]

/-- **Inch marks.** A number with an inch mark behind it is that number of inches. -/
theorem ofText_append_mark {number : Text} (hn : number.Admitted) (hne : ¬ number.Blank) :
    ofText (number ++ ['"']) = measure number.collapse .inch := by
  have hplain : (Text.lowercase ['"']).map plainMark = ['"'] := by decide +kernel
  exact ofText_append_suffix hn hne (p := (['"'], .inch)) (by decide) hplain

end Length

end ExactLength
