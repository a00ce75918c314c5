import ExactLength.MixedNumber

/-!
# Words

A text is taken apart into its words and put together again with one space between neighbours. What
is put together begins and ends with a word, and a word written behind a text is the last word of
both, by itself or as the end of a longer one.

Results:
* `IsWord.words_append`: the words of a text are read from left to right.
* `word_induction`: a text is empty, or begins with a blank or with a whole word.
* `collapse_append_word`: a word behind a text stays behind the collapsed text, with a space or
  without.
* `exists_collapse_eq`: a collapsed text has no blank at its ends.
-/

namespace ExactLength.Text

/-- At least one character, and no blank. -/
structure IsWord (w : Text) : Prop where
  ne_nil : w ≠ []
  notBlank : ∀ c ∈ w, isBlank c = false

/-- A word ends where this text starts. -/
def EndsWord (cs : Text) : Prop := ∀ c ∈ cs.head?, isBlank c = true

theorem endsWord_nil : EndsWord [] := fun _ h => by cases h

theorem endsWord_cons {c : Char} {cs : Text} : EndsWord (c :: cs) ↔ isBlank c = true := by
  simp [EndsWord]

instance : (cs : Text) → Decidable (EndsWord cs)
  | [] => .isTrue endsWord_nil
  | c :: _ => decidable_of_iff (isBlank c = true) endsWord_cons.symm

theorem EndsWord.append {cs : Text} (h : cs.EndsWord) (hne : cs ≠ []) (ds : Text) :
    EndsWord (cs ++ ds) := by
  obtain ⟨c, cs, rfl⟩ := List.exists_cons_of_ne_nil hne
  exact endsWord_cons.mpr (endsWord_cons.mp h)

theorem blank_nil : Blank [] := fun _ h => by cases h

theorem Blank.endsWord {g : Text} (hg : g.Blank) : EndsWord g :=
  fun c hc => hg c (List.mem_of_mem_head? hc)

theorem IsWord.not_blank {w : Text} (hw : w.IsWord) : ¬ w.Blank := by
  obtain ⟨c, w, rfl⟩ := List.exists_cons_of_ne_nil hw.ne_nil
  intro h
  have hc := hw.notBlank c List.mem_cons_self
  rw [h c List.mem_cons_self] at hc
  cases hc

theorem IsWord.cons {c : Char} {w : Text} (hw : w.IsWord) (hc : isBlank c = false) :
    IsWord (c :: w) :=
  ⟨List.cons_ne_nil c w, List.forall_mem_cons.2 ⟨hc, hw.notBlank⟩⟩

theorem IsWord.append {w v : Text} (hw : w.IsWord) (hv : v.IsWord) : IsWord (w ++ v) :=
  ⟨List.append_ne_nil_of_left_ne_nil hw.ne_nil v,
    List.forall_mem_append.2 ⟨hw.notBlank, hv.notBlank⟩⟩

theorem endsWord_dropWhile (cs : Text) : EndsWord (cs.dropWhile (!isBlank ·)) := by
  intro c hc
  have h := List.head?_dropWhile_not (!isBlank ·) cs
  rw [Option.mem_def.mp hc] at h
  simpa using h

/-! ## Reading words -/

theorem words_nil : words [] = [] := by
  rw [words]

theorem words_blank {c : Char} (hc : isBlank c = true) (cs : Text) :
    words (c :: cs) = words cs := by
  rw [words, if_pos hc]

theorem Blank.words_append {g : Text} (hg : g.Blank) (cs : Text) : words (g ++ cs) = words cs := by
  induction g with
  | nil => rfl
  | cons c g ih =>
    obtain ⟨hc, hg⟩ := List.forall_mem_cons.1 hg
    rw [List.cons_append, words_blank hc, ih hg]

theorem words_skipBlanks (cs : Text) : words cs.skipBlanks = words cs := by
  obtain ⟨g, hg, hcs⟩ := exists_blank_append cs
  have h := hg.words_append cs.skipBlanks
  rw [← hcs] at h
  exact h.symm

/-- A word is read up to its end. -/
theorem IsWord.words_append {w cs : Text} (hw : w.IsWord) (hcs : cs.EndsWord) :
    words (w ++ cs) = w :: words cs := by
  obtain ⟨c, w, rfl⟩ := List.exists_cons_of_ne_nil hw.ne_nil
  obtain ⟨hc, hw⟩ := List.forall_mem_cons.1 hw.notBlank
  have hnot : ∀ d ∈ w, (!isBlank d) = true := fun d hd => by rw [hw d hd]; rfl
  have htake : cs.takeWhile (!isBlank ·) = [] ∧ cs.dropWhile (!isBlank ·) = cs := by
    cases cs with
    | nil => exact ⟨rfl, rfl⟩
    | cons d cs => simp [endsWord_cons.mp hcs]
  rw [List.cons_append, words, hc, List.takeWhile_append_of_pos hnot,
    List.dropWhile_append_of_pos hnot, htake.1, htake.2, List.append_nil]
  rfl

theorem IsWord.words_eq {w : Text} (hw : w.IsWord) : words w = [w] := by
  have h := hw.words_append endsWord_nil
  rwa [List.append_nil, words_nil] at h

/-- **Induction over words.** A text is empty, or begins with a blank or with a whole word. -/
theorem word_induction {P : Text → Prop} (nil : P [])
    (blank : ∀ c cs, isBlank c = true → P cs → P (c :: cs))
    (word : ∀ w cs : Text, w.IsWord → cs.EndsWord → P cs → P (w ++ cs)) (cs : Text) : P cs := by
  fun_induction words cs with
  | case1 => exact nil
  | case2 c cs hc ih => exact blank c cs hc ih
  | case3 c cs hc ih =>
    have hw : IsWord (c :: cs.takeWhile (!isBlank ·)) := by
      refine ⟨List.cons_ne_nil _ _, List.forall_mem_cons.2 ⟨by simpa using hc, fun d hd => ?_⟩⟩
      have hd := List.all_eq_true.1 List.all_takeWhile d hd
      simpa using hd
    have h := word _ _ hw (endsWord_dropWhile cs) ih
    rwa [List.cons_append, List.takeWhile_append_dropWhile] at h

theorem words_append_blank (cs : Text) {g : Text} (hg : g.Blank) : words (cs ++ g) = words cs := by
  induction cs using word_induction with
  | nil =>
    have h := hg.words_append []
    rwa [List.append_nil] at h
  | blank c cs hc ih => rw [List.cons_append, words_blank hc, words_blank hc, ih]
  | word w cs hw hends ih =>
    have hends' : EndsWord (cs ++ g) := by
      cases cs with
      | nil => exact hg.endsWord
      | cons c cs => exact hends.append (List.cons_ne_nil c cs) g
    rw [List.append_assoc, hw.words_append hends', hw.words_append hends, ih]

/-! ## Collapsing -/

/-- A word is kept. -/
theorem IsWord.collapse_eq {w : Text} (hw : w.IsWord) : collapse w = w := by
  rw [collapse, hw.words_eq, List.intercalate_singleton]

theorem IsWord.collapse_append_blank {w g : Text} (hw : w.IsWord) (hends : g.EndsWord)
    (hg : g.Blank) : collapse (w ++ g) = w := by
  rw [collapse, hw.words_append hends, words_eq_nil_iff.mpr hg, List.intercalate_singleton]

theorem IsWord.collapse_append {w cs : Text} (hw : w.IsWord) (hends : cs.EndsWord)
    (hcs : ¬ cs.Blank) : collapse (w ++ cs) = w ++ ' ' :: collapse cs := by
  obtain ⟨v, vs, hv⟩ := List.exists_cons_of_ne_nil fun h => hcs (words_eq_nil_iff.mp h)
  rw [collapse, collapse, hw.words_append hends, hv, List.intercalate_cons_cons, List.append_assoc]
  rfl

theorem collapse_blank {c : Char} (hc : isBlank c = true) (cs : Text) :
    collapse (c :: cs) = collapse cs := by
  rw [collapse, words_blank hc, collapse]

theorem IsWord.collapse_pair {w v : Text} (hw : w.IsWord) (hv : v.IsWord) :
    collapse (w ++ ' ' :: v) = w ++ ' ' :: v := by
  have hspace : EndsWord (' ' :: v) := endsWord_cons.mpr rfl
  have hnot : ¬ Blank (' ' :: v) := fun h => hv.not_blank (List.forall_mem_cons.1 h).2
  rw [hw.collapse_append hspace hnot, collapse_blank rfl, hv.collapse_eq]

/-- **A word at the end.** A word written behind a text stays behind the collapsed text, with a
space in front of it or without. -/
theorem collapse_append_word {cs u : Text} (hcs : ¬ cs.Blank) (hu : u.IsWord) :
    ∃ g : Text, g.Blank ∧ collapse (cs ++ u) = collapse cs ++ g ++ u := by
  induction cs using word_induction with
  | nil => exact absurd blank_nil hcs
  | blank c cs hc ih =>
    have hrest : ¬ cs.Blank := fun h => hcs (List.forall_mem_cons.2 ⟨hc, h⟩)
    rw [List.cons_append, collapse_blank hc, collapse_blank hc]
    exact ih hrest
  | word w cs hw hends ih =>
    by_cases hrest : cs.Blank
    · rw [hw.collapse_append_blank hends hrest, List.append_assoc]
      cases cs with
      | nil =>
        -- without a blank between them the two are one word
        refine ⟨[], blank_nil, ?_⟩
        rw [List.nil_append, (hw.append hu).collapse_eq, List.append_nil]
      | cons c cs =>
        have hends' := hends.append (List.cons_ne_nil c cs) u
        have hnot : ¬ Blank (c :: cs ++ u) := fun h => hu.not_blank (List.forall_mem_append.1 h).2
        have hcollapse : collapse (c :: cs ++ u) = u := by
          rw [collapse, hrest.words_append, ← collapse, hu.collapse_eq]
        refine ⟨[' '], List.forall_mem_singleton.2 rfl, ?_⟩
        rw [hw.collapse_append hends' hnot, hcollapse, List.append_assoc]
        rfl
    · obtain ⟨g, hg, hcollapse⟩ := ih hrest
      have hne : cs ≠ [] := by
        rintro rfl
        exact hrest blank_nil
      have hends' := hends.append hne u
      have hnot : ¬ Blank (cs ++ u) := fun h => hrest (List.forall_mem_append.1 h).1
      refine ⟨g, hg, ?_⟩
      rw [List.append_assoc, hw.collapse_append hends' hnot, hcollapse,
        hw.collapse_append hends hrest]
      simp

/-- **Both ends.** A collapsed text begins and ends with a word, unless it is empty. -/
theorem exists_collapse_eq {cs : Text} (hcs : ¬ cs.Blank) :
    (∃ c s, collapse cs = c :: s ∧ isBlank c = false) ∧
      ∃ s c, collapse cs = s ++ [c] ∧ isBlank c = false := by
  induction cs using word_induction with
  | nil => exact absurd blank_nil hcs
  | blank c cs hc ih =>
    have hrest : ¬ cs.Blank := fun h => hcs (List.forall_mem_cons.2 ⟨hc, h⟩)
    rw [collapse_blank hc]
    exact ih hrest
  | word w cs hw hends ih =>
    have hstart (t : Text) : ∃ c s, w ++ t = c :: s ∧ isBlank c = false := by
      obtain ⟨c, w, rfl⟩ := List.exists_cons_of_ne_nil hw.ne_nil
      exact ⟨c, w ++ t, rfl, hw.notBlank c List.mem_cons_self⟩
    by_cases hrest : cs.Blank
    · rw [hw.collapse_append_blank hends hrest]
      have hw' := hstart []
      rw [List.append_nil] at hw'
      refine ⟨hw', w.dropLast, w.getLast hw.ne_nil, (List.dropLast_concat_getLast _).symm, ?_⟩
      exact hw.notBlank _ (List.getLast_mem _)
    · obtain ⟨-, s, c, hs, hc⟩ := ih hrest
      rw [hw.collapse_append hends hrest, hs]
      exact ⟨hstart _, w ++ ' ' :: s, c, by simp, hc⟩

end ExactLength.Text
