import ExactLength.Proofs.MixedNumber.Reading
import ExactLength.Proofs.Text.Words

/-!
# Runs of blanks

A text is squeezed when each run of blanks is one space and there are none at its end. The collapsed
text is the squeezed text without the blanks in front.

Results:
* `squeeze_append`: words are kept.
* `collapse_eq_squeeze`: collapsing is skipping the blanks in front, and squeezing.
-/

namespace ExactLength

open Digits

theorem Digits.IsRun.isWord {ds : Text} (h : IsRun ds) : ds.IsWord :=
  ⟨h.ne_nil, fun c hc => isBlank_of_isDigit (h.isDigit c hc)⟩

namespace Text

/-- The text with one space in place of each run of blanks, and without the run at its end: of the
blanks of a run all but the last are dropped, and the last too when nothing follows. -/
def squeeze : Text → Text
  | [] => []
  | c :: cs =>
    if isBlank c then
      if EndsWord cs then squeeze cs else ' ' :: squeeze cs
    else c :: squeeze cs

variable {c : Char} {cs : Text}

/-! ## Squeezing -/

theorem squeeze_cons (hc : isBlank c = false) (cs : Text) :
    squeeze (c :: cs) = c :: squeeze cs := by
  rw [squeeze, hc]
  rfl

theorem squeeze_blank (hc : isBlank c = true) (cs : Text) :
    squeeze (c :: cs) = if EndsWord cs then squeeze cs else ' ' :: squeeze cs := by
  rw [squeeze, if_pos hc]

/-- A text without blanks is kept in front of any other. -/
theorem squeeze_append {w : Text} (hw : ∀ c ∈ w, isBlank c = false) (cs : Text) :
    squeeze (w ++ cs) = w ++ squeeze cs := by
  induction w with
  | nil => rfl
  | cons c w ih =>
    obtain ⟨hc, hw⟩ := List.forall_mem_cons.1 hw
    rw [List.cons_append, squeeze_cons hc, ih hw, List.cons_append]

theorem Blank.squeeze_eq {g : Text} (hg : g.Blank) : squeeze g = [] := by
  induction g with
  | nil => rfl
  | cons c g ih =>
    obtain ⟨hc, hg⟩ := List.forall_mem_cons.1 hg
    rw [squeeze_blank hc, if_pos (Blank.endsWord hg), ih hg]

/-! ## Collapsing -/

theorem skipBlanks_blank (hc : isBlank c = true) (cs : Text) :
    skipBlanks (c :: cs) = skipBlanks cs := by
  simp [skipBlanks, hc]

theorem skipBlanks_append {w : Text} (hw : w.IsWord) (cs : Text) :
    skipBlanks (w ++ cs) = w ++ cs := by
  obtain ⟨c, w, rfl⟩ := List.exists_cons_of_ne_nil hw.ne_nil
  exact skipBlanks_cons _ (hw.notBlank c List.mem_cons_self)

/-- Squeezed, a text behind a word starts with one space, unless it is blank. -/
theorem squeeze_of_endsWord (hends : cs.EndsWord) (hcs : ¬ cs.Blank) :
    squeeze cs = ' ' :: squeeze cs.skipBlanks := by
  induction cs with
  | nil => exact absurd blank_nil hcs
  | cons c cs ih =>
    have hc : isBlank c = true := endsWord_cons.mp hends
    have hrest : ¬ Blank cs := fun h => hcs (List.forall_mem_cons.2 ⟨hc, h⟩)
    rw [squeeze_blank hc, skipBlanks_blank hc]
    split
    · next h => exact ih h hrest
    · next h =>
      cases cs with
      | nil => exact absurd endsWord_nil h
      | cons d cs =>
        rw [endsWord_cons, Bool.not_eq_true] at h
        rw [skipBlanks_cons _ h]

/-- **Collapsing.** The words of a text with one space between neighbours are the text without the
blanks at its two ends, each run of blanks inside replaced by one space. -/
theorem collapse_eq_squeeze (cs : Text) : collapse cs = squeeze cs.skipBlanks := by
  induction cs using word_induction with
  | nil => rw [collapse, words_nil]; rfl
  | blank c cs hc ih =>
    rw [collapse_blank hc, ih, skipBlanks_blank hc]
  | word w cs hw hends ih =>
    rw [skipBlanks_append hw, squeeze_append hw.notBlank]
    by_cases hcs : cs.Blank
    · rw [hw.collapse_append_blank hends hcs, hcs.squeeze_eq, List.append_nil]
    · rw [hw.collapse_append hends hcs, ih, squeeze_of_endsWord hends hcs]

end Text

end ExactLength
