import ExactLength.Proofs.MixedNumber.Leftover
import ExactLength.Proofs.Text.Tighten

/-!
# Mixed numbers and blanks

A mixed number is found at the same place, with the same three runs of digits, whether the blanks
that part nothing are there or not, and whether the others are one or many. The sum that is written
for it has blanks of its own, so what is written out is the same once it is tightened.

Results:
* `read?_tighten`: the reader finds the same number, and leaves the tightened rest.
* `tighten_expandJoint`, `tighten_expandMixed`: tightening before writing out makes no difference.
* `skipBlanks_expandMixed`: blanks in front of a text are copied.
-/

namespace ExactLength

open MixedNumber Digits Text

/-! ## Reading -/

theorem Digits.split?_tighten (cs : Text) :
    split? (tighten cs) = (split? cs).map fun p => (p.1, tighten p.2) := by
  rw [split?, split?, leading_tighten, after_tighten]
  split <;> rfl

theorem Digits.split?_eq_none {cs : Text} (h : NoDigitAtStart cs) : split? cs = none := by
  rw [split?, if_pos (leading_eq_nil h)]

namespace MixedNumber

/-- A joint of blanks and the run of digits behind it. No digits follow where a blank would part
nothing, so such a place counts as a blank here. -/
theorem Joint.skip?_blanks_bind (cs : Text) :
    (Joint.blanks.skip? cs).bind split? = if Apart cs then split? cs.skipBlanks else none := by
  cases cs with
  | nil => rfl
  | cons c cs =>
    obtain hb | ha | ⟨hb, ha⟩ := char_cases c
    · rw [skip?, if_pos hb, if_pos (apart_cons.mpr (.inl hb)), skipBlanks_blank hb,
        Option.bind_some]
    · have hb := not_isBlank_of_standsAlone ha
      have hapart : Apart (c :: cs) := apart_cons.mpr (.inr ha)
      rw [skip?, if_neg (Bool.eq_false_iff.mp hb), if_pos hapart, skipBlanks_cons cs hb,
        split?_eq_none hapart.noDigitAtStart, Option.bind_none]
    · have hapart : ¬ Apart (c :: cs) := by simp [apart_cons, hb, ha]
      rw [skip?, if_neg (Bool.eq_false_iff.mp hb), if_neg hapart, Option.bind_none]

theorem Joint.skip?_tighten_bind (joint : Joint) (cs : Text) :
    (joint.skip? (tighten cs)).bind split? =
      ((joint.skip? cs).bind split?).map fun p => (p.1, tighten p.2) := by
  cases joint with
  | dash =>
    rw [skip?, skip?, skip?_tighten]
    cases (Text.skip? '-' cs.skipBlanks).map skipBlanks with
    | none => rfl
    | some rest => exact split?_tighten rest
  | blanks =>
    rw [skip?_blanks_bind, skip?_blanks_bind, skipBlanks_tighten, split?_tighten]
    simp only [apart_tighten]
    split <;> rfl

/-- The reader as a chain of cuts, each with what it leaves. -/
theorem read?_eq_bind (joint : Joint) (cs : Text) :
    read? joint cs = (split? cs).bind fun p => ((joint.skip? p.2).bind split?).bind fun q =>
      ((Text.skip? '/' q.2.skipBlanks).map skipBlanks).bind fun rest =>
        (split? rest).map fun r => (⟨p.1, q.1, r.1⟩, r.2) := by
  rw [read?]
  simp only [Option.bind_eq_bind, Option.bind_assoc, Option.map_eq_bind]
  rfl

/-- **Reading.** Blanks that part nothing do not count for the reader. -/
theorem read?_tighten (joint : Joint) (cs : Text) :
    read? joint (tighten cs) = (read? joint cs).map fun p => (p.1, tighten p.2) := by
  rw [read?_eq_bind, read?_eq_bind, split?_tighten]
  cases split? cs with
  | none => rfl
  | some p =>
    simp only [Option.map_some, Option.bind_some, Joint.skip?_tighten_bind]
    cases (joint.skip? p.2).bind split? with
    | none => rfl
    | some q =>
      simp only [Option.map_some, Option.bind_some, skip?_tighten]
      cases (Text.skip? '/' q.2.skipBlanks).map skipBlanks with
      | none => rfl
      | some rest =>
        simp only [Option.map_some, Option.bind_some, split?_tighten, Option.map_map]
        rfl

end MixedNumber

/-! ## Writing out -/

namespace Text

/-- What is written out starts with a blank or with a character that stands alone if the text
does. -/
theorem Apart.expandJoint {cs : Text} (h : Apart cs) (joint : Joint) :
    Apart (Text.expandJoint joint cs) := by
  cases cs with
  | nil =>
    rw [expandJoint_nil]
    exact h
  | cons c cs =>
    rw [expandJoint_other (h.not_number c rfl).1]
    exact h

theorem endsWord_expandJoint {joint : Joint} {cs : Text} :
    EndsWord (expandJoint joint cs) ↔ EndsWord cs := by
  fun_induction expandJoint joint cs with
  | case1 => exact Iff.rfl
  | case2 c cs hc m rest hr ih =>
    have hopen : ¬ EndsWord (m.sumText ++ expandJoint joint rest) :=
      fun h => Bool.false_ne_true (endsWord_cons.mp h)
    have hdigit : ¬ EndsWord (c :: cs) := by
      rw [endsWord_cons, isBlank_of_isDigit hc]
      exact Bool.false_ne_true
    exact iff_of_false hopen hdigit
  | case3 c cs hc hr ih => rw [List.cons_append, endsWord_cons, endsWord_cons]
  | case4 c cs hc ih => rw [endsWord_cons, endsWord_cons]

theorem skipBlanks_expandJoint (joint : Joint) (cs : Text) :
    skipBlanks (expandJoint joint cs) = expandJoint joint (skipBlanks cs) := by
  induction cs with
  | nil =>
    rw [expandJoint_nil]
    exact (expandJoint_nil joint).symm
  | cons c cs ih =>
    by_cases hc : isBlank c = true
    · rw [expandJoint_other (isDigit_of_isBlank hc), skipBlanks_blank hc, skipBlanks_blank hc, ih]
    · have hends : ¬ EndsWord (expandJoint joint (c :: cs)) := by
        rw [endsWord_expandJoint, endsWord_cons]
        exact hc
      rw [skipBlanks_cons cs (Bool.eq_false_iff.mpr hc)]
      cases hx : expandJoint joint (c :: cs) with
      | nil => exact absurd (hx ▸ endsWord_nil) hends
      | cons d ds =>
        rw [hx, endsWord_cons, Bool.not_eq_true] at hends
        exact skipBlanks_cons ds hends

/-- **One pass.** What is written out of the tightened text is the same but for blanks that part
nothing. -/
theorem tighten_expandJoint (joint : Joint) (cs : Text) :
    tighten (expandJoint joint (tighten cs)) = tighten (expandJoint joint cs) := by
  fun_induction expandJoint joint cs with
  | case1 => simp only [tighten, expandJoint_nil]
  | case2 c cs hc m rest hr ih =>
    have hread : read? joint (tighten (c :: cs)) = some (m, tighten rest) := by
      rw [read?_tighten, hr, Option.map_some]
    rw [expandJoint_mixed hread]
    exact tighten_append_congr m.sumText ih
  | case3 c cs hc hr ih =>
    have hread : read? joint (tighten (c :: cs)) = none := by
      rw [read?_tighten, hr, Option.map_none]
    have hleading : leading (tighten (c :: cs)) = c :: leading cs := by
      rw [leading_tighten, leading_cons hc]
    have hne : leading (tighten (c :: cs)) ≠ [] := by
      rw [hleading]
      exact List.cons_ne_nil _ _
    rw [expandJoint_digits hread hne, hleading, after_tighten, after_cons hc]
    exact tighten_append_congr (c :: leading cs) ih
  | case4 c cs hc ih =>
    have hd : c.isDigit = false := Bool.eq_false_iff.mpr hc
    obtain hb | ha | ⟨hb, ha⟩ := char_cases c
    · rw [tighten_blank hb, tighten_blank hb]
      split
      · next hapart =>
        have hexpand := (apart_tighten.mp hapart).expandJoint joint
        rw [ih, if_pos (apart_tighten.mpr hexpand)]
      · rw [expandJoint_other rfl, tighten_blank rfl, ih]
    · rw [tighten_alone ha, expandJoint_other hd, tighten_alone ha, tighten_alone ha,
        ← skipBlanks_expandJoint, ← skipBlanks_tighten, skipBlanks_skipBlanks, ih]
    · rw [tighten_cons hb ha, expandJoint_other hd]
      exact tighten_append_congr [c] ih

/-- Writing out and tightening, done in either order, lead to the same tightened text. -/
theorem tighten_expandMixed (cs : Text) :
    tighten (expandMixed (tighten cs)) = tighten cs.expandMixed := by
  rw [expandMixed, ← tighten_expandJoint .blanks, tighten_expandJoint .dash, tighten_expandJoint,
    expandMixed]

theorem skipBlanks_expandMixed (cs : Text) :
    skipBlanks cs.expandMixed = expandMixed (skipBlanks cs) := by
  rw [expandMixed, skipBlanks_expandJoint, skipBlanks_expandJoint, expandMixed]

end Text

end ExactLength
