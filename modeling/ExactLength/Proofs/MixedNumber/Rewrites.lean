import ExactLength.Proofs.MixedNumber.Leftover

/-!
# What writing out rewrites

Between a text and its written-out form some parts are mixed numbers, each written out as its sum,
and all the rest is copied. The runs of digits of those mixed numbers are whole runs of the text
before anything was written out, also where the number was found in the second pass.

Results:
* `Expansion.append`: two neighbouring texts are written out together.
* `expansion_expandJoint`, `Expansion.expandBlanks`: the two passes.
* `expandMixed_rewrites`: the written-out form as a list of rewrites with nothing left to rewrite.
-/

namespace ExactLength

open MixedNumber Digits

/-- A run of digits with no digit right before it or right behind it. -/
structure Digits.Complete (before run behind : Text) : Prop where
  isRun : IsRun run
  before : before.NoDigitAtEnd
  behind : behind.NoDigitAtStart

/-- The text `before ++ t ++ behind` has the mixed number in its middle, written as `t`, and each of
its runs of digits is complete. -/
def MixedNumber.Occurs (m : MixedNumber) (before t behind : Text) : Prop :=
  ∃ (joint : Joint) (g a b : Text), joint.Written g ∧ a.Blank ∧ b.Blank ∧
    t = m.whole ++ g ++ m.numerator ++ a ++ '/' :: b ++ m.denominator ∧
    Complete before m.whole (g ++ m.numerator ++ a ++ '/' :: b ++ m.denominator ++ behind) ∧
    Complete (before ++ m.whole ++ g) m.numerator (a ++ '/' :: b ++ m.denominator ++ behind) ∧
    Complete (before ++ m.whole ++ g ++ m.numerator ++ a ++ '/' :: b) m.denominator behind

/-- `Expansion left s t`: behind the text `left`, the text `s` is written out as `t`, some of its
mixed numbers as sums and the rest as it is. -/
inductive Text.Expansion : Text → Text → Text → Prop
  | gap (left g : Text) : Expansion left g g
  | mixed {left g w s t : Text} {m : MixedNumber} (hm : m.Occurs (left ++ g) w s)
    (h : Expansion (left ++ g ++ w) s t) : Expansion left (g ++ w ++ s) (g ++ m.sumText ++ t)

/-! ## Occurrences -/

namespace Text

theorem noDigitAtEnd_cons_blank {c : Char} {b : Text} (hc : c.isDigit = false) (hb : b.Blank) :
    NoDigitAtEnd (c :: b) := by
  cases b with
  | nil =>
    intro d hd
    cases hd
    exact hc
  | cons d b =>
    have h : NoDigitAtEnd ([c] ++ d :: b) :=
      (noDigitAtEnd_append (List.cons_ne_nil d b)).mpr hb.noDigitAtEnd
    exact h

theorem not_noDigitAtEnd_run {cs ds : Text} (h : IsRun ds) : ¬ NoDigitAtEnd (cs ++ ds) := by
  intro hend
  rw [noDigitAtEnd_append h.ne_nil] at hend
  have hlast := hend _ (List.getLast?_eq_some_getLast h.ne_nil)
  rw [h.isDigit _ (List.getLast_mem h.ne_nil)] at hlast
  cases hlast

end Text

namespace MixedNumber

open Text

variable {m : MixedNumber} {before t behind : Text}

theorem Joint.Written.noDigitAtEnd {joint : Joint} {g : Text} (h : joint.Written g) (cs : Text) :
    NoDigitAtEnd (cs ++ g) := by
  cases joint with
  | dash =>
    obtain ⟨a, b, -, hb, rfl⟩ := h
    rw [← List.append_assoc, noDigitAtEnd_append (List.cons_ne_nil _ _)]
    exact noDigitAtEnd_cons_blank rfl hb
  | blanks =>
    rw [noDigitAtEnd_append h.1]
    exact Blank.noDigitAtEnd h.2

/-- A written mixed number occurs where no digit stands right before it or right behind it. -/
theorem Written.occurs {joint : Joint} (ht : Written joint m t) (hm : m.IsRuns)
    (hbefore : before.NoDigitAtEnd) (hbehind : behind.NoDigitAtStart) :
    m.Occurs before t behind := by
  obtain ⟨g, a, b, hg, ha, hb, rfl⟩ := ht
  refine ⟨joint, g, a, b, hg, ha, hb, rfl, ⟨hm.whole, hbefore, ?_⟩,
    ⟨hm.numerator, hg.noDigitAtEnd _, ?_⟩, ⟨hm.denominator, ?_, hbehind⟩⟩
  · have h := hg.noDigitAtStart (m.numerator ++ a ++ '/' :: b ++ m.denominator ++ behind)
    simpa only [List.append_assoc] using h
  · have h : NoDigitAtStart ('/' :: b ++ (m.denominator ++ behind)) := noDigitAtStart_cons.mpr rfl
    rw [List.append_assoc, List.append_assoc]
    exact ha.noDigitAtStart.append h
  · rw [noDigitAtEnd_append (List.cons_ne_nil _ _)]
    exact noDigitAtEnd_cons_blank rfl hb

theorem Occurs.isRuns (h : m.Occurs before t behind) : m.IsRuns := by
  obtain ⟨joint, g, a, b, -, -, -, -, hwhole, hnumerator, hdenominator⟩ := h
  exact ⟨hwhole.isRun, hnumerator.isRun, hdenominator.isRun⟩

theorem Occurs.noDigitAtEnd (h : m.Occurs before t behind) : before.NoDigitAtEnd := by
  obtain ⟨joint, g, a, b, -, -, -, -, hwhole, -, -⟩ := h
  exact hwhole.before

theorem Occurs.noDigitAtStart (h : m.Occurs before t behind) : behind.NoDigitAtStart := by
  obtain ⟨joint, g, a, b, -, -, -, -, -, -, hdenominator⟩ := h
  exact hdenominator.behind

theorem Occurs.not_noDigitAtEnd (h : m.Occurs before t behind) (cs : Text) :
    ¬ NoDigitAtEnd (cs ++ t) := by
  obtain ⟨joint, g, a, b, -, -, -, rfl, -, -, hdenominator⟩ := h
  rw [← List.append_assoc]
  exact not_noDigitAtEnd_run hdenominator.isRun

/-- An occurrence stays one when the text goes on, unless it goes on with a digit right there. -/
theorem Occurs.append (h : m.Occurs before t behind) {cs : Text}
    (hcs : behind = [] → cs.NoDigitAtStart) : m.Occurs before t (behind ++ cs) := by
  have hbehind : (behind ++ cs).NoDigitAtStart := by
    cases behind with
    | nil => exact hcs rfl
    | cons c behind => exact noDigitAtStart_cons.mpr (noDigitAtStart_cons.mp h.noDigitAtStart)
  have hruns : m.IsRuns := h.isRuns
  have hbefore : before.NoDigitAtEnd := h.noDigitAtEnd
  obtain ⟨joint, g, a, b, hg, ha, hb, rfl, -, -, -⟩ := h
  exact Written.occurs ⟨g, a, b, hg, ha, hb, rfl⟩ hruns hbefore hbehind

end MixedNumber

/-! ## Putting expansions together -/

namespace Text

namespace Expansion

variable {left s t s' t' : Text}

theorem prepend (g : Text) (h : Expansion (left ++ g) s t) : Expansion left (g ++ s) (g ++ t) := by
  cases h with
  | gap => exact gap left _
  | @mixed _ g' w s t m hm h =>
    have h' : Expansion left ((g ++ g') ++ w ++ s) ((g ++ g') ++ m.sumText ++ t) := by
      apply mixed
      · rw [← List.append_assoc]; exact hm
      · rw [← List.append_assoc left]; exact h
    simpa only [List.append_assoc] using h'

/-- **Neighbours.** Two texts are written out together when no run of digits goes on from the first
to the second. -/
theorem append (h : Expansion left s t) (h' : Expansion (left ++ s) s' t')
    (hend : NoDigitAtEnd (left ++ s)) : Expansion left (s ++ s') (t ++ t') := by
  induction h with
  | gap left g => exact prepend g h'
  | @mixed left g w s t m hm h ih =>
    have hassoc : left ++ (g ++ w ++ s) = left ++ g ++ w ++ s := by simp
    rw [hassoc] at h' hend
    have hm' : m.Occurs (left ++ g) w (s ++ s') := by
      apply hm.append
      rintro rfl
      rw [List.append_nil] at hend
      exact absurd hend (hm.not_noDigitAtEnd (left ++ g))
    have hboth := mixed hm' (ih h' hend)
    simpa only [List.append_assoc] using hboth

end Expansion

/-! ## The two passes -/

/-- **One pass.** A text is written out behind any other, as long as no run of digits goes on from
the one to the other. -/
theorem expansion_expandJoint (joint : Joint) {left cs : Text}
    (h : NoDigitAtStart cs ∨ NoDigitAtEnd left) : Expansion left cs (expandJoint joint cs) := by
  fun_induction expandJoint joint cs generalizing left with
  | case1 => exact .gap left []
  | case2 c cs hc m rest hr ih =>
    obtain ⟨hm, hrest, t, ht, hcs⟩ := read?_eq_some_iff.mp hr
    have hleft : NoDigitAtEnd left := by
      rcases h with h | h
      · rw [noDigitAtStart_cons.mp h] at hc
        cases hc
      · exact h
    have hoccurs : m.Occurs (left ++ []) t rest := by
      rw [List.append_nil]
      exact ht.occurs hm hleft hrest
    rw [hcs]
    exact .mixed hoccurs (ih (.inl hrest))
  | case3 c cs hc hr ih =>
    rw [cons_eq_cons_leading_append c cs]
    exact Expansion.prepend (c :: leading cs) (ih (.inl (noDigitAtStart_after cs)))
  | case4 c cs hc ih =>
    have hend : NoDigitAtEnd (left ++ [c]) := by
      rw [noDigitAtEnd_append (List.cons_ne_nil c [])]
      exact noDigitAtEnd_cons_blank (Bool.eq_false_iff.mpr hc) (fun _ h => by cases h)
    exact Expansion.prepend [c] (ih (.inr hend))

theorem expandJoint_sumText_append {joint : Joint} {m : MixedNumber} (hm : m.IsRuns) (cs : Text) :
    expandJoint joint (m.sumText ++ cs) = m.sumText ++ expandJoint joint cs := by
  have hkept : expandJoint joint m.sumText = m.sumText := by
    apply expandJoint_eq_of_free
    rw [← List.append_nil m.sumText, free_sumText_append hm]
    exact free_nil
  obtain ⟨ds, hds⟩ : ∃ ds : Text, m.sumText = ds ++ [')'] := ⟨_, rfl⟩
  have hclose : isJoining ')' = false := by decide
  rw [hds, expandJoint_append hclose, expandJoint_nil] at hkept
  rw [hds, List.append_assoc]
  show expandJoint joint (ds ++ ')' :: cs) = _
  rw [expandJoint_append hclose, List.append_cancel_right hkept, List.append_assoc]
  rfl

/-- **The second pass.** Writing out the mixed numbers with blanks adds to what is written out, and
only in the parts that were copied before. -/
theorem Expansion.expandBlanks {left s t : Text} (h : Expansion left s t)
    (hleft : NoDigitAtStart s ∨ NoDigitAtEnd left) : Expansion left s (expandJoint .blanks t) := by
  induction h with
  | gap left g => exact expansion_expandJoint .blanks hleft
  | @mixed left g w s t m hm h ih =>
    have hgap : NoDigitAtStart g ∨ NoDigitAtEnd left := by
      cases g with
      | nil => exact .inl noDigitAtStart_nil
      | cons c g => exact hleft.imp_left fun h => noDigitAtStart_cons.mpr (noDigitAtStart_cons.mp h)
    -- the parenthesis of the sum ends the copied part, whose own mixed numbers are complete in it
    have hparts : expandJoint .blanks (g ++ m.sumText ++ t) =
        expandJoint .blanks g ++ (m.sumText ++ expandJoint .blanks t) := by
      have hopen : isJoining '(' = false := by decide
      obtain ⟨ds, hds⟩ : ∃ ds : Text, m.sumText = '(' :: ds := ⟨_, rfl⟩
      have hsum : expandJoint .blanks (m.sumText ++ t) = m.sumText ++ expandJoint .blanks t :=
        expandJoint_sumText_append hm.isRuns t
      rw [hds, List.cons_append, expandJoint_other (by decide)] at hsum
      rw [hds, List.append_assoc, List.cons_append, expandJoint_append hopen, hsum]
    have hright : Expansion (left ++ g) ([] ++ w ++ s)
        ([] ++ m.sumText ++ expandJoint .blanks t) := by
      apply Expansion.mixed
      · rw [List.append_nil]
        exact hm
      · rw [List.append_nil]
        exact ih (.inl hm.noDigitAtStart)
    rw [hparts, List.append_assoc]
    exact (expansion_expandJoint .blanks hgap).append hright hm.noDigitAtEnd

theorem expansion_expandMixed (cs : Text) : Expansion [] cs cs.expandMixed := by
  have hnil : NoDigitAtEnd [] := fun _ h => by cases h
  exact (expansion_expandJoint .dash (.inr hnil)).expandBlanks (.inr hnil)

end Text

/-! ## The rewrites one by one -/

/-- A mixed number, how it is written, and the part of the text that is copied before it. -/
structure Rewrite where
  gap : Text
  written : Text
  number : MixedNumber

/-- The text before the rewrites; `last` is copied behind the last one. -/
def Rewrite.source (rewrites : List Rewrite) (last : Text) : Text :=
  rewrites.flatMap (fun r => r.gap ++ r.written) ++ last

/-- The text behind the rewrites. -/
def Rewrite.target (rewrites : List Rewrite) (last : Text) : Text :=
  rewrites.flatMap (fun r => r.gap ++ r.number.sumText) ++ last

namespace Text

open Rewrite

theorem Expansion.exists_rewrites {left s t : Text} (h : Expansion left s t) :
    ∃ (rewrites : List Rewrite) (last : Text),
      s = source rewrites last ∧ t = target rewrites last ∧
      ∀ before r behind, rewrites = before ++ r :: behind →
        r.number.Occurs (left ++ source before r.gap) r.written (source behind last) := by
  induction h with
  | gap left g => exact ⟨[], g, rfl, rfl, fun before r behind h => by simp at h⟩
  | @mixed left g w s t m hm h ih =>
    obtain ⟨rewrites, last, rfl, rfl, hoccurs⟩ := ih
    refine ⟨⟨g, w, m⟩ :: rewrites, last, by simp [source], by simp [target], ?_⟩
    intro before r behind heq
    cases before with
    | nil =>
      cases heq
      exact hm
    | cons r' before =>
      cases heq
      have h := hoccurs before r behind rfl
      simpa [source] using h

/-- **Writing out.** The written-out form of a text differs from the text in mixed numbers only,
each in its place with complete runs of digits, and each written out as its sum. No mixed number of
either kind is left in it, so that writing out once more changes nothing. -/
theorem expandMixed_rewrites (cs : Text) :
    (∃ (rewrites : List Rewrite) (last : Text),
      cs = source rewrites last ∧ cs.expandMixed = target rewrites last ∧
      ∀ before r behind, rewrites = before ++ r :: behind →
        r.number.Occurs (source before r.gap) r.written (source behind last)) ∧
    (∀ kind, Free kind cs.expandMixed) ∧ cs.expandMixed.expandMixed = cs.expandMixed := by
  refine ⟨?_, fun kind => free_expandMixed kind cs, expandMixed_expandMixed cs⟩
  exact (expansion_expandMixed cs).exists_rewrites

end Text

end ExactLength
