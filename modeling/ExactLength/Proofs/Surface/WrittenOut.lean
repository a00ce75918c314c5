import ExactLength.Proofs.MixedNumber.Rewrites
import ExactLength.Proofs.Surface.Basic

/-!
# Writing out a written expression

In the text of an expression the mixed numbers that are found are those that were written. Behind
every number there is the end, a closing parenthesis or an operator between blanks, and none of
these lets a mixed number go on from the number before it.

Results:
* `Surface.copies_textWith`: a pass that turns each number into its next form does so within every
  expression.
* `expandMixed_text`: writing out replaces the mixed numbers of an expression by their sums.
-/

namespace ExactLength

open MixedNumber Digits Text

/-- The number with a mixed number with a dash written out. -/
def Leaf.dashExpanded : Leaf → Text
  | dashed n d e => (mixed n d e).sumText
  | l => l.text

/-- The number with a mixed number written out. -/
def Leaf.expanded : Leaf → Text
  | spaced n _ d e | dashed n d e => (mixed n d e).sumText
  | l => l.text

/-- The text of an expression with its mixed numbers written out. -/
def Surface.expanded (t : Surface) : Text := t.textWith Leaf.expanded

/-! ## Where mixed numbers end -/

/-- No mixed number goes on from digits into this text. -/
structure MixedNumber.Joint.Parts (joint : Joint) (cs : Text) : Prop where
  start : cs.NoDigitAtStart
  joined : ∀ rest, joint.skip? cs = some rest → rest.NoDigitAtStart

namespace MixedNumber.Joint

variable {joint : Joint} {cs : Text}

theorem parts_nil : joint.Parts [] := by
  refine ⟨noDigitAtStart_nil, fun rest h => ?_⟩
  cases joint <;> cases h

theorem skip?_eq_none_of_cons {c : Char} (hb : isBlank c = false) (hc : c ≠ '-') :
    joint.skip? (c :: cs) = none := by
  cases joint with
  | dash => rw [skip?, skipBlanks_cons _ hb, Text.skip?, if_neg hc]; rfl
  | blanks => rw [skip?, hb]; rfl

theorem parts_cons {c : Char} (hd : c.isDigit = false) (hb : isBlank c = false) (hc : c ≠ '-') :
    joint.Parts (c :: cs) := by
  refine ⟨noDigitAtStart_cons.mpr hd, fun rest h => ?_⟩
  rw [skip?_eq_none_of_cons hb hc] at h
  cases h

/-- An operator between blanks parts, the minus sign if a parenthesis follows. -/
theorem parts_operator (o : Operator) (h : o = .sub → ∃ ds, cs = '(' :: ds) :
    joint.Parts (' ' :: o.symbol :: ' ' :: cs) := by
  have hd : o.symbol.isDigit = false := by cases o <;> rfl
  have hb : isBlank o.symbol = false := by cases o <;> rfl
  refine ⟨noDigitAtStart_cons.mpr rfl, fun rest hrest => ?_⟩
  have hblank : skipBlanks (' ' :: o.symbol :: ' ' :: cs) = o.symbol :: ' ' :: cs :=
    skipBlanks_cons _ hb
  cases joint with
  | dash =>
    rw [skip?, hblank] at hrest
    by_cases ho : o = .sub
    · obtain ⟨ds, rfl⟩ := h ho
      subst ho
      cases hrest
      exact noDigitAtStart_cons.mpr rfl
    · have hsymbol : o.symbol ≠ '-' := by cases o <;> simp_all [Operator.symbol]
      rw [Text.skip?, if_neg hsymbol] at hrest
      cases hrest
  | blanks =>
    have hskip : skip? blanks (' ' :: o.symbol :: ' ' :: cs) = some (o.symbol :: ' ' :: cs) :=
      congrArg some hblank
    rw [hskip] at hrest
    cases hrest
    exact noDigitAtStart_cons.mpr hd

theorem parts_gap {g ds : Text} (hg : Joint.blanks.Written g) (hds : IsRun ds) :
    Joint.dash.Parts (g ++ ds ++ cs) := by
  obtain ⟨d, ds, rfl⟩ := List.exists_cons_of_ne_nil hds.ne_nil
  have hd : d.isDigit = true := (isRun_cons_iff.mp hds).1
  have hdash : d ≠ '-' := by
    rintro rfl
    cases hd
  have hstart : NoDigitAtStart (g ++ (d :: ds ++ cs)) :=
    hg.noDigitAtStart _
  rw [List.append_assoc]
  refine ⟨hstart, fun rest h => ?_⟩
  rw [skip?, Blank.skipBlanks_append hg.2, List.cons_append,
    skipBlanks_cons _ (isBlank_of_isDigit hd), Text.skip?, if_neg hdash] at h
  cases h

theorem Parts.read?_run {ds : Text} (h : joint.Parts cs) (hds : IsRun ds) :
    read? joint (ds ++ cs) = none := by
  rw [read?, split?_append hds, leading_eq_nil h.start, after_eq_self h.start]
  cases hskip : joint.skip? cs with
  | none => simp only [Option.bind_eq_bind, Option.bind_some, hskip, Option.bind_none]
  | some rest =>
    have hsplit : split? rest = none := by
      rw [split?, if_pos (leading_eq_nil (h.joined rest hskip))]
    simp only [Option.bind_eq_bind, Option.bind_some, hskip, hsplit, Option.bind_none]

end MixedNumber.Joint

/-! ## One pass -/

/-- In front of a text that parts, the pass turns `s` into `t` and goes on behind it. -/
def Copies (joint : Joint) (s t : Text) : Prop :=
  ∀ rest, joint.Parts rest → expandJoint joint (s ++ rest) = t ++ expandJoint joint rest

namespace Copies

variable {joint : Joint} {s t s' t' : Text}

theorem cons {c : Char} (h : Copies joint s t) (hc : c.isDigit = false) :
    Copies joint (c :: s) (c :: t) := by
  intro rest hrest
  rw [List.cons_append, expandJoint_other hc, h rest hrest, List.cons_append]

/-- Two texts are passed one after the other when the second one parts. -/
theorem append (h : Copies joint s t) (h' : Copies joint s' t')
    (hparts : ∀ rest, joint.Parts rest → joint.Parts (s' ++ rest)) :
    Copies joint (s ++ s') (t ++ t') := by
  intro rest hrest
  rw [List.append_assoc, h _ (hparts rest hrest), h' rest hrest, List.append_assoc]

theorem enclosed (h : Copies joint s t) : Copies joint ('(' :: s ++ [')']) ('(' :: t ++ [')']) := by
  have hclose : Copies joint [')'] [')'] := by
    intro rest _
    exact expandJoint_other rfl
  have hparts : ∀ rest, joint.Parts rest → joint.Parts ([')'] ++ rest) :=
    fun rest _ => Joint.parts_cons rfl (by decide) (by decide)
  exact append (cons h rfl) hclose hparts

theorem right (o : Operator) (h : Copies joint s t) :
    Copies joint (o.right '(' ')' s) (o.right '(' ')' t) := by
  unfold Operator.right
  split
  · exact h.enclosed
  · exact h

theorem operator (o : Operator) (h : Copies joint s t) (h' : Copies joint s' t') :
    Copies joint (s ++ ' ' :: o.symbol :: ' ' :: o.right '(' ')' s')
      (t ++ ' ' :: o.symbol :: ' ' :: o.right '(' ')' t') := by
  have ho : o.symbol.isDigit = false := by cases o <;> rfl
  have hparts : ∀ rest, joint.Parts rest →
      joint.Parts (' ' :: o.symbol :: ' ' :: o.right '(' ')' s' ++ rest) := by
    intro rest _
    apply Joint.parts_operator
    rintro rfl
    exact ⟨s' ++ [')'] ++ rest, rfl⟩
  exact h.append ((((h'.right o).cons rfl).cons ho).cons rfl) hparts

theorem run (r : Run) : Copies joint r.digits r.digits := by
  intro rest hrest
  have hne : leading (r.digits ++ rest) ≠ [] := by
    rw [leading_run r.isRun.isDigit hrest.start]
    exact r.isRun.ne_nil
  rw [expandJoint_digits (hrest.read?_run r.isRun) hne, leading_run r.isRun.isDigit hrest.start,
    after_run r.isRun.isDigit hrest.start]

theorem runs (r r' : Run) {c : Char} (hd : c.isDigit = false) (hb : isBlank c = false)
    (hc : c ≠ '-') : Copies joint (r.digits ++ c :: r'.digits) (r.digits ++ c :: r'.digits) :=
  (run r).append ((run r').cons hd) fun _ _ => Joint.parts_cons hd hb hc

theorem blank {g : Text} (hg : g.Blank) (h : Copies joint s t) :
    Copies joint (g ++ s) (g ++ t) := by
  induction g with
  | nil => exact h
  | cons c g ih =>
    have hc : c.isDigit = false := noDigitAtStart_cons.mp hg.noDigitAtStart
    exact (ih (List.forall_mem_cons.1 hg).2).cons hc

theorem written {m : MixedNumber} (ht : Written joint m t) (hm : m.IsRuns) :
    Copies joint t m.sumText := by
  intro rest hrest
  apply expandJoint_mixed
  rw [read?_written hm ht, leading_eq_nil hrest.start, after_eq_self hrest.start, List.append_nil]

/-- Two passes one after the other write out a whole text. -/
theorem expandMixed_eq {u : Text} (h : Copies .dash s t) (h' : Copies .blanks t u) :
    s.expandMixed = u := by
  have hdash := h [] Joint.parts_nil
  have hblanks := h' [] Joint.parts_nil
  rw [List.append_nil, expandJoint_nil, List.append_nil] at hdash hblanks
  rw [expandMixed, hdash, hblanks]

end Copies

/-! ## The numbers of an expression -/

namespace Leaf

theorem isRuns_mixed (n d e : Run) : (mixed n d e).IsRuns := ⟨n.isRun, d.isRun, e.isRun⟩

theorem copies_dash (l : Leaf) : Copies .dash l.text l.dashExpanded := by
  cases l with
  | integer n => exact Copies.run n
  | decimal n f => exact Copies.runs n f rfl (by decide) (by decide)
  | fraction n d => exact Copies.runs n d rfl (by decide) (by decide)
  | spaced n gap d e =>
    have hfraction : Copies .dash (d.digits ++ '/' :: e.digits) (d.digits ++ '/' :: e.digits) :=
      Copies.runs d e rfl (by decide) (by decide)
    have h := (Copies.run n).append (hfraction.blank gap.isGap.2) fun rest _ => by
      rw [← List.append_assoc, List.append_assoc _ _ rest]
      exact Joint.parts_gap gap.isGap d.isRun
    simpa only [text, dashExpanded, List.append_assoc] using h
  | dashed n d e =>
    have hwritten : Written .dash (mixed n d e) (dashed n d e).text :=
      ⟨['-'], [], [], ⟨[], [], nofun, nofun, rfl⟩, nofun, nofun, by simp [text, mixed]⟩
    exact Copies.written hwritten (isRuns_mixed n d e)

theorem copies_blanks (l : Leaf) : Copies .blanks l.dashExpanded l.expanded := by
  cases l with
  | integer n => exact Copies.run n
  | decimal n f => exact Copies.runs n f rfl (by decide) (by decide)
  | fraction n d => exact Copies.runs n d rfl (by decide) (by decide)
  | spaced n gap d e =>
    have hwritten : Written .blanks (mixed n d e) (spaced n gap d e).text :=
      ⟨gap.blanks, [], [], gap.isGap, nofun, nofun, by simp [text, mixed]⟩
    exact Copies.written hwritten (isRuns_mixed n d e)
  | dashed n d e => exact fun rest _ => expandJoint_sumText_append (isRuns_mixed n d e) rest

end Leaf

namespace Surface

/-- **One pass over an expression.** What a pass does to each number by itself it does to the
numbers of an expression, and to nothing else. -/
theorem copies_textWith {joint : Joint} {f g : Leaf → Text} (h : ∀ l, Copies joint (f l) (g l))
    (t : Surface) : Copies joint (t.textWith f) (t.textWith g) := by
  induction t with
  | leaf l => exact h l
  | binary o x y ihx ihy => exact (ihx.operator o ihy).enclosed
  | minus x ih => exact ih.enclosed.cons rfl
  | plus x ih => exact ih.cons rfl

/-- The mixed numbers of an expression are written out as sums, and all else is kept. -/
theorem expandMixed_text (t : Surface) : t.text.expandMixed = t.expanded :=
  (copies_textWith Leaf.copies_dash t).expandMixed_eq (copies_textWith Leaf.copies_blanks t)

end Surface

end ExactLength
