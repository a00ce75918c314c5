import ExactLength.Proofs.MixedNumber.Reading

/-!
# Nothing is left to write out

Writing out puts parentheses and a plus around the runs of digits of a mixed number, and no mixed
number reaches across those. So a text that is written out has no mixed number of that kind in it,
and none of another kind that was not there before.

Results:
* `expandJoint_append`: a character that mixed numbers do not have parts a text in two that are
  written out by themselves.
* `expandJoint_eq_of_free`: a text without mixed numbers is kept.
* `free_expandJoint`: what is written out has no mixed number in it.
* `free_expandMixed`, `expandMixed_expandMixed`: the same for both kinds, and once is enough.
-/

namespace ExactLength

open MixedNumber Digits

/-- A character that a mixed number can be written with. -/
def isJoining (c : Char) : Bool := c.isDigit || isBlank c || c == '-' || c == '/'

theorem isJoining_of_isDigit {c : Char} (h : c.isDigit = true) : isJoining c = true := by
  simp [isJoining, h]

theorem isDigit_of_not_isJoining {c : Char} (h : isJoining c = false) : c.isDigit = false := by
  cases hc : c.isDigit with
  | false => rfl
  | true => rw [isJoining_of_isDigit hc] at h; cases h

namespace MixedNumber

theorem Joint.Written.isJoining {joint : Joint} {g : Text} (h : joint.Written g) {c : Char}
    (hc : c ∈ g) : isJoining c = true := by
  cases joint with
  | dash =>
    obtain ⟨a, b, ha, hb, rfl⟩ := h
    rcases List.mem_append.1 hc with hc | hc
    · simp [ExactLength.isJoining, ha c hc]
    · rcases List.mem_cons.1 hc with rfl | hc
      · rfl
      · simp [ExactLength.isJoining, hb c hc]
  | blanks => simp [ExactLength.isJoining, h.2 c hc]

theorem Written.isJoining {joint : Joint} {m : MixedNumber} {t : Text} (ht : Written joint m t)
    (hm : m.IsRuns) {c : Char} (hc : c ∈ t) : isJoining c = true := by
  obtain ⟨g, a, b, hg, ha, hb, rfl⟩ := ht
  simp only [List.append_assoc, List.cons_append, List.mem_append, List.mem_cons] at hc
  rcases hc with hc | hc | hc | hc | rfl | hc | hc
  · exact isJoining_of_isDigit (hm.whole.isDigit c hc)
  · exact hg.isJoining hc
  · exact isJoining_of_isDigit (hm.numerator.isDigit c hc)
  · simp [ExactLength.isJoining, ha c hc]
  · rfl
  · simp [ExactLength.isJoining, hb c hc]
  · exact isJoining_of_isDigit (hm.denominator.isDigit c hc)

end MixedNumber

/-! ## Characters that part a text -/

theorem prefix_of_not_mem {t cs ds : Text} {c : Char} (h : t <+: cs ++ c :: ds) (hc : c ∉ t) :
    t <+: cs := by
  rcases Nat.le_total t.length cs.length with hlen | hlen
  · exact List.prefix_of_prefix_length_le h (List.prefix_append cs _) hlen
  · obtain ⟨us, rfl⟩ := List.prefix_of_prefix_length_le (List.prefix_append cs _) h hlen
    cases us with
    | nil => simp
    | cons d us =>
      rw [List.prefix_append_right_inj, List.cons_prefix_cons] at h
      obtain ⟨rfl, -⟩ := h
      exact absurd (List.mem_append_right cs List.mem_cons_self) hc

namespace Text

variable {joint : Joint} {c : Char}

theorem startsMixed_append_iff (hc : isJoining c = false) {cs ds : Text} :
    StartsMixed joint (cs ++ c :: ds) ↔ StartsMixed joint cs := by
  constructor
  · rintro ⟨m, t, hm, ht, h⟩
    have hct : c ∉ t := by
      intro hmem
      rw [ht.isJoining hm hmem] at hc
      cases hc
    exact ⟨m, t, hm, ht, prefix_of_not_mem h hct⟩
  · rintro ⟨m, t, hm, ht, h⟩
    exact ⟨m, t, hm, ht, h.trans (List.prefix_append cs _)⟩

theorem free_append_iff (hc : isJoining c = false) {cs ds : Text} :
    Free joint (cs ++ c :: ds) ↔ Free joint cs ∧ Free joint ds := by
  induction cs with
  | nil =>
    have hstart : NoDigitAtStart (c :: ds) :=
      noDigitAtStart_cons.mpr (isDigit_of_not_isJoining hc)
    rw [List.nil_append, free_cons]
    exact ⟨fun h => ⟨free_nil, h.2⟩, fun h => ⟨hstart.not_startsMixed, h.2⟩⟩
  | cons d cs ih =>
    rw [List.cons_append, free_cons, free_cons, ih, ← List.cons_append,
      startsMixed_append_iff hc, and_assoc]

/-- **Parts.** A character that mixed numbers do not have parts a text in two that are written out
by themselves. -/
theorem expandJoint_append (hc : isJoining c = false) (cs ds : Text) :
    expandJoint joint (cs ++ c :: ds) = expandJoint joint cs ++ c :: expandJoint joint ds := by
  have hd : c.isDigit = false := isDigit_of_not_isJoining hc
  have hstart : NoDigitAtStart (c :: ds) := noDigitAtStart_cons.mpr hd
  fun_induction expandJoint joint cs with
  | case1 => rw [List.nil_append, expandJoint_other hd, List.nil_append]
  | case2 b cs hb m rest hr ih =>
    obtain ⟨hm, hrest, t, ht, hcs⟩ := read?_eq_some_iff.mp hr
    have hread : read? joint (t ++ (rest ++ c :: ds)) = some (m, rest ++ c :: ds) :=
      read?_eq_some_iff.mpr ⟨hm, hrest.append hstart, t, ht, rfl⟩
    rw [hcs, List.append_assoc, expandJoint_mixed hread, ih, List.append_assoc]
  | case3 b cs hb hr ih =>
    have hsplit : b :: cs ++ c :: ds = b :: leading cs ++ (after cs ++ c :: ds) := by
      rw [← List.append_assoc, ← cons_eq_cons_leading_append]
    have hrun := isDigit_of_mem_cons_leading hb cs
    have hrest : NoDigitAtStart (after cs ++ c :: ds) := (noDigitAtStart_after cs).append hstart
    have hnone : read? joint (b :: leading cs ++ (after cs ++ c :: ds)) = none := by
      rw [← hsplit, read?_eq_none_iff, startsMixed_append_iff hc, ← read?_eq_none_iff]
      exact hr
    have hne : leading (b :: leading cs ++ (after cs ++ c :: ds)) ≠ [] := by
      rw [leading_run hrun hrest]
      exact List.cons_ne_nil _ _
    rw [hsplit, expandJoint_digits hnone hne, leading_run hrun hrest, after_run hrun hrest, ih,
      List.append_assoc]
  | case4 b cs hb ih =>
    have hb : b.isDigit = false := Bool.eq_false_iff.mpr hb
    rw [List.cons_append, expandJoint_other hb, ih, List.cons_append]

/-! ## Texts that are kept -/

/-- A text without mixed numbers is kept. -/
theorem expandJoint_eq_of_free {cs : Text} (h : Free joint cs) : expandJoint joint cs = cs := by
  fun_induction expandJoint joint cs with
  | case1 => rfl
  | case2 c cs hc m rest hr ih =>
    have hstart : StartsMixed joint (c :: cs) := by
      rw [startsMixed_iff, hr]
      exact Option.some_ne_none _
    exact absurd hstart (free_cons.mp h).1
  | case3 c cs hc hr ih =>
    have hafter : Free joint (after cs) :=
      (free_cons.mp h).2.of_suffix (List.dropWhile_suffix _)
    rw [ih hafter, ← cons_eq_cons_leading_append]
  | case4 c cs hc ih => rw [ih (free_cons.mp h).2]

/-- Digits in front of a text make no mixed number unless one starts within them. -/
theorem free_run_append {ds cs : Text} (hcs : Free joint cs)
    (h : ∀ us, us ≠ [] → us <:+ ds → ¬ StartsMixed joint (us ++ cs)) : Free joint (ds ++ cs) := by
  induction ds with
  | nil => exact hcs
  | cons d ds ih =>
    rw [List.cons_append, free_cons]
    exact ⟨h (d :: ds) (List.cons_ne_nil _ _) (List.suffix_refl _),
      ih fun us hne hus => h us hne (hus.trans (List.suffix_cons d ds))⟩

theorem skip?_stroke (cs : Text) : joint.skip? ('/' :: cs) = none := by
  cases joint with
  | dash => rw [Joint.skip?, skipBlanks_cons _ (by decide)]; rfl
  | blanks => rfl

theorem free_fraction {ns ds : Text} (hn : ∀ c ∈ ns, c.isDigit = true)
    (hd : ∀ c ∈ ds, c.isDigit = true) : Free joint (ns ++ '/' :: ds) := by
  have hstroke : NoDigitAtStart ('/' :: ds) := noDigitAtStart_cons.mpr rfl
  have hds : Free joint ds := free_of_no_stroke fun h => absurd (hd '/' h) (by decide)
  apply free_run_append (free_cons.mpr ⟨hstroke.not_startsMixed, hds⟩)
  intro us _ hus
  exact not_startsMixed_run (fun c hc => hn c (hus.subset hc)) hstroke (skip?_stroke ds)

/-- No mixed number reaches into a sum that one is written out as, or out of it. -/
theorem free_sumText_append {m : MixedNumber} (hm : m.IsRuns) {cs : Text} :
    Free joint (m.sumText ++ cs) ↔ Free joint cs := by
  have hwhole : Free joint (m.whole ++ [' ']) := by
    refine free_of_no_stroke fun h => ?_
    rcases List.mem_append.1 h with h | h
    · exact absurd (hm.whole.isDigit _ h) (by decide)
    · exact absurd h (by decide)
  have hfraction : Free joint (' ' :: m.numerator ++ '/' :: m.denominator) := by
    rw [List.cons_append, free_cons]
    exact ⟨(noDigitAtStart_cons.mpr rfl).not_startsMixed,
      free_fraction hm.numerator.isDigit hm.denominator.isDigit⟩
  have hsum : m.sumText ++ cs = [] ++ '(' :: (m.whole ++ [' '] ++ '+' ::
      (' ' :: m.numerator ++ '/' :: m.denominator ++ ')' :: cs)) := by
    simp [sumText]
  have hopen : isJoining '(' = false := by decide
  have hplus : isJoining '+' = false := by decide
  have hclose : isJoining ')' = false := by decide
  rw [hsum, free_append_iff hopen, free_append_iff hplus, free_append_iff hclose]
  exact ⟨fun h => h.2.2.2, fun h => ⟨free_nil, hwhole, hfraction, h⟩⟩

/-! ## What is written out -/

/-- Up to the first character that mixed numbers do not have, writing out only copies. -/
theorem takeWhile_expandJoint (cs : Text) : (expandJoint joint cs).takeWhile isJoining <+: cs := by
  fun_induction expandJoint joint cs with
  | case1 => exact List.prefix_refl _
  | case2 c cs hc m rest hr ih =>
    have hparen : isJoining '(' = false := by decide
    simp only [sumText, List.cons_append, List.takeWhile_cons, hparen, Bool.false_eq_true, if_false]
    exact List.nil_prefix
  | case3 c cs hc hr ih =>
    have hrun : ∀ x ∈ c :: leading cs, isJoining x = true :=
      fun x hx => isJoining_of_isDigit (isDigit_of_mem_cons_leading hc cs x hx)
    rw [List.takeWhile_append_of_pos hrun, cons_eq_cons_leading_append c cs,
      List.prefix_append_right_inj]
    exact ih
  | case4 c cs hc ih =>
    rw [List.takeWhile_cons]
    split
    · exact List.cons_prefix_cons.2 ⟨rfl, ih⟩
    · exact List.nil_prefix

variable {kind : Joint}

/-- A mixed number that reaches from digits into a text that is written out was there before. -/
theorem StartsMixed.of_expandJoint {ds cs : Text} (hds : ∀ c ∈ ds, c.isDigit = true)
    (h : StartsMixed kind (ds ++ expandJoint joint cs)) : StartsMixed kind (ds ++ cs) := by
  obtain ⟨m, t, hm, ht, us, hus⟩ := h
  have hjoining : ∀ c ∈ ds, isJoining c = true := fun c hc => isJoining_of_isDigit (hds c hc)
  have hprefix : t <+: (t ++ us).takeWhile isJoining := by
    rw [List.takeWhile_append_of_pos fun c hc => ht.isJoining hm hc]
    exact List.prefix_append t _
  rw [hus, List.takeWhile_append_of_pos hjoining] at hprefix
  exact ⟨m, t, hm, ht,
    hprefix.trans ((List.prefix_append_right_inj ds).2 (takeWhile_expandJoint cs))⟩

theorem StartsMixed.of_run {ds es cs : Text} (hds : IsRun ds) (hes : IsRun es)
    (hcs : NoDigitAtStart cs) (h : StartsMixed joint (ds ++ cs)) :
    StartsMixed joint (es ++ cs) := by
  rw [startsMixed_iff] at h ⊢
  obtain ⟨⟨m, rest⟩, hr⟩ := Option.ne_none_iff_exists'.mp h
  simp only [read?, split?_append hds, leading_eq_nil hcs, after_eq_self hcs,
    Option.bind_eq_bind, Option.bind_some, Option.bind_eq_some_iff, Prod.exists] at hr
  obtain ⟨_, hjoint, _, _, hnumerator, _, hstroke, _, _, hdenominator, -⟩ := hr
  simp only [read?, split?_append hes, leading_eq_nil hcs, after_eq_self hcs, hjoint, hnumerator,
    hstroke, hdenominator, Option.bind_eq_bind, Option.bind_some]
  exact Option.some_ne_none _

/-- **Nothing is left.** What is written out has no mixed number of that kind in it, and none of
another kind that the text did not have. -/
theorem free_expandJoint {cs : Text} (h : kind = joint ∨ Free kind cs) :
    Free kind (expandJoint joint cs) := by
  fun_induction expandJoint joint cs with
  | case1 => exact free_nil
  | case2 c cs hc m rest hr ih =>
    obtain ⟨hm, -, t, -, hcs⟩ := read?_eq_some_iff.mp hr
    have hsuffix : rest <:+ c :: cs := ⟨t, hcs.symm⟩
    rw [free_sumText_append hm]
    exact ih (h.imp_right fun hfree => hfree.of_suffix hsuffix)
  | case3 c cs hc hr ih =>
    have hsplit : c :: cs = c :: leading cs ++ after cs := cons_eq_cons_leading_append c cs
    have hrun := isDigit_of_mem_cons_leading hc cs
    have hsuffix : after cs <:+ c :: cs := ⟨c :: leading cs, hsplit.symm⟩
    apply free_run_append (ih (h.imp_right fun hfree => hfree.of_suffix hsuffix))
    intro us hne hus hstart
    have hdigits : ∀ x ∈ us, x.isDigit = true := fun x hx => hrun x (hus.subset hx)
    have hbefore : StartsMixed kind (us ++ after cs) := hstart.of_expandJoint hdigits
    rcases h with rfl | hfree
    · have hwhole := hbefore.of_run ⟨hne, hdigits⟩ ⟨List.cons_ne_nil _ _, hrun⟩
        (noDigitAtStart_after cs)
      rw [← hsplit] at hwhole
      exact read?_eq_none_iff.mp hr hwhole
    · obtain ⟨vs, hvs⟩ := hus
      have hus : us ++ after cs <:+ c :: cs := ⟨vs, by rw [← List.append_assoc, hvs, hsplit]⟩
      exact free_iff.mp hfree _ hus hbefore
  | case4 c cs hc ih =>
    have hstart : NoDigitAtStart (c :: expandJoint joint cs) :=
      noDigitAtStart_cons.mpr (Bool.eq_false_iff.mpr hc)
    rw [free_cons]
    exact ⟨hstart.not_startsMixed, ih (h.imp_right fun hfree => (free_cons.mp hfree).2)⟩

/-- The written-out form has no mixed number of either kind. -/
theorem free_expandMixed (kind : Joint) (cs : Text) : Free kind cs.expandMixed := by
  have hdash : Free .dash (cs.expandJoint .dash) := free_expandJoint (.inl rfl)
  cases kind with
  | dash => exact free_expandJoint (.inr hdash)
  | blanks => exact free_expandJoint (.inl rfl)

/-- Writing out once is enough. -/
theorem expandMixed_expandMixed (cs : Text) : cs.expandMixed.expandMixed = cs.expandMixed := by
  rw [expandMixed, expandJoint_eq_of_free (free_expandMixed .dash cs),
    expandJoint_eq_of_free (free_expandMixed .blanks cs)]

end Text

end ExactLength
