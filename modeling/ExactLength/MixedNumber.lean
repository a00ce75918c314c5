import ExactLength.Text.Digits

/-!
# Mixed numbers

A whole number and a fraction written side by side, as in `1 3/8` or `2-1/4`, are read as their sum.
Before anything else reads a text, its mixed numbers are written out in parentheses: first those
with a dash, then those with blanks. The dash of `5 - 1/2` joins a mixed number too; a difference
needs parentheses.

Results:
* `eq_append_of_read?`: what is read as a mixed number is written as one.
* `expandJoint_mixed`, `expandJoint_digits`, `expandJoint_other`: what writing out does at a mixed
  number, at any other run of digits and at any other character.
* `expandMixed_eq_self`: a text without a stroke is kept.
-/

namespace ExactLength

namespace Text

/-- The text without the blanks at its start. -/
def skipBlanks (cs : Text) : Text := cs.dropWhile isBlank

/-- The text behind a given first character. -/
def skip? (c : Char) : Text → Option Text
  | [] => none
  | d :: cs => if d = c then some cs else none

/-- A text of blanks only. -/
def Blank (cs : Text) : Prop := ∀ c ∈ cs, isBlank c = true

instance (cs : Text) : Decidable (Blank cs) :=
  decidable_of_iff (cs.all isBlank = true) List.all_eq_true

end Text

/-- A run of digits at the start of a text, with at least one digit, and the rest. -/
def Digits.split? (cs : Text) : Option (Text × Text) :=
  if leading cs = [] then none else some (leading cs, after cs)

/-- The three runs of digits of a mixed number. -/
structure MixedNumber where
  whole : Text
  numerator : Text
  denominator : Text
  deriving DecidableEq, Repr

namespace MixedNumber

/-- What joins the whole number to the fraction. -/
inductive Joint
  /-- A dash, with or without blanks around it (`MOTIF_TIRET`). -/
  | dash
  /-- At least one blank (`MOTIF_ESPACE`). -/
  | blanks
  deriving DecidableEq, Repr

/-- The texts that a joint is written as. -/
def Joint.Written : Joint → Text → Prop
  | dash, g => ∃ a b : Text, a.Blank ∧ b.Blank ∧ g = a ++ '-' :: b
  | blanks, g => g ≠ [] ∧ g.Blank

/-- The texts that a mixed number with a given joint is written as. -/
def Written (joint : Joint) (m : MixedNumber) (cs : Text) : Prop :=
  ∃ g a b : Text, joint.Written g ∧ a.Blank ∧ b.Blank ∧
    cs = m.whole ++ g ++ m.numerator ++ a ++ '/' :: b ++ m.denominator

/-- The text behind a joint. -/
def Joint.skip? : Joint → Text → Option Text
  | dash, cs => (Text.skip? '-' cs.skipBlanks).map Text.skipBlanks
  | blanks, [] => none
  | blanks, c :: cs => if isBlank c then some (Text.skipBlanks cs) else none

/-- The mixed number at the start of a text, and the rest. Its runs of digits are as long as they
can be; blanks may stand around the stroke. -/
def read? (joint : Joint) (cs : Text) : Option (MixedNumber × Text) := do
  let (whole, cs) ← Digits.split? cs
  let cs ← joint.skip? cs
  let (numerator, cs) ← Digits.split? cs
  let cs ← Text.skip? '/' cs.skipBlanks
  let (denominator, cs) ← Digits.split? cs.skipBlanks
  return (⟨whole, numerator, denominator⟩, cs)

/-- A mixed number written out as a sum (`REMPLACEMENT`). -/
def sumText (m : MixedNumber) : Text :=
  '(' :: m.whole ++ [' ', '+', ' '] ++ m.numerator ++ '/' :: m.denominator ++ [')']

end MixedNumber

/-! ## What the parts are read from -/

theorem Text.exists_blank_append (cs : Text) : ∃ g : Text, g.Blank ∧ cs = g ++ cs.skipBlanks :=
  ⟨cs.takeWhile isBlank, fun _ h => List.all_eq_true.1 List.all_takeWhile _ h,
    List.takeWhile_append_dropWhile.symm⟩

theorem Text.skip?_eq_some_iff {c : Char} {cs rest : Text} :
    skip? c cs = some rest ↔ cs = c :: rest := by
  cases cs with
  | nil => simp [skip?]
  | cons d cs => simp [skip?]

theorem Digits.split?_eq_some_iff {cs ds rest : Text} :
    split? cs = some (ds, rest) ↔ ds ≠ [] ∧ ds = leading cs ∧ rest = after cs := by
  unfold split?
  split
  · next h => simpa using fun hne hds _ => hne (hds.trans h)
  · next h =>
    simp only [Option.some.injEq, Prod.mk.injEq]
    exact ⟨fun ⟨hd, hr⟩ => ⟨hd ▸ h, hd.symm, hr.symm⟩, fun ⟨_, hd, hr⟩ => ⟨hd.symm, hr.symm⟩⟩

theorem MixedNumber.Joint.exists_of_skip? {joint : Joint} {cs rest : Text}
    (h : joint.skip? cs = some rest) : ∃ g, joint.Written g ∧ cs = g ++ rest := by
  unfold skip? at h
  split at h
  · obtain ⟨t, ht, rfl⟩ := Option.map_eq_some_iff.1 h
    obtain ⟨a, ha, hcs⟩ := Text.exists_blank_append cs
    obtain ⟨b, hb, hbt⟩ := Text.exists_blank_append t
    rw [Text.skip?_eq_some_iff.1 ht, hbt] at hcs
    exact ⟨a ++ '-' :: b, ⟨a, b, ha, hb, rfl⟩, by simpa using hcs⟩
  · cases h
  · next c t =>
    split at h <;> cases h
    next hc =>
    obtain ⟨b, hb, hbt⟩ := Text.exists_blank_append t
    refine ⟨c :: b, ⟨by simp, fun x hx => ?_⟩, by simp [← hbt]⟩
    rcases List.mem_cons.1 hx with rfl | hx
    · exact hc
    · exact hb x hx

/-- What is read as a mixed number is written as one. -/
theorem MixedNumber.eq_append_of_read? {joint : Joint} {cs rest : Text} {m : MixedNumber}
    (h : read? joint cs = some (m, rest)) :
    ∃ t, Written joint m t ∧ m.whole ≠ [] ∧ cs = t ++ rest := by
  simp only [read?, Option.bind_eq_bind, Option.bind_eq_some_iff, Prod.exists] at h
  obtain ⟨ds, r₁, h₁, r₂, h₂, ns, r₃, h₃, r₄, h₄, es, r₅, h₅, h₆⟩ := h
  cases h₆
  obtain ⟨hne, rfl, rfl⟩ := Digits.split?_eq_some_iff.1 h₁
  obtain ⟨g, hg, h₂⟩ := Joint.exists_of_skip? h₂
  obtain ⟨-, rfl, rfl⟩ := Digits.split?_eq_some_iff.1 h₃
  obtain ⟨a, ha, h₃⟩ := Text.exists_blank_append (Digits.after r₂)
  rw [Text.skip?_eq_some_iff.1 h₄] at h₃
  obtain ⟨b, hb, h₄⟩ := Text.exists_blank_append r₄
  obtain ⟨-, rfl, rfl⟩ := Digits.split?_eq_some_iff.1 h₅
  refine ⟨_, ⟨g, a, b, hg, ha, hb, rfl⟩, hne, ?_⟩
  have e₁ := Digits.leading_append_after cs
  have e₂ := Digits.leading_append_after r₂
  have e₃ := Digits.leading_append_after r₄.skipBlanks
  rw [h₂, ← e₂, h₃, h₄, ← e₃] at e₁
  simpa using e₁.symm

theorem MixedNumber.length_rest_lt {joint : Joint} {cs rest : Text} {m : MixedNumber}
    (h : read? joint cs = some (m, rest)) : rest.length < cs.length := by
  obtain ⟨t, ⟨g, a, b, -, -, -, rfl⟩, -, rfl⟩ := eq_append_of_read? h
  simp only [List.length_append, List.length_cons]
  omega

/-! ## Writing out -/

namespace Text

/-- The text with the mixed numbers of one kind written out, from left to right. A run of digits
that starts none is kept as a whole. -/
def expandJoint (joint : MixedNumber.Joint) : Text → Text
  | [] => []
  | c :: cs =>
    if c.isDigit then
      match _h : MixedNumber.read? joint (c :: cs) with
      | some (m, rest) => m.sumText ++ expandJoint joint rest
      | none => c :: Digits.leading cs ++ expandJoint joint (Digits.after cs)
    else c :: expandJoint joint cs
termination_by cs => cs.length
decreasing_by
  · exact MixedNumber.length_rest_lt _h
  · exact Nat.lt_succ_of_le (Digits.length_after_le cs)
  · exact Nat.lt_succ_self _

/-- The text with its mixed numbers written out, those with a dash first (`normalise_mixtes`). -/
def expandMixed (cs : Text) : Text :=
  (cs.expandJoint .dash).expandJoint .blanks

theorem expandJoint_nil (joint : MixedNumber.Joint) : expandJoint joint [] = [] := by
  rw [expandJoint]

theorem expandJoint_other {joint : MixedNumber.Joint} {c : Char} {cs : Text}
    (h : c.isDigit = false) : expandJoint joint (c :: cs) = c :: expandJoint joint cs := by
  rw [expandJoint]
  simp [h]

/-- A run of digits that starts no mixed number is kept. -/
theorem expandJoint_digits {joint : MixedNumber.Joint} {cs : Text}
    (h : MixedNumber.read? joint cs = none) (hne : Digits.leading cs ≠ []) :
    expandJoint joint cs = Digits.leading cs ++ expandJoint joint (Digits.after cs) := by
  match cs, hne with
  | c :: cs, hne =>
    by_cases hc : c.isDigit = true
    · rw [expandJoint]
      simp only [hc, if_true, Digits.leading_cons hc, Digits.after_cons hc]
      split
      · next hr => rw [h] at hr; cases hr
      · rfl
    · simp [Digits.leading, hc] at hne

/-- A mixed number is written out. -/
theorem expandJoint_mixed {joint : MixedNumber.Joint} {cs rest : Text} {m : MixedNumber}
    (h : MixedNumber.read? joint cs = some (m, rest)) :
    expandJoint joint cs = m.sumText ++ expandJoint joint rest := by
  match cs, h with
  | [], h => cases h
  | c :: cs, h =>
    by_cases hc : c.isDigit = true
    · rw [expandJoint]
      simp only [hc, if_true]
      split
      · next hr => rw [h] at hr; cases hr; rfl
      · next hr => rw [h] at hr; cases hr
    · simp [MixedNumber.read?, Digits.split?, Digits.leading, hc] at h

theorem expandJoint_eq_self {joint : MixedNumber.Joint} {cs : Text} (h : '/' ∉ cs) :
    cs.expandJoint joint = cs := by
  fun_induction expandJoint joint cs with
  | case1 => rfl
  | case2 c cs hc m rest hr =>
    obtain ⟨t, ⟨g, a, b, -, -, -, rfl⟩, -, ht⟩ := MixedNumber.eq_append_of_read? hr
    rw [ht] at h
    simp at h
  | case3 c cs hc hr ih =>
    rw [ih fun hm => h (List.mem_cons_of_mem _ (List.dropWhile_suffix _ |>.mem hm)),
      List.cons_append, Digits.leading_append_after]
  | case4 c cs hc ih => rw [ih fun hm => h (List.mem_cons_of_mem _ hm)]

/-- A text without a stroke is kept. -/
theorem expandMixed_eq_self {cs : Text} (h : '/' ∉ cs) : cs.expandMixed = cs := by
  rw [expandMixed, expandJoint_eq_self h, expandJoint_eq_self h]

end Text

end ExactLength
