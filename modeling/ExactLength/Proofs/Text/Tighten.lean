import Mathlib.Data.List.DropRight
import ExactLength.Proofs.Text.Squeeze

/-!
# Blanks that part nothing

A blank parts two numbers, or a number and a stroke. Next to a parenthesis, a plus, a dash or a star
it parts nothing, and neither does it at the ends of a text; of several blanks in a row one is
enough. A text is tightened by taking all other blanks away. The cuts that readers make behind
blanks and behind runs of digits are made at the same places of the tightened text.

Results:
* `skipBlanks_tighten`, `leading_tighten`, `after_tighten`, `skip?_tighten`: the cuts.
* `solid_tighten`: nothing but blanks is taken away.
* `Respaced.collapse`: a text and its collapsed form differ in nothing else.
* `Interchangeable.append`, `Interchangeable.blanks_alone`, `Interchangeable.alone_space`: texts
  that can stand for each other in front of any third.
-/

namespace ExactLength.Text

open Digits

variable {c : Char} {cs x y z : Text}

/-! ## Characters that stand alone -/

/-- A character that is told from its neighbours without blanks. A stroke is not: `3/8` is one
number, and `3 / 8` are two. -/
def standsAlone (c : Char) : Bool := ['+', '-', '*', '(', ')'].contains c

/-- In front of this text a blank parts nothing. -/
def Apart (cs : Text) : Prop := ∀ c ∈ cs.head?, isBlank c = true ∨ standsAlone c = true

theorem apart_nil : Apart [] := nofun

theorem apart_cons : Apart (c :: cs) ↔ isBlank c = true ∨ standsAlone c = true := by
  simp [Apart]

instance : (cs : Text) → Decidable (Apart cs)
  | [] => .isTrue apart_nil
  | _ :: _ => decidable_of_iff _ apart_cons.symm

theorem EndsWord.apart (h : EndsWord cs) : Apart cs := fun c hc => .inl (h c hc)

theorem not_number_of_standsAlone (h : standsAlone c = true) :
    c.isDigit = false ∧ c ≠ '.' ∧ c ≠ '/' := by
  have all : ['+', '-', '*', '(', ')'].all (fun c => !c.isDigit && c != '.' && c != '/') = true := by
    decide
  have hc := List.all_eq_true.1 all c (List.contains_iff_mem.1 h)
  simpa [and_assoc] using hc

theorem not_isBlank_of_standsAlone (h : standsAlone c = true) : isBlank c = false := by
  have all : ['+', '-', '*', '(', ')'].all (!isBlank ·) = true := by decide
  simpa using List.all_eq_true.1 all c (List.contains_iff_mem.1 h)

/-- No number goes on into a text in front of which a blank parts nothing. -/
theorem Apart.not_number (h : Apart cs) :
    ∀ c ∈ cs.head?, c.isDigit = false ∧ c ≠ '.' ∧ c ≠ '/' := by
  intro c hc
  obtain hb | ha := h c hc
  · refine ⟨isDigit_of_isBlank hb, ?_, ?_⟩ <;> rintro rfl <;> cases hb
  · exact not_number_of_standsAlone ha

theorem Apart.noDigitAtStart (h : Apart cs) : NoDigitAtStart cs := fun c hc => (h.not_number c hc).1

/-! ## Tightening -/

/-- The characters of a text that are no blanks. -/
def solid (cs : Text) : Text := cs.filter (!isBlank ·)

/-- The text with one space in place of each run of blanks that parts something. Of the others only
one at the start is kept. -/
def tighten : Text → Text
  | [] => []
  | c :: cs =>
    if isBlank c then if Apart (tighten cs) then tighten cs else ' ' :: tighten cs
    else if standsAlone c then c :: skipBlanks (tighten cs)
    else c :: tighten cs

theorem tighten_blank (hc : isBlank c = true) (cs : Text) :
    tighten (c :: cs) = if Apart (tighten cs) then tighten cs else ' ' :: tighten cs := by
  rw [tighten, if_pos hc]

theorem tighten_alone (hc : standsAlone c = true) (cs : Text) :
    tighten (c :: cs) = c :: skipBlanks (tighten cs) := by
  rw [tighten, if_neg (Bool.eq_false_iff.mp (not_isBlank_of_standsAlone hc)), if_pos hc]

theorem tighten_cons (hb : isBlank c = false) (ha : standsAlone c = false) (cs : Text) :
    tighten (c :: cs) = c :: tighten cs := by
  rw [tighten, if_neg (Bool.eq_false_iff.mp hb), if_neg (Bool.eq_false_iff.mp ha)]

theorem tighten_digit (hc : c.isDigit = true) (cs : Text) :
    tighten (c :: cs) = c :: tighten cs := by
  refine tighten_cons (isBlank_of_isDigit hc) ?_ cs
  cases ha : standsAlone c with
  | false => rfl
  | true => rw [(not_number_of_standsAlone ha).1] at hc; cases hc

/-- Tightening works from the end: what comes of a text in front of another one is decided by what
comes of the other one. -/
theorem tighten_append_congr (x : Text) (h : tighten y = tighten z) :
    tighten (x ++ y) = tighten (x ++ z) := by
  induction x with
  | nil => exact h
  | cons c x ih => simp only [List.cons_append, tighten, ih]

/-- **Cases of a character.** -/
theorem char_cases (c : Char) :
    isBlank c = true ∨ standsAlone c = true ∨ isBlank c = false ∧ standsAlone c = false := by
  cases isBlank c <;> cases standsAlone c <;> simp

theorem apart_tighten : Apart (tighten cs) ↔ Apart cs := by
  cases cs with
  | nil => exact Iff.rfl
  | cons c cs =>
    obtain hb | ha | ⟨hb, ha⟩ := char_cases c
    · rw [tighten_blank hb]
      refine iff_of_true ?_ (apart_cons.mpr (.inl hb))
      split
      · assumption
      · exact apart_cons.mpr (.inl rfl)
    · rw [tighten_alone ha, apart_cons, apart_cons]
    · rw [tighten_cons hb ha, apart_cons, apart_cons]

/-! ## Cuts -/

theorem skipBlanks_skipBlanks (cs : Text) : skipBlanks (skipBlanks cs) = skipBlanks cs :=
  List.dropWhile_idempotent isBlank cs

/-- Blanks in front are skipped. -/
theorem skipBlanks_tighten (cs : Text) : skipBlanks (tighten cs) = tighten (skipBlanks cs) := by
  induction cs with
  | nil => rfl
  | cons c cs ih =>
    obtain hb | ha | ⟨hb, ha⟩ := char_cases c
    · rw [tighten_blank hb, skipBlanks_blank hb, ← ih]
      split
      · rfl
      · exact skipBlanks_blank rfl _
    · have hb := not_isBlank_of_standsAlone ha
      rw [tighten_alone ha, skipBlanks_cons _ hb, skipBlanks_cons _ hb, tighten_alone ha]
    · rw [tighten_cons hb ha, skipBlanks_cons _ hb, skipBlanks_cons _ hb, tighten_cons hb ha]

theorem NoDigitAtStart.tighten (h : NoDigitAtStart cs) : NoDigitAtStart (tighten cs) := by
  by_cases hcs : Apart cs
  · exact (apart_tighten.mpr hcs).noDigitAtStart
  · cases cs with
    | nil => exact noDigitAtStart_nil
    | cons c cs =>
      simp only [apart_cons, not_or, Bool.not_eq_true] at hcs
      rw [tighten_cons hcs.1 hcs.2]
      exact noDigitAtStart_cons.mpr (noDigitAtStart_cons.mp h)

theorem leading_tighten (cs : Text) : leading (tighten cs) = leading cs := by
  induction cs with
  | nil => rfl
  | cons c cs ih =>
    by_cases hc : c.isDigit = true
    · rw [tighten_digit hc, leading_cons hc, leading_cons hc, ih]
    · have h : NoDigitAtStart (c :: cs) := noDigitAtStart_cons.mpr (Bool.eq_false_iff.mpr hc)
      rw [leading_eq_nil h, leading_eq_nil h.tighten]

theorem after_tighten (cs : Text) : after (tighten cs) = tighten (after cs) := by
  induction cs with
  | nil => rfl
  | cons c cs ih =>
    by_cases hc : c.isDigit = true
    · rw [tighten_digit hc, after_cons hc, after_cons hc, ih]
    · have h : NoDigitAtStart (c :: cs) := noDigitAtStart_cons.mpr (Bool.eq_false_iff.mpr hc)
      rw [after_eq_self h, after_eq_self h.tighten]

/-- A given character is found behind the blanks in front of both texts or of neither, and what
follows the blanks behind it is tightened. -/
theorem skip?_tighten (c : Char) (cs : Text) :
    (skip? c (skipBlanks (tighten cs))).map skipBlanks =
      ((skip? c cs.skipBlanks).map skipBlanks).map tighten := by
  rw [skipBlanks_tighten]
  cases hcs : cs.skipBlanks with
  | nil => rfl
  | cons d ds =>
    have hd : isBlank d = false := by
      have h := List.head?_dropWhile_not isBlank cs
      rw [← skipBlanks, hcs] at h
      simpa using h
    have hskip : ∃ rest, tighten (d :: ds) = d :: rest ∧
        skipBlanks rest = skipBlanks (tighten ds) := by
      by_cases ha : standsAlone d = true
      · exact ⟨_, tighten_alone ha ds, skipBlanks_skipBlanks _⟩
      · exact ⟨_, tighten_cons hd (Bool.eq_false_iff.mpr ha) ds, rfl⟩
    obtain ⟨rest, htighten, hrest⟩ := hskip
    rw [htighten, skip?, skip?]
    split
    · rw [Option.map_some, Option.map_some, Option.map_some, hrest, skipBlanks_tighten]
    · rfl

/-! ## What is kept -/

theorem solid_skipBlanks (cs : Text) : solid (skipBlanks cs) = solid cs := by
  obtain ⟨g, hg, hcs⟩ := exists_blank_append cs
  have hnone : solid g = [] := List.filter_eq_nil_iff.mpr fun c hc => by simp [hg c hc]
  conv => rhs; rw [hcs, solid, List.filter_append, ← solid, hnone, List.nil_append, ← solid]

theorem blank_iff_solid : cs.Blank ↔ solid cs = [] := by
  simp [solid, Blank]

theorem any_solid {p : Char → Bool} (hp : ∀ c, p c = true → isBlank c = false) (cs : Text) :
    cs.solid.any p = cs.any p := by
  have hkept (c : Char) : (!isBlank c && p c) = p c := by
    cases hc : p c with
    | false => exact Bool.and_false _
    | true => rw [hp c hc]; rfl
  rw [solid, List.any_filter]
  exact congrArg (List.any cs) (funext hkept)

/-- Nothing but blanks is taken away. -/
theorem solid_tighten (cs : Text) : solid (tighten cs) = solid cs := by
  have hblank {c : Char} (hb : isBlank c = true) (cs : Text) : solid (c :: cs) = solid cs :=
    List.filter_cons_of_neg (by simp [hb])
  have hsolid {c : Char} (hb : isBlank c = false) (cs : Text) : solid (c :: cs) = c :: solid cs :=
    List.filter_cons_of_pos (by simp [hb])
  induction cs with
  | nil => rfl
  | cons c cs ih =>
    obtain hb | ha | ⟨hb, ha⟩ := char_cases c
    · rw [tighten_blank hb, hblank hb]
      split
      · exact ih
      · rw [hblank rfl, ih]
    · have hb := not_isBlank_of_standsAlone ha
      rw [tighten_alone ha, hsolid hb, hsolid hb, solid_skipBlanks, ih]
    · rw [tighten_cons hb ha, hsolid hb, hsolid hb, ih]

theorem tighten_squeeze (cs : Text) : tighten (squeeze cs) = tighten cs := by
  induction cs with
  | nil => rfl
  | cons c cs ih =>
    by_cases hc : isBlank c = true
    · rw [squeeze_blank hc, tighten_blank hc]
      split
      · next hends => rw [ih, if_pos (apart_tighten.mpr hends.apart)]
      · rw [tighten_blank rfl, ih]
    · rw [squeeze_cons (Bool.eq_false_iff.mpr hc)]
      exact tighten_append_congr [c] ih

/-! ## Texts that differ only in blanks that part nothing -/

/-- The texts differ only in blanks that part nothing, those at the start among them. -/
def Respaced (x y : Text) : Prop := skipBlanks (tighten x) = skipBlanks (tighten y)

theorem Respaced.symm (h : Respaced x y) : Respaced y x := Eq.symm h

theorem Respaced.trans (h : Respaced x y) (h' : Respaced y z) : Respaced x z := Eq.trans h h'

theorem Respaced.solid_eq (h : Respaced x y) : solid x = solid y := by
  have hsolid := congrArg solid h
  rwa [solid_skipBlanks, solid_skipBlanks, solid_tighten, solid_tighten] at hsolid

/-- A text and its words with one space between neighbours. -/
theorem Respaced.collapse (cs : Text) : Respaced cs.collapse cs := by
  rw [Respaced, collapse_eq_squeeze, tighten_squeeze, ← skipBlanks_tighten, skipBlanks_skipBlanks]

theorem Blank.tighten_eq {g : Text} (hg : g.Blank) : tighten g = [] := by
  induction g with
  | nil => rfl
  | cons c g ih =>
    obtain ⟨hc, hg⟩ := List.forall_mem_cons.1 hg
    rw [tighten_blank hc, ih hg, if_pos apart_nil]

theorem Respaced.append_blank (x : Text) {g : Text} (hg : g.Blank) : Respaced (x ++ g) x := by
  have hend := tighten_append_congr x (y := g) (z := []) hg.tighten_eq
  rw [List.append_nil] at hend
  exact congrArg skipBlanks hend

/-- In front of any third text the two differ only in blanks that part nothing. -/
def Interchangeable (x y : Text) : Prop := ∀ rest, tighten (x ++ rest) = tighten (y ++ rest)

namespace Interchangeable

theorem refl (x : Text) : Interchangeable x x := fun _ => rfl

theorem trans (h : Interchangeable x y) (h' : Interchangeable y z) : Interchangeable x z :=
  fun rest => (h rest).trans (h' rest)

theorem append (h : Interchangeable x y) (w : Text) : Interchangeable (x ++ w) (y ++ w) := by
  intro rest
  rw [List.append_assoc, List.append_assoc, h]

theorem respaced (h : Interchangeable x y) : Respaced x y := by
  have hxy := h []
  rw [List.append_nil, List.append_nil] at hxy
  exact congrArg skipBlanks hxy

/-- Blanks in front of a character that stands alone come and go. -/
theorem blanks_alone (x : Text) {g g' : Text} (hg : g.Blank) (hg' : g'.Blank)
    (hc : standsAlone c = true) : Interchangeable (x ++ g ++ [c]) (x ++ g' ++ [c]) := by
  intro rest
  have hapart : Apart (tighten (c :: rest)) := apart_tighten.mpr (apart_cons.mpr (.inr hc))
  have hdrop {g : Text} (hg : g.Blank) : tighten (g ++ (c :: rest)) = tighten (c :: rest) := by
    induction g with
    | nil => rfl
    | cons b g ih =>
      obtain ⟨hb, hg⟩ := List.forall_mem_cons.1 hg
      rw [List.cons_append, tighten_blank hb, ih hg, if_pos hapart]
  simp only [List.append_assoc, List.singleton_append]
  exact tighten_append_congr x ((hdrop hg).trans (hdrop hg').symm)

/-- So does a space behind it. -/
theorem alone_space (x : Text) (hc : standsAlone c = true) :
    Interchangeable (x ++ [c] ++ [' ']) (x ++ [c]) := by
  intro rest
  simp only [List.append_assoc]
  refine tighten_append_congr x ?_
  show tighten (c :: ' ' :: rest) = tighten (c :: rest)
  rw [tighten_alone hc, tighten_alone hc, skipBlanks_tighten, skipBlanks_blank rfl,
    skipBlanks_tighten]

end Interchangeable

end ExactLength.Text
