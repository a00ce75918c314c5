import ExactLength.Proofs.Evaluation.Layout
import ExactLength.Proofs.Length.Suffix

/-!
# Spellings of units

A unit has a name, or three, in any mix of upper and lower case, and the inch also has its marks.
A number typed with one of them behind it, with blanks between or without, is that number of the
unit: the unit scales the number and has no other part in its evaluation.

Results:
* `Spells.mem_suffixes`: in lower case with plain marks, a spelling is a suffix of its unit.
* `ofText_append_spelling`: a number with a spelling behind it is measured in that unit.
* `ofText_scales`: the length has a value where the number has, and fails as the number does.
-/

namespace ExactLength

open Text

namespace LengthUnit

/-- The names of the unit in lower case. -/
def names : LengthUnit → List Text
  | millimetre => [['m', 'm']]
  | centimetre => [['c', 'm']]
  | metre => [['m']]
  | inch => [['i', 'n'], ['i', 'n', 'c', 'h'], ['i', 'n', 'c', 'h', 'e', 's']]

/-- The marks of the inch: the plain one, the double prime and the two double quotes. -/
def inchMarks : List Char := ['"', '″', '”', '“']

/-- The spellings of a unit. Letter case is that of ASCII. -/
inductive Spells : LengthUnit → Text → Prop
  | name {unit : LengthUnit} {u : Text} (h : u.map Char.toLower ∈ unit.names) : Spells unit u
  | mark {c : Char} (h : c ∈ inchMarks) : Spells inch [c]

/-! ## Lower case -/

theorem mem_suffixes_of_mem_names {unit : LengthUnit} {u : Text} (h : u ∈ unit.names) :
    (u, unit) ∈ suffixes ∧ (∀ c ∈ u, c.toNat < 128) ∧ u.map Length.plainMark = u := by
  have all : ∀ u ∈ unit.names,
      (u, unit) ∈ suffixes ∧ u.all (·.toNat < 128) = true ∧ u.map Length.plainMark = u := by
    cases unit <;> decide
  obtain ⟨hmem, hascii, hplain⟩ := all u h
  exact ⟨hmem, by simpa using hascii, hplain⟩

/-- Only ASCII characters have their lower case in ASCII. -/
theorem toNat_lt_of_toLower {c : Char} (h : c.toLower.toNat < 128) : c.toNat < 128 := by
  by_cases hc : c.val ≥ 'A'.val ∧ c.val ≤ 'Z'.val
  · exact Nat.lt_of_le_of_lt hc.2 (by decide)
  · have hself : c.toLower = c := dif_neg hc
    rwa [hself] at h

theorem lowercase_eq_map {u : Text} (h : ∀ c ∈ u.map Char.toLower, c.toNat < 128) :
    u.lowercase = u.map Char.toLower := by
  induction u with
  | nil => rfl
  | cons c u ih =>
    obtain ⟨hc, hu⟩ := List.forall_mem_cons.1 h
    have ih := ih hu
    rw [lowercase] at ih ⊢
    rw [List.flatMap_cons, lowercase_ascii (toNat_lt_of_toLower hc), ih, List.map_cons]
    rfl

/-- **Spellings.** In lower case with plain marks, a spelling is a suffix of its unit. -/
theorem Spells.mem_suffixes {unit : LengthUnit} {u : Text} (h : unit.Spells u) :
    (u.lowercase.map Length.plainMark, unit) ∈ suffixes := by
  cases h with
  | name h =>
    obtain ⟨hmem, hascii, hplain⟩ := mem_suffixes_of_mem_names h
    rwa [lowercase_eq_map hascii, hplain]
  | @mark c h =>
    have all : inchMarks.all
        (fun c => (Text.lowercase [c]).map Length.plainMark == ['"']) = true := by
      decide +kernel
    rw [eq_of_beq (List.all_eq_true.1 all c h)]
    decide

end LengthUnit

/-! ## Lengths -/

namespace Length

open LengthUnit

/-- **Units.** A number with a spelling of a unit behind it is measured in that unit. -/
theorem ofText_append_spelling {number gap u : Text} {unit : LengthUnit} (hn : number.Admitted)
    (hne : ¬ number.Blank) (hgap : gap.Blank) (hu : unit.Spells u) :
    ofText (number ++ gap ++ u) = measure number.collapse unit := by
  have hne' : ¬ Blank (number ++ gap) := fun h => hne (List.forall_mem_append.1 h).1
  have hwords : (number ++ gap).collapse = number.collapse := by
    rw [collapse, words_append_blank number hgap, collapse]
  rw [ofText_append_suffix (hn.append hgap.admitted) hne' hu.mem_suffixes rfl, hwords]

/-- **The unit only scales the number.** For every spelling of every unit, with any blanks in front
of it, the length has a value if and only if the number has, and then it is that many units. If the
number has none, the length fails with the same error, one for all units, at a position that need
not be that of the number. -/
theorem ofText_scales {number : Text} (hn : ∀ c ∈ number, isAdmitted c = true)
    (hne : ¬ number.Blank) :
    (∀ unit gap u, Blank gap → LengthUnit.Spells unit u →
      ((∃ l, ofText (number ++ gap ++ u) = .ok l) ↔ ∃ v, evaluate number = .ok v) ∧
      ∀ v, evaluate number = .ok v → ∃ l, ofText (number ++ gap ++ u) = .ok l ∧ l.unit = unit ∧
        l.millimetres = v * (match unit with
          | .millimetre => 1
          | .centimetre => 10
          | .metre => 1000
          | .inch => 127 / 5) ∧
        l.inches? = if unit = .inch then some v else none) ∧
    ∀ e, evaluate number = .error e → ∃ e', e.Alike e' ∧
      ∀ unit gap u, Blank gap → LengthUnit.Spells unit u →
        ofText (number ++ gap ++ u) = .error (.calculation e') := by
  have hvalue (unit gap u) (hgap : Blank gap) (hu : LengthUnit.Spells unit u) (v)
      (hv : evaluate number = .ok v) :
      ∃ working, ofText (number ++ gap ++ u) = .ok ⟨v, unit, working⟩ := by
    rw [ofText_append_spelling hn hne hgap hu]
    exact exists_measure (evaluate_collapse_of_ok hv) unit
  -- the error that all units share is that of the collapsed number
  have herror (e) (he : evaluate number = .error e) : ∃ e', e.Alike e' ∧
      ∀ unit gap u, Blank gap → LengthUnit.Spells unit u →
        ofText (number ++ gap ++ u) = .error (.calculation e') := by
    obtain ⟨e', he', halike⟩ := evaluate_collapse_of_error he
    refine ⟨e', halike, fun unit gap u hgap hu => ?_⟩
    rw [ofText_append_spelling hn hne hgap hu]
    exact measure_of_error he' unit
  refine ⟨fun unit gap u hgap hu => ⟨⟨?_, ?_⟩, fun v hv => ?_⟩, herror⟩
  · rintro ⟨l, hl⟩
    cases he : evaluate number with
    | ok v => exact ⟨v, rfl⟩
    | error e =>
      obtain ⟨e', -, hfails⟩ := herror e he
      rw [hfails unit gap u hgap hu] at hl
      cases hl
  · rintro ⟨v, hv⟩
    obtain ⟨working, hl⟩ := hvalue unit gap u hgap hu v hv
    exact ⟨_, hl⟩
  · obtain ⟨working, hl⟩ := hvalue unit gap u hgap hu v hv
    refine ⟨_, hl, rfl, ?_, ?_⟩
    · cases unit <;> rfl
    · cases unit <;> rfl

/-- `1 3/8` with `  CM` behind it is 13.75 mm, and with `In` it is a length in inches; `3/0` has no
length. -/
theorem ofText_scales_mixedNumber :
    (∃ l, ofText ['1', ' ', '3', '/', '8', ' ', ' ', 'C', 'M'] = .ok l ∧ l.unit = .centimetre ∧
      l.millimetres = 55 / 4 ∧ l.inches? = none) ∧
    (∃ l, ofText ['1', ' ', '3', '/', '8', 'I', 'n'] = .ok l ∧ l.unit = .inch ∧
      l.millimetres = 1397 / 40 ∧ l.inches? = some (11 / 8)) ∧
    ofText ['3', '/', '0', '”'] = .error (.calculation .divisionByZero) := by
  have hmixed := (@ofText_scales ['1', ' ', '3', '/', '8'] (List.all_eq_true.1 (by decide))
    (by decide)).1
  have hvalue : evaluate ['1', ' ', '3', '/', '8'] = .ok (11 / 8) := by decide +kernel
  have hzero := (@ofText_scales ['3', '/', '0'] (List.all_eq_true.1 (by decide)) (by decide)).2
  have hfails : evaluate ['3', '/', '0'] = .error .divisionByZero := by decide +kernel
  refine ⟨?_, ?_, ?_⟩
  · obtain ⟨l, hl, hunit, hmm, hinches⟩ :=
      (hmixed .centimetre [' ', ' '] ['C', 'M'] (by decide) (.name (by decide))).2 _ hvalue
    refine ⟨l, hl, hunit, ?_, hinches⟩
    rw [hmm]
    decide +kernel
  · obtain ⟨l, hl, hunit, hmm, hinches⟩ :=
      (hmixed .inch [] ['I', 'n'] (by decide) (.name (by decide))).2 _ hvalue
    refine ⟨l, hl, hunit, ?_, hinches⟩
    rw [hmm]
    decide +kernel
  · obtain ⟨e', halike, hall⟩ := hzero _ hfails
    have he' : e' = .divisionByZero := by
      cases e' with
      | divisionByZero => rfl
      | _ => cases halike
    rw [← he']
    exact hall .inch [] ['”'] (by decide) (.mark (by decide))

end Length

end ExactLength
