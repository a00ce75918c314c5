import ExactLength.Number.Decimal
import ExactLength.Proofs.MixedNumber.Reading

/-!
# Decimal numerals

An unsigned decimal number as it is written: digits with at most one point among them, in front of
them or behind them. It is worth its whole part and the digits behind the point as tenths,
hundredths and so on.

**Deviation.** That is what a numeral is read as if it has fewer than `2 ^ 32` places. The reader
counts the places in 32 bits: `2 ^ 32` zeros in front of the other places make no difference to it
(`Decimal.value_replicate_append`).

Results:
* `Numeral.exists_text_eq_iff`: which texts are numerals, said of their characters.
* `Decimal.value_eq_add`, `Numeral.reading_eq_value`: the value of the digits, part by part.
* `Decimal.read_eq_ok_iff`: the reader accepts a numeral with at most one sign in front of it.
-/

namespace ExactLength

open Digits Text

namespace Text

/-- There are only digits in the text, and at most one point among them. -/
structure Numeric (cs : Text) : Prop where
  isDigit_or_eq : ∀ c ∈ cs, c.isDigit = true ∨ c = '.'
  count_point : cs.count '.' ≤ 1

theorem numeric_of_digits {ds : Text} (h : ∀ c ∈ ds, c.isDigit = true) : ds.Numeric where
  isDigit_or_eq c hc := .inl (h c hc)
  count_point := by
    rw [List.count_eq_zero.mpr fun hmem => absurd (h '.' hmem) (by decide)]
    exact Nat.zero_le 1

theorem numeric_nil : Numeric [] := numeric_of_digits nofun

theorem Numeric.of_prefix {p cs : Text} (h : cs.Numeric) (hp : p <+: cs) : p.Numeric :=
  ⟨fun c hc => h.isDigit_or_eq c (hp.subset hc), Nat.le_trans (hp.sublist.count_le _) h.count_point⟩

/-- A text of digits with at most one point goes on with a digit or with its first point. -/
theorem numeric_concat_iff {cs : Text} {c : Char} :
    Numeric (cs ++ [c]) ↔ cs.Numeric ∧ (c.isDigit = true ∨ c = '.' ∧ '.' ∉ cs) := by
  constructor
  · intro h
    refine ⟨h.of_prefix (List.prefix_append _ _), ?_⟩
    obtain hc | rfl := h.isDigit_or_eq c (List.mem_append_right _ (List.mem_singleton_self c))
    · exact .inl hc
    · have hcount := h.count_point
      rw [List.count_append, List.count_singleton_self] at hcount
      exact .inr ⟨rfl, List.count_eq_zero.mp (by omega)⟩
  · rintro ⟨h, hc⟩
    refine ⟨List.forall_mem_append.mpr ⟨h.isDigit_or_eq, List.forall_mem_singleton.mpr ?_⟩, ?_⟩
    · exact hc.imp_right And.left
    · have hcount := h.count_point
      rw [List.count_append]
      obtain hdigit | ⟨rfl, hpoint⟩ := hc
      · have hne : '.' ∉ [c] := by
          rw [List.mem_singleton]
          rintro rfl
          cases hdigit
        rw [List.count_eq_zero.mpr hne]
        exact hcount
      · have hnone := List.count_eq_zero.mpr hpoint
        rw [List.count_singleton_self]
        omega

end Text

/-- Digits with at most one point. One of the two parts may be empty, and with a point both. -/
structure Numeral where
  whole : Text
  places : Option Text
  isDigit : ∀ c ∈ whole ++ places.getD [], c.isDigit = true
  ne_nil : whole ≠ [] ∨ places ≠ none

namespace Numeral

/-- The characters of a numeral. -/
def text (n : Numeral) : Text :=
  match n.places with
  | none => n.whole
  | some places => n.whole ++ '.' :: places

/-- The number of digits behind the point. -/
def placeCount (n : Numeral) : Nat := (n.places.getD []).length

/-- The exact value of a numeral. -/
def value (n : Numeral) : Rat := toNat n.whole + toNat (n.places.getD []) / 10 ^ n.placeCount

/-- The number that a numeral is read as. -/
def reading (n : Numeral) : Rat := Decimal.value n.whole (n.places.getD [])

variable (n : Numeral)

theorem placeCount_le : n.placeCount ≤ n.text.length := by
  unfold placeCount text
  cases n.places with
  | none => exact Nat.zero_le _
  | some places =>
    rw [Option.getD_some, List.length_append, List.length_cons]
    omega

theorem isDigit_whole : ∀ c ∈ n.whole, c.isDigit = true :=
  (List.forall_mem_append.1 n.isDigit).1

theorem isDigit_places : ∀ c ∈ n.places.getD [], c.isDigit = true :=
  (List.forall_mem_append.1 n.isDigit).2

theorem isDigit_of_places {places : Text} (hp : n.places = some places) :
    ∀ c ∈ places, c.isDigit = true := by
  simpa [hp] using n.isDigit_places

theorem text_ne_nil : n.text ≠ [] := by
  unfold text
  cases hp : n.places with
  | none => exact n.ne_nil.resolve_right (fun h => h hp)
  | some places => exact List.append_ne_nil_of_right_ne_nil _ (List.cons_ne_nil _ _)

theorem isDigit_or_eq_of_mem {c : Char} (h : c ∈ n.text) : c.isDigit = true ∨ c = '.' := by
  unfold text at h
  cases hp : n.places with
  | none =>
    rw [hp] at h
    exact .inl (n.isDigit_whole c h)
  | some places =>
    have hplaces := n.isDigit_of_places hp
    rw [hp] at h
    obtain h | h := List.mem_append.1 h
    · exact .inl (n.isDigit_whole c h)
    · obtain rfl | h := List.mem_cons.1 h
      · exact .inr rfl
      · exact .inl (hplaces c h)

theorem count_point_le : n.text.count '.' ≤ 1 := by
  have hnone {ds : Text} (h : ∀ c ∈ ds, c.isDigit = true) : ds.count '.' = 0 :=
    List.count_eq_zero.2 fun hmem => absurd (h '.' hmem) (by decide)
  unfold text
  cases hp : n.places with
  | none => simp [hnone n.isDigit_whole]
  | some places =>
    have hplaces := n.isDigit_of_places hp
    simp [List.count_append, hnone n.isDigit_whole, hnone hplaces]

theorem numeric_text : n.text.Numeric := ⟨fun _ => n.isDigit_or_eq_of_mem, n.count_point_le⟩

/-- **Numerals** are the texts of digits with at most one point that have a character. -/
theorem exists_text_eq_iff {cs : Text} : (∃ n : Numeral, n.text = cs) ↔ cs ≠ [] ∧ cs.Numeric := by
  constructor
  · rintro ⟨n, rfl⟩
    exact ⟨n.text_ne_nil, n.numeric_text⟩
  · rintro ⟨hne, hclass, hcount⟩
    have hcs := leading_append_after cs
    have hwhole := isDigit_leading cs
    cases hafter : after cs with
    | nil =>
      rw [hafter, List.append_nil] at hcs
      exact ⟨⟨leading cs, none, by simpa using hwhole, .inl (by rwa [hcs])⟩, hcs⟩
    | cons c places =>
      rw [hafter] at hcs
      have hc : c = '.' := by
        have hdigit := noDigitAtStart_after cs
        rw [hafter, noDigitAtStart_cons] at hdigit
        have hmem : c ∈ cs := by
          rw [← hcs]
          exact List.mem_append_right _ List.mem_cons_self
        exact (hclass c hmem).resolve_left (by simp [hdigit])
      subst hc
      -- a second point would be one too many
      have hplaces : ∀ c ∈ places, c.isDigit = true := by
        intro c hc
        refine (hclass c ?_).resolve_right ?_
        · rw [← hcs]
          exact List.mem_append_right _ (List.mem_cons_of_mem _ hc)
        · rintro rfl
          have hpos := List.count_pos_iff.2 hc
          rw [← hcs, List.count_append, List.count_cons_self] at hcount
          omega
      exact ⟨⟨leading cs, some places, List.forall_mem_append.2 ⟨hwhole, hplaces⟩,
        .inr (Option.some_ne_none _)⟩, hcs⟩

end Numeral

namespace Decimal

/-! ## Values -/

/-- A number with the sign it was written with. -/
def signed (negative : Bool) (r : Rat) : Rat := if negative then -r else r

theorem scale_ne_zero (places : Text) : scale places ≠ 0 := Nat.ne_of_gt (Nat.pow_pos (by decide))

theorem scale_eq_tens {places : Text} (h : places.length < UInt32.size) :
    scale places = tens places.length :=
  congrArg tens (UInt32.toNat_ofNat_of_lt' h)

theorem toRat_ratio (negative : Bool) (whole places : Text) :
    (ratio negative whole places).toRat = signed negative (value whole places) := by
  have hne : (scale places : Int) ≠ 0 := Int.natCast_ne_zero.mpr (scale_ne_zero places)
  cases negative with
  | false => rfl
  | true =>
    rw [signed, if_pos rfl, value, ratio, ratio, Ratio.toRat_reduced hne, Ratio.toRat_reduced hne,
      Rat.neg_divInt]
    rfl

/-- **Values.** The digits behind the point are taken over the power of ten. -/
theorem value_eq_add (whole places : Text) :
    value whole places = toNat whole + toNat places / scale places := by
  have hint : (scale places : Int) ≠ 0 := Int.natCast_ne_zero.mpr (scale_ne_zero places)
  have hrat : (scale places : Rat) ≠ 0 := mt Rat.natCast_eq_zero_iff.mp (scale_ne_zero places)
  rw [value, ratio, Ratio.toRat_reduced hint, Rat.divInt_eq_div, if_neg Bool.false_ne_true]
  simp only [Rat.intCast_add, Rat.intCast_mul, Rat.intCast_natCast]
  rw [Rat.div_def, Rat.add_mul, ← Rat.div_def, Rat.mul_div_cancel hrat, ← Rat.div_def]

theorem value_nil (whole : Text) : value whole [] = toNat whole := by
  have hzero : ((toNat [] : Nat) : Rat) = 0 := rfl
  rw [value_eq_add, hzero, Rat.div_def, Rat.zero_mul, Rat.add_zero]

theorem toNat_replicate_zero (k : Nat) : toNat (List.replicate k '0') = 0 := by
  induction k with
  | zero => rfl
  | succ k ih =>
    rw [List.replicate_succ', toNat_append, ih, Nat.zero_mul]
    rfl

/-- Counting starts over: this many zeros behind the point make no difference. -/
theorem value_replicate_append (whole places : Text) :
    value whole (List.replicate UInt32.size '0' ++ places) = value whole places := by
  -- the count of the places is taken modulo the number of zeros
  have hscale : scale (List.replicate UInt32.size '0' ++ places) = scale places := by
    rw [scale, List.length_append, List.length_replicate, UInt32.toNat_ofNat', Nat.add_mod_left,
      ← UInt32.toNat_ofNat', scale]
  rw [value_eq_add, hscale, toNat_append, toNat_replicate_zero, Nat.zero_mul, Nat.zero_add,
    value_eq_add]

end Decimal

/-- **Readings** are exact for fewer than `2 ^ 32` places. -/
theorem Numeral.reading_eq_value (n : Numeral) (h : n.placeCount < UInt32.size) :
    n.reading = n.value := by
  have htens : ((tens n.placeCount : Nat) : Rat) = 10 ^ n.placeCount := Rat.natCast_pow 10 _
  rw [reading, Decimal.value_eq_add, Decimal.scale_eq_tens h, ← placeCount, htens, value]

namespace Decimal

/-! ## Reading -/

/-- The signs that may stand in front of a numeral, and none. -/
def signs : List Text := [[], ['+'], ['-']]

theorem splitSign_append {sign body : Text} (hsign : sign ∈ signs)
    (hbody : ∀ c ∈ body.head?, c ≠ '+' ∧ c ≠ '-') :
    splitSign (sign ++ body) = (decide (sign = ['-']), body) := by
  simp only [signs, List.mem_cons, List.not_mem_nil, or_false] at hsign
  obtain rfl | rfl | rfl := hsign
  · rw [List.nil_append]
    unfold splitSign
    split
    · exact absurd rfl (hbody '-' rfl).2
    · exact absurd rfl (hbody '+' rfl).1
    · rfl
  · rfl
  · rfl

theorem exists_sign (text : Text) : ∃ sign ∈ signs, text = sign ++ (splitSign text).2 := by
  unfold splitSign
  split
  · exact ⟨['-'], by decide, rfl⟩
  · exact ⟨['+'], by decide, rfl⟩
  · exact ⟨[], by decide, rfl⟩

theorem parts_append_text {sign : Text} (hsign : sign ∈ signs) (n : Numeral) :
    parts (sign ++ n.text) = .ok (decide (sign = ['-']), n.whole, n.places.getD []) := by
  have hbody : ∀ c ∈ n.text.head?, c ≠ '+' ∧ c ≠ '-' := by
    intro c hc
    obtain h | rfl := n.isDigit_or_eq_of_mem (List.mem_of_mem_head? hc)
    · constructor <;> rintro rfl <;> cases h
    · decide
  rw [parts, splitSign_append hsign hbody]
  unfold Numeral.text
  cases hp : n.places with
  | none =>
    have hne := n.ne_nil.resolve_right fun h => h hp
    simp [leading_eq_self n.isDigit_whole, after_eq_nil n.isDigit_whole, hne]
  | some places =>
    have hplaces := n.isDigit_of_places hp
    have hpoint : NoDigitAtStart ('.' :: places) := noDigitAtStart_cons.mpr rfl
    simp [leading_run n.isDigit_whole hpoint, after_run n.isDigit_whole hpoint,
      leading_eq_self hplaces, after_eq_nil hplaces]

theorem read_eq_ok {text whole places : Text} {negative : Bool}
    (h : parts text = .ok (negative, whole, places)) :
    read text = .ok (signed negative (value whole places)) := by
  rw [read, readRatio, h, ← toRat_ratio]
  rfl

theorem read_eq_error_iff {text : Text} {e : EvalError} :
    read text = .error e ↔ parts text = .error e := by
  rw [read, readRatio]
  cases parts text with
  | error e => constructor <;> intro h <;> cases h <;> rfl
  | ok p => exact iff_of_false nofun nofun

theorem read_append_text {sign : Text} (hsign : sign ∈ signs) (n : Numeral) :
    read (sign ++ n.text) = .ok (signed (sign = ['-']) n.reading) :=
  read_eq_ok (parts_append_text hsign n)

/-- What is read is a numeral behind its sign. -/
theorem exists_numeral_of_parts {text : Text} {p : Bool × Text × Text} (h : parts text = .ok p) :
    ∃ n : Numeral, n.text = (splitSign text).2 := by
  rw [parts] at h
  generalize splitSign text = p at h ⊢
  obtain ⟨negative, body⟩ := p
  have hsplit := leading_append_after body
  have hwhole := isDigit_leading body
  simp only at h
  split at h
  · next hafter =>
    split at h
    · cases h
    · next hne =>
      rw [hafter, List.append_nil] at hsplit
      exact ⟨⟨leading body, none, by simpa using hwhole, .inl hne⟩, hsplit⟩
  · next places hafter =>
    split at h
    · next hend =>
      have hplaces : ∀ c ∈ places, c.isDigit = true := by
        have hleading := leading_append_after places
        rw [hend, List.append_nil] at hleading
        rw [← hleading]
        exact isDigit_leading places
      rw [hafter] at hsplit
      exact ⟨⟨leading body, some places, List.forall_mem_append.2 ⟨hwhole, hplaces⟩,
        .inr (Option.some_ne_none _)⟩, hsplit⟩
    · cases h
  · cases h

/-- **Reading.** A text is read when it is a numeral behind at most one sign, and it is read as that
numeral with that sign. -/
theorem read_eq_ok_iff {text : Text} {r : Rat} :
    read text = .ok r ↔ ∃ sign ∈ signs, ∃ n : Numeral,
      text = sign ++ n.text ∧ r = signed (sign = ['-']) n.reading := by
  constructor
  · intro h
    obtain ⟨sign, hsign, htext⟩ := exists_sign text
    cases hparts : parts text with
    | error e =>
      rw [read_eq_error_iff.mpr hparts] at h
      cases h
    | ok p =>
      obtain ⟨n, hn⟩ := exists_numeral_of_parts hparts
      refine ⟨sign, hsign, n, by rw [hn, ← htext], ?_⟩
      rw [htext, ← hn, read_append_text hsign n] at h
      exact (Except.ok.inj h).symm
  · rintro ⟨sign, hsign, n, rfl, rfl⟩
    exact read_append_text hsign n

end Decimal

end ExactLength
