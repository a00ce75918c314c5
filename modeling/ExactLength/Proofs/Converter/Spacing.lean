import ExactLength.Converter.Window
import ExactLength.Proofs.Length.Spelling

/-!
# The spaces of the keypad

The keys add spaces around what they insert and take spaces away, so that expressions stay legible.
Only spaces that part nothing come and go: what is typed is worth what the plain signs of its keys,
written one after the other, are worth. The spaces of the space key itself are kept wherever they
part something, and a stroke is inserted without any.

Results:
* `Key.insert_interchangeable`: one key, in any entry.
* `Key.foldl_insert_interchangeable`: a series of keys.
* `Length.digest_ofText_of_respaced`: blanks that part nothing do not change what a text is worth.
* `Converter.ofText_typed`: the length of what is typed, with a unit or without.
-/

namespace ExactLength

open Text

namespace Key

/-- A key that inserts a unit. -/
def isUnit : Key → Bool
  | unit _ => true
  | _ => false

/-- Some keys, and the key of a unit behind them if there is one. -/
def withUnit (keys : List Key) (u : Option LengthUnit) : List Key := keys ++ (u.map unit).toList

/-- The signs of a series of keys, without the spaces that the keypad adds. -/
def plain (keys : List Key) : Text := keys.flatMap text

/-! ## One key -/

theorem admitted_text {key : Key} (h : key.isUnit = false) : key.text.Admitted := by
  cases key with
  | unit u => cases h
  | digit d => exact admitted_of_digits fun _ => Digits.isDigit_of_mem_ofNat
  | operator o => cases o <;> exact List.all_eq_true.1 (by decide)
  | openParen | closeParen | point | space => exact List.all_eq_true.1 (by decide)

theorem exists_dropTrailingSpaces (entry : Text) :
    ∃ g : Text, g.Blank ∧ entry = entry.dropTrailingSpaces ++ g := by
  obtain ⟨g, hg, h⟩ := exists_dropTrailing_append (· == ' ') entry
  exact ⟨g, fun c hc => by rw [eq_of_beq (hg c hc)]; rfl, h⟩

/-- In front of an operator the spaces at the end of the entry become one, or none if nothing else
was typed. -/
theorem exists_gapAfter (entry : Text) :
    ∃ g : Text, g.Blank ∧ gapAfter entry = entry.dropTrailingSpaces ++ g := by
  unfold gapAfter
  split
  · next h => exact ⟨[], blank_nil, by rw [h, List.append_nil]⟩
  · exact ⟨[' '], List.forall_mem_singleton.2 rfl, rfl⟩

/-- **One key.** It inserts its text; the spaces that it adds or takes away part nothing. -/
theorem insert_interchangeable {key : Key} (h : key.isUnit = false) (entry : Text) :
    Interchangeable (key.insert entry) (entry ++ key.text) := by
  obtain ⟨g, hg, hentry⟩ := exists_dropTrailingSpaces entry
  -- the end of the entry is written anew, with other spaces
  have hend {g' : Text} (hg' : g'.Blank) {c : Char} (hc : standsAlone c = true) :
      Interchangeable (entry.dropTrailingSpaces ++ g' ++ [c]) (entry ++ [c]) := by
    have hanew := Interchangeable.blanks_alone entry.dropTrailingSpaces hg' hg hc
    rwa [← hentry] at hanew
  have hoperator {o : Operator} (ho : standsAlone o.symbol = true) :
      Interchangeable (gapAfter entry ++ [o.symbol] ++ [' ']) (entry ++ [o.symbol]) := by
    obtain ⟨g', hg', hgap⟩ := exists_gapAfter entry
    rw [hgap]
    exact (Interchangeable.alone_space _ ho).trans (hend hg' ho)
  cases key with
  | unit u => cases h
  | digit _ | point | space => exact .refl _
  | closeParen =>
    have hclose := hend blank_nil (c := ')') (by decide)
    rwa [List.append_nil] at hclose
  | openParen =>
    have hspace : Blank [' '] := List.forall_mem_singleton.2 rfl
    have hopen := Interchangeable.blanks_alone entry hspace blank_nil (c := '(') (by decide)
    rw [List.append_nil] at hopen
    show Interchangeable ((if needsGap entry then entry ++ [' '] else entry) ++ ['('])
      (entry ++ ['('])
    split
    · exact hopen
    · exact .refl _
  | operator o =>
    cases o with
    | div => exact .refl _
    | add | sub | mul => exact hoperator (by decide)

/-! ## A series of keys -/

/-- **A series of keys.** The entry and the plain signs of the keys can stand for each other. -/
theorem foldl_insert_interchangeable {keys : List Key} (h : ∀ key ∈ keys, key.isUnit = false)
    (entry : Text) : Interchangeable (keys.foldl insert entry) (entry ++ plain keys) := by
  induction keys generalizing entry with
  | nil =>
    rw [plain, List.flatMap_nil, List.append_nil]
    exact .refl _
  | cons key keys ih =>
    obtain ⟨hkey, hkeys⟩ := List.forall_mem_cons.1 h
    have hrest := (insert_interchangeable hkey entry).append (plain keys)
    rw [List.append_assoc, plain, ← List.flatMap_cons, ← plain, ← plain] at hrest
    exact (ih hkeys (key.insert entry)).trans hrest

theorem admitted_plain {keys : List Key} (h : ∀ key ∈ keys, key.isUnit = false) :
    (plain keys).Admitted := by
  intro c hc
  obtain ⟨key, hkey, hmem⟩ := List.mem_flatMap.1 hc
  exact admitted_text (h key hkey) c hmem

end Key

/-! ## Lengths -/

/-- The error as it is reported at the start of a text. -/
def LengthError.unplaced : LengthError → LengthError
  | calculation e => calculation e.unplaced
  | e => e

/-- Errors of one kind about the same unit, character or token, at any two positions. -/
def LengthError.Alike (e e' : LengthError) : Prop := e.unplaced = e'.unplaced

namespace Length

/-- What a length tells, but for positions and the text with its mixed numbers written out. -/
def digest (r : Except LengthError Length) : Except LengthError (Rat × LengthUnit × Text × Text) :=
  (r.map fun l => (l.value, l.unit, l.working.tokens, l.working.tree)).mapError LengthError.unplaced

theorem digest_measure {x y : Text} (h : Respaced x y) (unit : LengthUnit) :
    digest (measure x.collapse unit) = digest (measure y.collapse unit) := by
  have hmeasure (number : Text) : digest (measure number unit) =
      match ExactLength.digest (explain number) with
      | .ok (value, tokens, tree) => .ok (value, unit, tokens, tree)
      | .error e => .error (.calculation e) := by
    rw [measure]
    cases explain number <;> rfl
  rw [hmeasure, hmeasure, digest_explain_collapse, digest_explain_collapse,
    digest_explain_of_respaced h]

/-- The unit at the end of a text, if there is one. -/
def unitText (unit : Option LengthUnit) : Text := (unit.map LengthUnit.symbol).getD []

/-- **Blanks that part nothing** do not change what a text of admitted characters is worth, with a
unit behind it or without. -/
theorem digest_ofText_of_respaced {x y : Text} (h : Respaced x y) (hx : x.Admitted)
    (unit : Option LengthUnit) :
    digest (ofText (x ++ unitText unit)) = digest (ofText (y ++ unitText unit)) := by
  have hsolid := h.solid_eq
  have hy := hx.of_solid hsolid
  have hblank : x.Blank ↔ y.Blank := by rw [blank_iff_solid, blank_iff_solid, hsolid]
  cases unit with
  | none =>
    -- the signs of an expression are no blanks
    have hsign : ∀ c, isExpressionSign c = true → isBlank c = false := by
      intro c hc
      have all : ['+', '-', '*', '/', '(', ')'].all (!isBlank ·) = true := by decide
      simpa using List.all_eq_true.1 all c (List.contains_iff_mem.1 hc)
    have hany : x.collapse.any isExpressionSign = y.collapse.any isExpressionSign := by
      rw [← any_solid hsign, ← any_solid hsign y.collapse, (Respaced.collapse x).solid_eq,
        (Respaced.collapse y).solid_eq, hsolid]
    have hmeasure := digest_measure h .inch
    rw [unitText, Option.map_none, Option.getD_none, List.append_nil, List.append_nil,
      ofText_admitted hx, ofText_admitted hy]
    simp only [hblank, ofParts, hany]
    split
    · rfl
    · split
      · exact hmeasure
      · rfl
  | some u =>
    have hu : LengthUnit.Spells u u.symbol := by
      cases u with
      | inch => exact .mark (by decide)
      | millimetre | centimetre | metre => exact .name (by decide)
    rw [unitText, Option.map_some, Option.getD_some]
    by_cases hxb : x.Blank
    · rw [ofText_blank_append_suffix hxb hu.mem_suffixes rfl,
        ofText_blank_append_suffix (hblank.mp hxb) hu.mem_suffixes rfl]
    · have hyb := mt hblank.mpr hxb
      rw [ofText_append_suffix hx hxb hu.mem_suffixes rfl,
        ofText_append_suffix hy hyb hu.mem_suffixes rfl]
      exact digest_measure h u

end Length

/-! ## The converter -/

namespace Converter

/-- What stands in the entry of a new window after a series of keys was pressed. -/
def typed (keys : List Key) : Text := (run (keys.map fun key => .press (.insert key))).entry

theorem typed_eq_foldl (keys : List Key) : typed keys = keys.foldl Key.insert [] := by
  have hentry (s : Converter) : ((keys.map fun key => Event.press (.insert key)).foldl step s).entry =
      keys.foldl Key.insert s.entry := by
    induction keys generalizing s with
    | nil => rfl
    | cons key keys ih => exact ih (s.step (.press (.insert key)))
  exact hentry initial

theorem plain_withUnit (keys : List Key) (unit : Option LengthUnit) :
    Key.plain (Key.withUnit keys unit) = Key.plain keys ++ Length.unitText unit := by
  cases unit <;> simp [Key.plain, Key.withUnit, Length.unitText, Key.text]

/-- A unit takes the place of the spaces at the end of the entry. -/
theorem typed_withUnit (keys : List Key) (unit : Option LengthUnit) :
    ∃ number : Text, Respaced (typed keys) number ∧
      typed (Key.withUnit keys unit) = number ++ Length.unitText unit := by
  cases unit with
  | none => exact ⟨typed keys, rfl, by simp [Key.withUnit, Length.unitText]⟩
  | some u =>
    obtain ⟨g, hg, hentry⟩ := Key.exists_dropTrailingSpaces (typed keys)
    refine ⟨(typed keys).dropTrailingSpaces, ?_, ?_⟩
    · have hrespaced := Respaced.append_blank (typed keys).dropTrailingSpaces hg
      rwa [← hentry] at hrespaced
    · rw [Key.withUnit, typed_eq_foldl, List.foldl_append, ← typed_eq_foldl]
      rfl

/-- The length of what was typed has the digest of the plain signs. -/
theorem digest_ofText_typed {keys : List Key} (hkeys : ∀ key ∈ keys, key.isUnit = false)
    (unit : Option LengthUnit) :
    Length.digest (Length.ofText (typed (Key.withUnit keys unit))) =
      Length.digest (Length.ofText (Key.plain (Key.withUnit keys unit))) := by
  obtain ⟨number, hnumber, htyped⟩ := typed_withUnit keys unit
  have hplain : Respaced (typed keys) (Key.plain keys) := by
    rw [typed_eq_foldl]
    exact (Key.foldl_insert_interchangeable hkeys []).respaced
  have hrespaced : Respaced (Key.plain keys) number := hplain.symm.trans hnumber
  rw [htyped, plain_withUnit]
  exact (Length.digest_ofText_of_respaced hrespaced (Key.admitted_plain hkeys) unit).symm

/-- **The spaces of the keypad do not count.** For every series of keys, with a unit at its end or
without, what stands in the entry and the plain signs of the keys are both a length or both none. If
they are, it is the same length in the same unit, and its tokens and its tree are shown alike; if
not, they fail with the same error, but for its position. -/
theorem ofText_typed {keys : List Key} (hkeys : ∀ key ∈ keys, key.isUnit = false)
    (unit : Option LengthUnit) :
    (∃ l l', Length.ofText (typed (Key.withUnit keys unit)) = .ok l ∧
      Length.ofText (Key.plain (Key.withUnit keys unit)) = .ok l' ∧
      l.millimetres = l'.millimetres ∧ l.inches? = l'.inches? ∧ l.unit = l'.unit ∧
      l.working.tokens = l'.working.tokens ∧ l.working.tree = l'.working.tree) ∨
    (∃ e e', Length.ofText (typed (Key.withUnit keys unit)) = .error e ∧
      Length.ofText (Key.plain (Key.withUnit keys unit)) = .error e' ∧ e.Alike e') := by
  obtain ⟨l, l', h, h', hdigest⟩ | herror := exists_of_shown_eq (digest_ofText_typed hkeys unit)
  · simp only [Prod.mk.injEq] at hdigest
    obtain ⟨hvalue, hunit, htokens, htree⟩ := hdigest
    have hinches : l.inches? = l'.inches? := by rw [Length.inches?, Length.inches?, hvalue, hunit]
    have hmm : l.millimetres = l'.millimetres := by
      rw [Length.millimetres, Length.millimetres, hvalue, hunit]
    exact .inl ⟨l, l', h, h', hmm, hinches, hunit, htokens, htree⟩
  · exact .inr herror

/-- The keys of `(1+2)*3/8mm` fill the entry with `(1 + 2) * 3/8mm`, which is 9/8 mm either way. -/
theorem ofText_typed_product : ∃ pressed : List Key,
    typed pressed = .ofString "(1 + 2) * 3/8mm" ∧ Key.plain pressed = .ofString "(1+2)*3/8mm" ∧
    ∃ l l', Length.ofText (typed pressed) = .ok l ∧ Length.ofText (Key.plain pressed) = .ok l' ∧
      l.millimetres = 9 / 8 ∧ l'.millimetres = 9 / 8 ∧ l.working.tree = l'.working.tree := by
  let keys : List Key := [.openParen, .digit 1, .operator .add, .digit 2, .closeParen,
    .operator .mul, .digit 3, .operator .div, .digit 8]
  have hkeys : ∀ key ∈ keys, key.isUnit = false := by decide
  have htyped : typed (Key.withUnit keys (some .millimetre)) = .ofString "(1 + 2) * 3/8mm" := by
    decide +kernel
  have hplain : Key.plain (Key.withUnit keys (some .millimetre)) = .ofString "(1+2)*3/8mm" := by
    decide +kernel
  have hvalue : (Length.ofText (.ofString "(1 + 2) * 3/8mm")).map Length.millimetres =
      .ok (9 / 8) := by
    decide +kernel
  refine ⟨_, htyped, hplain, ?_⟩
  rw [← htyped] at hvalue
  obtain ⟨l, l', hl, hl', hmm, -, -, -, htree⟩ | ⟨e, e', he, -⟩ :=
    ofText_typed hkeys (some .millimetre)
  · rw [hl] at hvalue
    have hvalue : l.millimetres = 9 / 8 := Except.ok.inj hvalue
    exact ⟨l, l', hl, hl', hvalue, hmm.symm.trans hvalue, htree⟩
  · rw [he] at hvalue
    cases hvalue

end Converter

end ExactLength
