import Mathlib.Data.List.Basic
import ExactLength.Proofs.Number.Numeral

/-!
# Signed decimals

A signed decimal is a numeral behind at most one sign. The reader accepts these texts and no others,
with their exact values as long as the places can be counted. Every other text is refused at the
first character that no signed decimal goes on with: it is no digit, a point only if there is one
already, and a sign only if something stands before it. If there is no such character, nothing
stands behind the sign, or there is no text at all, and a value is missing at the end.

Results:
* `viable_iff`: what a signed decimal begins with.
* `viable_concat_iff`: the characters that it goes on with.
* `StopsAt.unique`: a text goes wrong in one place.
* `read_decides`: what is read of a text, or why and where it is refused.
-/

namespace ExactLength.Decimal

open Digits Text

/-- A numeral behind at most one sign. -/
def IsSigned (text : Text) : Prop := ∃ sign ∈ signs, ∃ n : Numeral, text = sign ++ n.text

/-- Some signed decimal begins like this. -/
def Viable (start : Text) : Prop := ∃ rest, IsSigned (start ++ rest)

/-- The character at `pos` is the first one that no signed decimal goes on with. -/
structure StopsAt (text : Text) (c : Char) (pos : Nat) : Prop where
  here : text[pos]? = some c
  before : Viable (text.take pos)
  beyond : ¬ Viable (text.take pos ++ [c])

variable {text start : Text} {c : Char} {pos : Nat}

/-! ## The start of a signed decimal -/

theorem IsSigned.viable (h : IsSigned text) : Viable text := ⟨[], by rwa [List.append_nil]⟩

theorem Viable.of_prefix {p : Text} (h : Viable start) (hp : p <+: start) : Viable p := by
  obtain ⟨rest, hrest⟩ := h
  obtain ⟨more, rfl⟩ := hp
  exact ⟨more ++ rest, by rwa [← List.append_assoc]⟩

theorem mem_signs_of_prefix {p sign : Text} (hsign : sign ∈ signs) (hp : p <+: sign) :
    p ∈ signs := by
  have all : signs.all (·.length ≤ 1) = true := by decide
  have hlength : sign.length ≤ 1 := of_decide_eq_true (List.all_eq_true.mp all sign hsign)
  by_cases hnil : p = []
  · rw [hnil]
    exact List.mem_cons_self
  · have hpos := List.length_pos_of_ne_nil hnil
    rwa [hp.eq_of_length_le (by omega)]

theorem point_notMem_sign {sign : Text} (h : sign ∈ signs) : '.' ∉ sign := by
  have all : signs.all (!·.contains '.') = true := by decide
  simpa using List.all_eq_true.mp all sign h

/-- **The start** of a signed decimal has a sign, or none, and behind it digits with at most one
point. -/
theorem viable_iff :
    Viable start ↔ ∃ sign ∈ signs, ∃ body : Text, start = sign ++ body ∧ body.Numeric := by
  constructor
  · rintro ⟨rest, sign, hsign, n, htext⟩
    have hprefix : start <+: sign ++ n.text := ⟨rest, htext⟩
    obtain hstart | ⟨body, rfl⟩ :=
      List.prefix_or_prefix_of_prefix hprefix (List.prefix_append sign n.text)
    · exact ⟨start, mem_signs_of_prefix hsign hstart, [], (List.append_nil _).symm, numeric_nil⟩
    · have hbody : body <+: n.text := (List.prefix_append_right_inj sign).mp hprefix
      exact ⟨sign, hsign, body, rfl, n.numeric_text.of_prefix hbody⟩
  · rintro ⟨sign, hsign, body, rfl, hbody⟩
    -- with one more digit the body is a numeral, also if it was empty
    have hdigit : Numeric (body ++ ['0']) := numeric_concat_iff.mpr ⟨hbody, .inl rfl⟩
    obtain ⟨n, hn⟩ := Numeral.exists_text_eq_iff.mpr
      ⟨List.append_ne_nil_of_right_ne_nil body (List.cons_ne_nil _ _), hdigit⟩
    exact ⟨['0'], sign, hsign, n, by rw [hn, List.append_assoc]⟩

theorem viable_of_mem_signs (h : text ∈ signs) : Viable text :=
  viable_iff.mpr ⟨text, h, [], (List.append_nil _).symm, numeric_nil⟩

/-- **Going on.** The start of a signed decimal goes on with a digit, with its first point, and with
a sign if nothing stands before it. -/
theorem viable_concat_iff (h : Viable start) :
    Viable (start ++ [c]) ↔
      c.isDigit = true ∨ (c = '.' ∧ '.' ∉ start) ∨ ((c = '+' ∨ c = '-') ∧ start = []) := by
  constructor
  · intro hviable
    obtain ⟨sign, hsign, body, htext, hbody⟩ := viable_iff.mp hviable
    rcases List.eq_nil_or_concat' body with rfl | ⟨body, d, rfl⟩
    · -- the last character is the sign itself
      have hsingle {d : Char} (h : start ++ [c] = [] ++ [d]) : start = [] ∧ c = d := by
        obtain ⟨hnil, hc⟩ := List.append_inj' h rfl
        exact ⟨hnil, List.head_eq_of_cons_eq hc⟩
      simp only [signs, List.mem_cons, List.not_mem_nil, or_false] at hsign
      rw [List.append_nil] at htext
      obtain rfl | rfl | rfl := hsign
      · exact absurd htext (List.append_ne_nil_of_right_ne_nil start (List.cons_ne_nil _ _))
      · exact .inr (.inr ⟨.inl (hsingle htext).2, (hsingle htext).1⟩)
      · exact .inr (.inr ⟨.inr (hsingle htext).2, (hsingle htext).1⟩)
    · rw [← List.append_assoc] at htext
      obtain ⟨rfl, hc⟩ := List.append_inj' htext rfl
      cases hc
      obtain hdigit | ⟨hpoint, hnot⟩ := (numeric_concat_iff.mp hbody).2
      · exact .inl hdigit
      · refine .inr (.inl ⟨hpoint, fun hmem => ?_⟩)
        obtain hmem | hmem := List.mem_append.mp hmem
        · exact point_notMem_sign hsign hmem
        · exact hnot hmem
  · obtain ⟨sign, hsign, body, rfl, hbody⟩ := viable_iff.mp h
    have hgo (hc : c.isDigit = true ∨ c = '.' ∧ '.' ∉ body) : Viable (sign ++ body ++ [c]) :=
      viable_iff.mpr ⟨sign, hsign, body ++ [c], List.append_assoc _ _ _,
        numeric_concat_iff.mpr ⟨hbody, hc⟩⟩
    rintro (hdigit | ⟨hpoint, hnot⟩ | ⟨hc, hnil⟩)
    · exact hgo (.inl hdigit)
    · exact hgo (.inr ⟨hpoint, fun hmem => hnot (List.mem_append_right _ hmem)⟩)
    · rw [hnil]
      refine viable_of_mem_signs ?_
      obtain rfl | rfl := hc <;> decide

/-! ## Where a text goes wrong -/

namespace StopsAt

/-- The text goes wrong behind a start that does not go on with its next character. -/
theorem of_append {rest : Text} (hstart : Viable start) (hdigit : c.isDigit = false)
    (hpoint : c = '.' → '.' ∈ start) (hsign : c = '+' ∨ c = '-' → start ≠ []) :
    StopsAt (start ++ c :: rest) c start.length where
  here := by rw [List.getElem?_append_right (Nat.le_refl _), Nat.sub_self, List.getElem?_cons_zero]
  before := by rwa [List.take_left]
  beyond := by
    rw [List.take_left, viable_concat_iff hstart]
    rintro (h | ⟨h, hnot⟩ | ⟨h, hnil⟩)
    · rw [hdigit] at h
      cases h
    · exact hnot (hpoint h)
    · exact hsign h hnil

/-- What is refused behind digits is no digit and no point, and no sign in front. -/
theorem behind_digits {sign whole rest : Text} (hsign : sign ∈ signs)
    (hwhole : ∀ d ∈ whole, d.isDigit = true) (hc : c.isDigit = false) (hpoint : c ≠ '.')
    (hfront : c = '+' ∨ c = '-' → sign ++ whole ≠ []) :
    StopsAt (sign ++ (whole ++ c :: rest)) c (sign ++ whole).length := by
  rw [← List.append_assoc]
  exact of_append (viable_iff.mpr ⟨sign, hsign, whole, rfl, numeric_of_digits hwhole⟩) hc
    (fun h => absurd h hpoint) hfront

/-- What is refused behind a point and digits is no digit; a second point is refused too. -/
theorem behind_point {sign whole places rest : Text} (hsign : sign ∈ signs)
    (hwhole : ∀ d ∈ whole, d.isDigit = true) (hplaces : ∀ d ∈ places, d.isDigit = true)
    (hc : c.isDigit = false) :
    StopsAt (sign ++ (whole ++ '.' :: (places ++ c :: rest))) c
      (sign ++ (whole ++ '.' :: places)).length := by
  let n : Numeral := ⟨whole, some places, List.forall_mem_append.mpr ⟨hwhole, hplaces⟩,
    .inr (Option.some_ne_none _)⟩
  have hmem : '.' ∈ sign ++ n.text := by simp [n, Numeral.text]
  have h : StopsAt (sign ++ n.text ++ c :: rest) c (sign ++ n.text).length :=
    of_append (viable_iff.mpr ⟨sign, hsign, n.text, rfl, n.numeric_text⟩) hc (fun _ => hmem)
      fun _ => List.ne_nil_of_mem hmem
  simpa [n, Numeral.text] using h

theorem char_eq (h : StopsAt text c pos) :
    c.isDigit = false ∧ (c = '.' → '.' ∈ text.take pos) ∧ (c = '+' ∨ c = '-' → pos ≠ 0) := by
  have hnot := (viable_concat_iff h.before).not.mp h.beyond
  simp only [not_or, not_and, Classical.not_not] at hnot
  obtain ⟨hdigit, hpoint, hsign⟩ := hnot
  refine ⟨Bool.eq_false_iff.mpr hdigit, hpoint, ?_⟩
  rintro hc rfl
  exact hsign hc rfl

theorem take_eq (h : StopsAt text c pos) : text.take (pos + 1) = text.take pos ++ [c] := by
  rw [List.take_add_one, h.here]
  rfl

theorem not_viable (h : StopsAt text c pos) : ¬ Viable text :=
  fun hviable => h.beyond (hviable.of_prefix (h.take_eq ▸ List.take_prefix _ _))

/-- **One place.** A text goes wrong in one place. -/
theorem unique {c' : Char} {pos' : Nat} (h : StopsAt text c pos) (h' : StopsAt text c' pos') :
    c = c' ∧ pos = pos' := by
  have hle {c c' : Char} {pos pos' : Nat} (h : StopsAt text c pos) (h' : StopsAt text c' pos') :
      pos' ≤ pos := by
    refine Nat.le_of_not_lt fun hlt => h.beyond (h'.before.of_prefix ?_)
    rw [← h.take_eq]
    exact List.take_prefix_take_left hlt
  obtain rfl : pos = pos' := Nat.le_antisymm (hle h' h) (hle h h')
  exact ⟨Option.some.inj (h.here.symm.trans h'.here), rfl⟩

end StopsAt

/-! ## Texts that are read -/

theorem exists_read_eq_ok_iff : (∃ r, read text = .ok r) ↔ IsSigned text := by
  constructor
  · rintro ⟨r, h⟩
    obtain ⟨sign, hsign, n, htext, -⟩ := read_eq_ok_iff.mp h
    exact ⟨sign, hsign, n, htext⟩
  · rintro ⟨sign, hsign, n, rfl⟩
    exact ⟨_, read_append_text hsign n⟩

theorem read_eq_ok_iff_of_length_lt (hlength : text.length < UInt32.size) {r : Rat} :
    read text = .ok r ↔
      ∃ sign ∈ signs, ∃ n : Numeral, text = sign ++ n.text ∧ r = signed (sign = ['-']) n.value := by
  rw [read_eq_ok_iff]
  refine exists_congr fun sign => and_congr_right fun _ => exists_congr fun n =>
    and_congr_right fun htext => ?_
  have hplaces : n.placeCount < UInt32.size := by
    have hle := n.placeCount_le
    rw [htext, List.length_append] at hlength
    omega
  rw [n.reading_eq_value hplaces]

/-! ## Refused texts -/

theorem head_of_splitSign_eq_self (text : Text) (h : (splitSign text).2 = text) :
    ∀ d ∈ text.head?, d ≠ '+' ∧ d ≠ '-' := by
  have hne {d : Char} {body : Text} : body ≠ d :: body := fun h => by
    have hlength := congrArg List.length h
    rw [List.length_cons] at hlength
    omega
  unfold splitSign at h
  split at h
  · exact absurd h hne
  · exact absurd h hne
  · next hminus hplus =>
    intro d hd
    obtain ⟨body, rfl⟩ := List.head?_eq_some_iff.mp hd
    exact ⟨fun hc => hplus body (by rw [hc]), fun hc => hminus body (by rw [hc])⟩

/-- A text that is not read goes wrong at a character, or ends before its value. -/
theorem stops_of_read_eq_error {e : EvalError} (h : read text = .error e) :
    (text ∈ signs ∧ e = .malformed none text.length) ∨
      ∃ c pos, StopsAt text c pos ∧ e = .invalidCharacter c pos := by
  obtain ⟨sign, hsign, htext⟩ := exists_sign text
  have hfirst := head_of_splitSign_eq_self text
  rw [read_eq_error_iff, parts] at h
  generalize splitSign text = p at h htext hfirst
  obtain ⟨negative, body⟩ := p
  simp only at h htext hfirst
  have hbody := leading_append_after body
  split at h
  · next hafter =>
    split at h
    · next hnil =>
      cases h
      rw [← hbody, hafter, hnil, List.append_nil, List.append_nil] at htext
      exact .inl ⟨htext ▸ hsign, rfl⟩
    · cases h
  · next places hafter =>
    split at h
    · cases h
    · next c rest hrest =>
      cases h
      have hc : c.isDigit = false := noDigitAtStart_cons.mp (hrest ▸ noDigitAtStart_after places)
      have hcut : text = sign ++ (leading body ++ '.' :: (leading places ++ c :: rest)) := by
        rw [← hrest, leading_append_after, ← hafter, hbody, htext]
      rw [hcut]
      refine .inr ⟨c, _, .behind_point hsign (isDigit_leading _) (isDigit_leading _) hc, ?_⟩
      congr 1
      simp only [List.length_append, List.length_cons]
      omega
  · next c rest hpoint hafter =>
    cases h
    have hc : c.isDigit = false := noDigitAtStart_cons.mp (hafter ▸ noDigitAtStart_after body)
    have hcut : text = sign ++ (leading body ++ c :: rest) := by rw [← hafter, hbody, htext]
    -- a sign in front would have been split off
    have hfront : c = '+' ∨ c = '-' → sign ++ leading body ≠ [] := by
      intro hc' hnil
      obtain ⟨hnil, hwhole⟩ := List.append_eq_nil_iff.mp hnil
      rw [hnil, List.nil_append] at htext
      rw [hnil, hwhole, List.nil_append, List.nil_append] at hcut
      have hne := hfirst htext.symm c (by rw [hcut]; rfl)
      exact hc'.elim hne.1 hne.2
    rw [hcut]
    refine .inr ⟨c, _, .behind_digits hsign (isDigit_leading _) hc hpoint hfront, ?_⟩
    congr 1
    simp only [List.length_append, List.length_cons]
    omega

/-- **Reading decides.** A text is read when it is a numeral behind at most one sign, and a text of
fewer than `2 ^ 32` characters as the exact value of the numeral with that sign. A text with nothing
behind the sign has no value at its end. Any other text is refused at the first character that no
signed decimal goes on with, which is no digit, no first point and no sign in front. -/
theorem read_decides (text : Text) :
    ((∃ r, read text = .ok r) ↔ IsSigned text) ∧
    (text.length < UInt32.size → ∀ r, read text = .ok r ↔
      ∃ sign ∈ signs, ∃ n : Numeral, text = sign ++ n.text ∧ r = signed (sign = ['-']) n.value) ∧
    (∀ e, read text = .error e ↔
      (text ∈ signs ∧ e = .malformed none text.length) ∨
        ∃ c pos, StopsAt text c pos ∧ e = .invalidCharacter c pos) ∧
    ∀ c pos, StopsAt text c pos →
      c.isDigit = false ∧ (c = '.' → '.' ∈ text.take pos) ∧ (c = '+' ∨ c = '-' → pos ≠ 0) := by
  refine ⟨exists_read_eq_ok_iff, fun hlength r => read_eq_ok_iff_of_length_lt hlength,
    fun e => ⟨stops_of_read_eq_error, ?_⟩, fun c pos => StopsAt.char_eq⟩
  rintro (⟨hsign, rfl⟩ | ⟨c, pos, hstops, rfl⟩)
  · simp only [signs, List.mem_cons, List.not_mem_nil, or_false] at hsign
    obtain rfl | rfl | rfl := hsign <;> rfl
  · cases hread : read text with
    | ok r =>
      have hsigned : IsSigned text := exists_read_eq_ok_iff.mp ⟨r, hread⟩
      exact absurd hsigned.viable hstops.not_viable
    | error e =>
      obtain ⟨hsign, -⟩ | ⟨c', pos', hstops', rfl⟩ := stops_of_read_eq_error hread
      · exact absurd (viable_of_mem_signs hsign) hstops.not_viable
      · obtain ⟨rfl, rfl⟩ := hstops.unique hstops'
        rfl

/-- `-.5` is minus one half. -/
theorem read_decides_half :
    ['-', '.', '5'].length < UInt32.size ∧ read ['-', '.', '5'] = .ok (-1 / 2) := by
  have hlength : ['-', '.', '5'].length < UInt32.size := by decide
  let n : Numeral := ⟨[], some ['5'], List.all_eq_true.mp (by decide), .inr nofun⟩
  have hvalue : -1 / 2 = signed (['-'] = ['-']) n.value := by decide +kernel
  exact ⟨hlength, ((read_decides _).2.1 hlength _).mpr ⟨['-'], by decide, n, rfl, hvalue⟩⟩

end ExactLength.Decimal
