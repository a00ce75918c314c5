import ExactLength.Converter.Window
import ExactLength.Proofs.Text.Ends

/-!
# Deleting what was inserted

The key that deletes takes back what the key before it inserted. Spaces at the end of the entry are
lost on the way. There is one exception: behind an `m` or a `c` the metre makes a unit word of the
two letters, and the word is deleted as a whole.

Results:
* `exists_deleteLast_eq`: what is deleted stands at the end, and is never nothing.
* `exists_insert_eq`: a key inserts its text and changes no more than spaces in front of it.
* `deleteLast_insert`, `deleteLast_insert_metre_iff`: what is left of an insertion.
* `Converter.delete_insert`: the same at the buttons.
-/

namespace ExactLength

open Text

namespace Key

/-! ## Deletion -/

theorem eq_of_suffix_unitWord : ∀ v ∈ unitWords, ∀ w ∈ unitWords, v <:+ w → v = w := by
  decide

theorem unitWords_pairwise : unitWords.Pairwise fun v w => ¬ id v <:+ id w := by
  decide

theorem longestEnd_append {n w : Text} (hw : w ∈ unitWords) :
    LongestEnd id unitWords (n ++ w) w := by
  refine ⟨hw, List.suffix_append n w, fun v hv hends => ?_⟩
  obtain hle | hle := Nat.le_total v.length w.length
  · exact hle
  · have hsuffix := List.suffix_of_suffix_length_le (List.suffix_append n w) hends hle
    rw [eq_of_suffix_unitWord w hw v hv hsuffix]

theorem deleteLast_word {entry n w : Text} (hw : w ∈ unitWords)
    (h : entry.dropTrailingSpaces = n ++ w) : deleteLast entry = n.dropTrailingSpaces := by
  have hfound : unitWords.findSome? (·.isSuffixOf? (n ++ w)) = some n := by
    have hlongest := (longestEnd_append (n := n) hw).findSome?_eq unitWords_pairwise
      (g := fun _ n => n)
    simpa using hlongest
  rw [deleteLast, h, hfound]

theorem deleteLast_character {entry : Text}
    (h : ∀ w ∈ unitWords, ¬ w <:+ entry.dropTrailingSpaces) :
    deleteLast entry = dropTrailingSpaces entry.dropTrailingSpaces.dropLast := by
  have hnone : unitWords.findSome? (·.isSuffixOf? entry.dropTrailingSpaces) = none := by
    have hwords := findSome?_isSuffixOf?_eq_none_iff (f := id) (g := fun _ n => n).2 h
    simpa using hwords
  rw [deleteLast, hnone]

/-- Spaces at the end do not count. -/
theorem deleteLast_append_spaces (entry : Text) {g : Text} (hg : ∀ c ∈ g, c = ' ') :
    deleteLast (entry ++ g) = deleteLast entry := by
  rw [deleteLast, deleteLast, dropTrailingSpaces_append_of_spaces entry hg]

/-- **Deletion.** Something at the end is cut off, and then the spaces in front of it. -/
theorem exists_deleteLast_eq (entry : Text) :
    ∃ n g : Text, entry = n ++ g ∧ (entry ≠ [] → g ≠ []) ∧
      deleteLast entry = n.dropTrailingSpaces := by
  obtain ⟨g, -, hentry⟩ := exists_dropTrailing_append (· == ' ') entry
  rw [← dropTrailingSpaces] at hentry
  obtain hno | ⟨n, w, hn, hw⟩ := none_or_longestEnd unitWords_pairwise entry.dropTrailingSpaces
  · obtain hnil | ⟨n, c, hn⟩ := List.eq_nil_or_concat' entry.dropTrailingSpaces
    · refine ⟨[], entry, rfl, id, ?_⟩
      rw [deleteLast_character hno, hnil, List.dropLast_nil]
    · refine ⟨n, c :: g, ?_, fun _ => List.cons_ne_nil c g, ?_⟩
      · rw [← List.singleton_append, ← List.append_assoc, ← hn, ← hentry]
      · rw [deleteLast_character hno, hn, List.dropLast_concat]
  · have hne : ∀ w ∈ unitWords, w ≠ [] := by decide
    refine ⟨n, w ++ g, ?_, fun _ => List.append_ne_nil_of_left_ne_nil (hne w hw.mem) g,
      deleteLast_word hw.mem hn⟩
    rw [id_eq] at hn
    rw [← List.append_assoc, ← hn, ← hentry]

theorem deleteLast_starts (entry : Text) : deleteLast entry <+: entry := by
  obtain ⟨n, g, hentry, -, hdelete⟩ := exists_deleteLast_eq entry
  rw [hdelete]
  exact (dropTrailing_starts _ n).trans ⟨g, hentry.symm⟩

theorem getLast?_deleteLast (entry : Text) : (deleteLast entry).getLast? ≠ some ' ' := by
  obtain ⟨n, g, -, -, hdelete⟩ := exists_deleteLast_eq entry
  rw [hdelete]
  exact getLast?_dropTrailingSpaces n

theorem length_deleteLast_lt {entry : Text} (h : entry ≠ []) :
    (deleteLast entry).length < entry.length := by
  obtain ⟨n, g, hentry, hg, hdelete⟩ := exists_deleteLast_eq entry
  have hpos := List.length_pos_iff.2 (hg h)
  have hle := length_dropTrailingSpaces_le n
  rw [hdelete, congrArg List.length hentry, List.length_append]
  omega

/-! ## Insertion and deletion -/

/-- **Insertion.** A key inserts its text, and spaces behind it; in front of it the entry loses or
gains no more than spaces. -/
theorem exists_insert_eq (key : Key) (entry : Text) :
    ∃ n g : Text, key.insert entry = n ++ key.text ++ g ∧ (∀ c ∈ g, c = ' ') ∧
      n.dropTrailingSpaces = entry.dropTrailingSpaces := by
  have hspace : ∀ c ∈ [' '], c = ' ' := List.forall_mem_singleton.2 rfl
  have hkept : dropTrailingSpaces entry.dropTrailingSpaces = entry.dropTrailingSpaces :=
    dropTrailingSpaces_eq_self (getLast?_dropTrailingSpaces entry)
  have hbehind {n : Text} (h : n.dropTrailingSpaces = entry.dropTrailingSpaces) :
      ∃ n' g : Text, n ++ key.text = n' ++ key.text ++ g ∧ (∀ c ∈ g, c = ' ') ∧
        n'.dropTrailingSpaces = entry.dropTrailingSpaces :=
    ⟨n, [], (List.append_nil _).symm, List.forall_mem_nil _, h⟩
  have hgap : (gapAfter entry).dropTrailingSpaces = entry.dropTrailingSpaces := by
    unfold gapAfter
    split
    · next hnil => rw [hnil]; rfl
    · rw [dropTrailingSpaces_append_of_spaces _ hspace, hkept]
  cases key with
  | closeParen | unit _ => exact hbehind hkept
  | openParen =>
    refine hbehind ?_
    split
    · exact dropTrailingSpaces_append_of_spaces entry hspace
    · rfl
  | operator o =>
    cases o with
    | div => exact hbehind rfl
    | add | sub | mul => exact ⟨gapAfter entry, [' '], rfl, hspace, hgap⟩
  | digit _ | point | space => exact hbehind rfl

/-- Each key but that of the metre inserts a unit word, or one character that is no letter. -/
theorem text_cases {key : Key} (hspace : key ≠ .space) (hmetre : key ≠ .unit .metre) :
    key.text ∈ unitWords ∨ ∃ c, key.text = [c] ∧ c ≠ ' ' ∧ c.isAlpha = false := by
  cases key with
  | openParen => exact .inr ⟨'(', rfl, by decide, by decide⟩
  | closeParen => exact .inr ⟨')', rfl, by decide, by decide⟩
  | operator o => exact .inr ⟨o.symbol, rfl, by cases o <;> decide, by cases o <;> decide⟩
  | unit u =>
    cases u with
    | millimetre => exact .inl (by decide)
    | centimetre => exact .inl (by decide)
    | metre => exact absurd rfl hmetre
    | inch => exact .inr ⟨'"', rfl, by decide, by decide⟩
  | digit d =>
    have all : ∀ d : Fin 10, Nat.digitChar d ≠ ' ' ∧ (Nat.digitChar d).isAlpha = false := by decide
    exact .inr ⟨Nat.digitChar d, Nat.toDigits_of_lt_base d.isLt, all d⟩
  | point => exact .inr ⟨'.', rfl, by decide, by decide⟩
  | space => exact absurd rfl hspace

theorem exists_unitWord_eq {w : Text} (hw : w ∈ unitWords) :
    ∃ v c, w = v ++ [c] ∧ c.isAlpha = true := by
  have all : unitWords.all (fun w => w.getLast?.any Char.isAlpha) = true := by decide
  have hlast := List.all_eq_true.1 all w hw
  obtain rfl | ⟨v, c, rfl⟩ := List.eq_nil_or_concat' w
  · cases hlast
  · exact ⟨v, c, rfl, by simpa using hlast⟩

theorem dropTrailingSpaces_append_unitWord (n : Text) {w : Text} (hw : w ∈ unitWords) :
    (n ++ w).dropTrailingSpaces = n ++ w := by
  obtain ⟨v, c, rfl, halpha⟩ := exists_unitWord_eq hw
  refine dropTrailingSpaces_eq_self fun hspace => ?_
  rw [← List.append_assoc, List.getLast?_concat, Option.some.injEq] at hspace
  rw [hspace] at halpha
  cases halpha

/-- The last character of a text that ends with a unit word is the last letter of the word. -/
theorem exists_of_unitWord_suffix {n w : Text} {c : Char} (hw : w ∈ unitWords)
    (h : w <:+ n ++ [c]) : c.isAlpha = true ∧ ∃ v, w = v ++ [c] ∧ v <:+ n := by
  obtain ⟨v, d, rfl, halpha⟩ := exists_unitWord_eq hw
  obtain ⟨u, hu⟩ := h
  rw [← List.append_assoc] at hu
  obtain ⟨rfl, hd⟩ := List.append_inj' hu rfl
  cases hd
  exact ⟨halpha, v, rfl, u, rfl⟩

theorem deleteLast_concat {n : Text} {c : Char} (hc : c ≠ ' ')
    (hno : ∀ w ∈ unitWords, ¬ w <:+ n ++ [c]) :
    deleteLast (n ++ [c]) = n.dropTrailingSpaces := by
  have hkept : (n ++ [c]).dropTrailingSpaces = n ++ [c] :=
    dropTrailingSpaces_eq_self (by simpa using hc)
  rw [deleteLast_character (by rwa [hkept]), hkept, List.dropLast_concat]

/-- **Taken back.** After every key but the space and the metre, deletion leaves the entry without
the spaces at its end. -/
theorem deleteLast_insert {key : Key} (hspace : key ≠ .space) (hmetre : key ≠ .unit .metre)
    (entry : Text) : deleteLast (key.insert entry) = entry.dropTrailingSpaces := by
  obtain ⟨n, g, hinsert, hg, hn⟩ := exists_insert_eq key entry
  rw [hinsert, deleteLast_append_spaces _ hg, ← hn]
  obtain hword | ⟨c, hc, hcspace, halpha⟩ := text_cases hspace hmetre
  · exact deleteLast_word hword (dropTrailingSpaces_append_unitWord n hword)
  · rw [hc]
    refine deleteLast_concat hcspace fun w hw hends => ?_
    rw [(exists_of_unitWord_suffix hw hends).1] at halpha
    cases halpha

/-- **The exception.** The metre is not taken back where it makes a unit word with the letter in
front of it, and only there. -/
theorem deleteLast_insert_metre_iff (entry : Text) :
    deleteLast ((unit .metre).insert entry) = entry.dropTrailingSpaces ↔
      ¬ (entry.dropTrailingSpaces.getLast? = some 'm' ∨
        entry.dropTrailingSpaces.getLast? = some 'c') := by
  have hinsert : (unit .metre).insert entry = entry.dropTrailingSpaces ++ ['m'] := rfl
  have hkept := dropTrailingSpaces_eq_self (getLast?_dropTrailingSpaces entry)
  rw [hinsert]
  generalize entry.dropTrailingSpaces = t at hkept ⊢
  have hfused {d : Char} (hd : [d, 'm'] ∈ unitWords) (hlast : t.getLast? = some d) :
      deleteLast (t ++ ['m']) ≠ t := by
    obtain ⟨n, rfl⟩ := List.getLast?_eq_some_iff.1 hlast
    have hword := dropTrailingSpaces_append_unitWord n hd
    rw [List.append_assoc, List.singleton_append, deleteLast_word hd hword]
    intro h
    have hle := length_dropTrailingSpaces_le n
    rw [h, List.length_append, List.length_singleton] at hle
    omega
  constructor
  · rintro h (hlast | hlast)
    · exact hfused (by decide) hlast h
    · exact hfused (by decide) hlast h
  · intro h
    rw [deleteLast_concat (by decide) fun w hw hends => h ?_, hkept]
    have hmetres : ∀ w ∈ unitWords, w.getLast? = some 'm' → w = ['m', 'm'] ∨ w = ['c', 'm'] := by
      decide
    obtain ⟨-, v, rfl, u, rfl⟩ := exists_of_unitWord_suffix hw hends
    have hrest {d : Char} (hd : v ++ ['m'] = [d] ++ ['m']) : v = [d] := List.append_cancel_right hd
    obtain hv | hv := hmetres _ hw (by simp)
    · exact .inl (by simp [hrest hv])
    · exact .inr (by simp [hrest hv])

/-- A space is lost, and what is deleted stands in front of it. -/
theorem deleteLast_insert_space (entry : Text) :
    deleteLast (space.insert entry) = deleteLast entry :=
  deleteLast_append_spaces entry (List.forall_mem_singleton.2 rfl)

end Key

/-! ## The buttons -/

namespace Converter

/-- **Undoing.** After any inserting button but the space, the button that deletes leaves the entry
without the spaces at its end, unless the button was the metre behind an `m` or a `c`. After the
space it does what it does without. What it leaves begins the entry, does not end with a space and
is shorter, if there was anything to delete. -/
theorem delete_insert (s : Converter) (key : Key) :
    (key ≠ .space →
      (((s.step (.press (.insert key))).step (.press .delete)).entry = s.entry.dropTrailingSpaces ↔
        ¬ (key = .unit .metre ∧ (s.entry.dropTrailingSpaces.getLast? = some 'm' ∨
          s.entry.dropTrailingSpaces.getLast? = some 'c')))) ∧
    ((s.step (.press (.insert .space))).step (.press .delete)).entry =
      (s.step (.press .delete)).entry ∧
    (s.step (.press .delete)).entry <+: s.entry ∧
    (s.step (.press .delete)).entry.getLast? ≠ some ' ' ∧
    (s.entry ≠ [] → (s.step (.press .delete)).entry.length < s.entry.length) := by
  refine ⟨fun hspace => ?_, Key.deleteLast_insert_space s.entry, Key.deleteLast_starts s.entry,
    Key.getLast?_deleteLast s.entry, Key.length_deleteLast_lt⟩
  by_cases hmetre : key = .unit .metre
  · subst hmetre
    exact (Key.deleteLast_insert_metre_iff s.entry).trans (not_congr (and_iff_right rfl).symm)
  · have htaken := Key.deleteLast_insert hspace hmetre s.entry
    exact iff_of_true htaken fun h => hmetre h.1

/-- Behind `2 c ` the inch is taken back and the metre is not: it makes centimetres of the `c`. -/
theorem delete_insert_centimetre :
    (run [.type ['2', ' ', 'c', ' '], .press (.insert (.unit .inch)), .press .delete]).entry =
      ['2', ' ', 'c'] ∧
    (run [.type ['2', ' ', 'c', ' '], .press (.insert (.unit .metre)), .press .delete]).entry ≠
      ['2', ' ', 'c'] ∧
    (run [.type ['2', ' ', 'c', ' '], .press .delete]).entry.length < 4 := by
  obtain ⟨hinch, -⟩ := delete_insert (run [.type ['2', ' ', 'c', ' ']]) (.unit .inch)
  obtain ⟨hmetre, -, -, -, hshorter⟩ :=
    delete_insert (run [.type ['2', ' ', 'c', ' ']]) (.unit .metre)
  have hfused : Key.unit .metre = .unit .metre ∧
      (Text.dropTrailingSpaces ['2', ' ', 'c', ' ']).getLast? = some 'c' := by decide
  exact ⟨(hinch (by decide)).2 (by decide),
    fun h => (hmetre (by decide)).1 h ⟨hfused.1, .inr hfused.2⟩, hshorter (by decide)⟩

end Converter

end ExactLength
