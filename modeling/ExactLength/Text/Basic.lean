import ExactLength.Text.Blank

/-!
# Texts

A text is a list of characters, so a position in it counts characters. This module holds the cuts
that the readers and the keypad make: at the end of a text, around it, and between its words.

Results:
* `length_dropWhile_le`: dropping a run never lengthens a text; the readers end by it.
* `words_eq_nil_iff`: a text without words is blank.
-/

namespace ExactLength

/-- A text is the list of its characters. -/
abbrev Text := List Char

theorem length_dropWhile_le {α : Type} (p : α → Bool) (l : List α) :
    (l.dropWhile p).length ≤ l.length :=
  (List.dropWhile_suffix p).length_le

namespace Text

/-- The characters of a fixed phrase. It unfolds only on demand, so that a proof about a text with
a phrase in it need not spell the phrase. -/
@[irreducible] def ofString (s : String) : Text := s.toList

theorem ofString_ne_nil {s : String} (h : s ≠ "") : ofString s ≠ [] := by
  rw [ofString]
  exact fun hs => h (String.toList_eq_nil_iff.1 hs)

/-- The text without its last run of characters of the class `p`. -/
def dropTrailing (p : Char → Bool) (cs : Text) : Text :=
  (cs.reverse.dropWhile p).reverse

/-- The text without the blanks at its end. -/
def trimEnd (cs : Text) : Text := cs.dropTrailing isBlank

/-- The text without the blanks at its two ends. -/
def trim (cs : Text) : Text := trimEnd (cs.dropWhile isBlank)

/-- The text without the spaces at its end; other blanks are kept (`retire_espaces_finaux`). -/
def dropTrailingSpaces (cs : Text) : Text := cs.dropTrailing (· == ' ')

/-- The longest runs without a blank, in order. -/
def words : Text → List Text
  | [] => []
  | c :: rest =>
    if isBlank c then words rest
    else (c :: rest.takeWhile (!isBlank ·)) :: words (rest.dropWhile (!isBlank ·))
termination_by cs => cs.length
decreasing_by
  · exact Nat.lt_succ_self _
  · exact Nat.lt_succ_of_le (length_dropWhile_le _ rest)

/-- The words of the text with one space between neighbours. -/
def collapse (cs : Text) : Text := [' '].intercalate cs.words

/-- A text without words holds blanks only. -/
theorem words_eq_nil_iff {cs : Text} : cs.words = [] ↔ ∀ c ∈ cs, isBlank c = true := by
  fun_induction words cs with
  | case1 => simp
  | case2 c rest hc ih => simp [hc, ih]
  | case3 c rest hc => simp [hc]

end Text

end ExactLength
