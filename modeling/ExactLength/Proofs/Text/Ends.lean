import Mathlib.Data.List.Basic
import Mathlib.Data.List.Infix
import Mathlib.Data.List.Pairwise
import Mathlib.Data.List.TakeWhile
import ExactLength.Proofs.Text.Words

/-!
# The ends of a text

What is dropped at the end of a text is the longest run of a class there; a text is trimmed by
dropping its blanks at both ends. A table of endings is searched from the top. Where none of its
texts ends a later one, the first that fits is the longest that fits.

Results:
* `exists_dropTrailing_append`, `dropTrailing_append`: a run is dropped, and nothing else.
* `trim_append_word`, `trim_collapse`: what is trimmed off, and that a collapsed text has nothing to
  trim.
* `LongestEnd.unique`, `LongestEnd.findSome?_eq`, `exists_longestEnd_of_findSome?`: there is one
  longest ending, and it is the one that a search finds.
-/

namespace ExactLength.Text

/-! ## Runs at the end -/

section Trailing

variable {p : Char → Bool} {n g : Text}

/-- Only characters of the class are dropped. -/
theorem exists_dropTrailing_append (p : Char → Bool) (cs : Text) :
    ∃ g : Text, (∀ c ∈ g, p c = true) ∧ cs = dropTrailing p cs ++ g := by
  refine ⟨(cs.reverse.takeWhile p).reverse, fun c hc => ?_, ?_⟩
  · exact List.all_eq_true.1 List.all_takeWhile c (List.mem_reverse.1 hc)
  · rw [dropTrailing, ← List.reverse_append, List.takeWhile_append_dropWhile, List.reverse_reverse]

/-- All characters of the class at the end are dropped. -/
theorem dropTrailing_append (hn : ∀ c ∈ n.getLast?, p c = false) (hg : ∀ c ∈ g, p c = true) :
    dropTrailing p (n ++ g) = n := by
  have hg' : ∀ c ∈ g.reverse, p c = true := fun c hc => hg c (List.mem_reverse.1 hc)
  rw [dropTrailing, List.reverse_append, List.dropWhile_append_of_pos hg']
  obtain rfl | ⟨n, c, rfl⟩ := n.eq_nil_or_concat'
  · rfl
  · have hc : p c = false := hn c (by simp)
    rw [List.reverse_concat, List.dropWhile_cons_of_neg (by simp [hc]), List.reverse_cons,
      List.reverse_reverse]

theorem dropTrailing_eq_self (hn : ∀ c ∈ n.getLast?, p c = false) : dropTrailing p n = n := by
  have h := dropTrailing_append hn (List.forall_mem_nil _)
  rwa [List.append_nil] at h

theorem getLast?_dropTrailing (p : Char → Bool) (cs : Text) :
    ∀ c ∈ (dropTrailing p cs).getLast?, p c = false := by
  intro c hc
  have h := List.head?_dropWhile_not p cs.reverse
  rw [dropTrailing, List.getLast?_reverse, Option.mem_def] at hc
  rw [hc] at h
  exact h

theorem dropTrailing_starts (p : Char → Bool) (cs : Text) : dropTrailing p cs <+: cs := by
  obtain ⟨g, -, hcs⟩ := exists_dropTrailing_append p cs
  exact ⟨g, hcs.symm⟩

theorem dropTrailing_append_of_forall (cs : Text) (hg : ∀ c ∈ g, p c = true) :
    dropTrailing p (cs ++ g) = dropTrailing p cs := by
  obtain ⟨g', hg', hcs⟩ := exists_dropTrailing_append p cs
  have h := dropTrailing_append (getLast?_dropTrailing p cs) (List.forall_mem_append.2 ⟨hg', hg⟩)
  rwa [← List.append_assoc, ← hcs] at h

end Trailing

/-! ## Spaces at the end -/

section Spaces

variable {cs g : Text}

theorem getLast?_dropTrailingSpaces (cs : Text) : cs.dropTrailingSpaces.getLast? ≠ some ' ' :=
  fun h => absurd (getLast?_dropTrailing (· == ' ') cs ' ' h) (by decide)

theorem dropTrailingSpaces_append (h : cs.getLast? ≠ some ' ') (hg : ∀ c ∈ g, c = ' ') :
    (cs ++ g).dropTrailingSpaces = cs :=
  dropTrailing_append (fun _ hc => beq_eq_false_iff_ne.2 fun hspace => h (hspace ▸ hc))
    fun c hc => beq_iff_eq.2 (hg c hc)

theorem dropTrailingSpaces_eq_self (h : cs.getLast? ≠ some ' ') : cs.dropTrailingSpaces = cs := by
  have hdrop := dropTrailingSpaces_append h (List.forall_mem_nil _)
  rwa [List.append_nil] at hdrop

theorem dropTrailingSpaces_append_of_spaces (cs : Text) (hg : ∀ c ∈ g, c = ' ') :
    (cs ++ g).dropTrailingSpaces = cs.dropTrailingSpaces :=
  dropTrailing_append_of_forall cs fun c hc => beq_iff_eq.2 (hg c hc)

theorem length_dropTrailingSpaces_le (cs : Text) : cs.dropTrailingSpaces.length ≤ cs.length :=
  (dropTrailing_starts _ cs).length_le

end Spaces

/-! ## Trimming -/

theorem trimEnd_eq_nil_iff {cs : Text} : trimEnd cs = [] ↔ cs.Blank := by
  simp [trimEnd, dropTrailing, Blank, List.dropWhile_eq_nil_iff]

theorem trimEnd_append_blank {s g : Text} {c : Char} (hc : isBlank c = false) (hg : g.Blank) :
    trimEnd (s ++ [c] ++ g) = s ++ [c] :=
  dropTrailing_append (by simp [hc]) hg

theorem trimEnd_concat {s : Text} {c : Char} (hc : isBlank c = false) :
    trimEnd (s ++ [c]) = s ++ [c] :=
  dropTrailing_eq_self (by simp [hc])

theorem exists_trimEnd_append {c : Char} (hc : isBlank c = false) (s rest : Text) :
    ∃ rest', trimEnd (s ++ c :: rest) = s ++ c :: rest' := by
  rw [trimEnd, dropTrailing, List.reverse_append, List.reverse_cons, List.append_assoc,
    List.dropWhile_append]
  split
  · refine ⟨[], ?_⟩
    simp [hc]
  · refine ⟨(rest.reverse.dropWhile isBlank).reverse, ?_⟩
    simp

theorem trim_eq_self {c d : Char} {s t : Text} (h : c :: s = t ++ [d]) (hc : isBlank c = false)
    (hd : isBlank d = false) : trim (c :: s) = c :: s := by
  rw [trim, List.dropWhile_cons_of_neg (by simp [hc]), h, trimEnd_concat hd]

theorem exists_trim_eq (cs : Text) :
    ∃ g g' : Text, g.Blank ∧ g'.Blank ∧ cs = g ++ cs.trim ++ g' := by
  obtain ⟨g, hg, hcs⟩ := exists_blank_append cs
  obtain ⟨g', hg', hskip⟩ := exists_dropTrailing_append isBlank cs.skipBlanks
  refine ⟨g, g', hg, hg', ?_⟩
  rw [List.append_assoc, trim, trimEnd, ← skipBlanks, ← hskip, ← hcs]

theorem not_blank_skipBlanks {cs : Text} (h : ¬ cs.Blank) : ¬ cs.skipBlanks.Blank := by
  intro hskip
  obtain ⟨g, hg, hcs⟩ := exists_blank_append cs
  rw [hcs] at h
  exact h (List.forall_mem_append.2 ⟨hg, hskip⟩)

theorem trim_eq_nil_iff {cs : Text} : trim cs = [] ↔ cs.Blank := by
  rw [trim, ← skipBlanks, trimEnd_eq_nil_iff]
  refine ⟨fun h => Decidable.byContradiction fun hcs => not_blank_skipBlanks hcs h, fun h c hc => ?_⟩
  exact h c ((List.dropWhile_suffix _).mem hc)

theorem words_between_blanks {g g' : Text} (hg : g.Blank) (hg' : g'.Blank) (cs : Text) :
    words (g ++ cs ++ g') = words cs := by
  rw [words_append_blank _ hg', hg.words_append]

theorem words_trim (cs : Text) : words cs.trim = words cs := by
  obtain ⟨g, g', hg, hg', hcs⟩ := exists_trim_eq cs
  have h := words_between_blanks hg hg' cs.trim
  rw [← hcs] at h
  exact h.symm

theorem IsWord.trim_eq {w : Text} (hw : w.IsWord) : trim w = w := by
  obtain ⟨c, s, rfl⟩ := List.exists_cons_of_ne_nil hw.ne_nil
  refine trim_eq_self (List.dropLast_concat_getLast hw.ne_nil).symm
    (hw.notBlank c List.mem_cons_self) ?_
  exact hw.notBlank _ (List.getLast_mem hw.ne_nil)

/-- Only blanks in front of a word are trimmed off. -/
theorem trim_append_word {cs u : Text} (hcs : ¬ cs.Blank) (hu : u.IsWord) :
    trim (cs ++ u) = cs.skipBlanks ++ u := by
  have hne : cs.skipBlanks ≠ [] := by
    intro h
    refine not_blank_skipBlanks hcs ?_
    rw [h]
    exact blank_nil
  have hlast : isBlank (u.getLast hu.ne_nil) = false := hu.notBlank _ (List.getLast_mem _)
  have hu' : u.dropLast ++ [u.getLast hu.ne_nil] = u := List.dropLast_concat_getLast _
  have hskip : (cs ++ u).dropWhile isBlank = cs.skipBlanks ++ u := by
    rw [List.dropWhile_append, if_neg (by simpa [skipBlanks] using hne), skipBlanks]
  rw [trim, hskip, ← hu', ← List.append_assoc, trimEnd_concat hlast]

/-! ## Collapsed texts -/

theorem collapse_eq_nil {cs : Text} (h : cs.Blank) : collapse cs = [] := by
  rw [collapse, words_eq_nil_iff.mpr h]
  rfl

theorem collapse_eq_nil_iff {cs : Text} : collapse cs = [] ↔ cs.Blank := by
  refine ⟨fun h => Decidable.byContradiction fun hcs => ?_, collapse_eq_nil⟩
  obtain ⟨⟨c, s, hstart, -⟩, -⟩ := exists_collapse_eq hcs
  rw [h] at hstart
  cases hstart

theorem skipBlanks_collapse (cs : Text) : skipBlanks cs.collapse = cs.collapse := by
  by_cases hcs : cs.Blank
  · rw [collapse_eq_nil hcs]
    rfl
  · obtain ⟨⟨c, s, hstart, hc⟩, -⟩ := exists_collapse_eq hcs
    rw [hstart, skipBlanks, List.dropWhile_cons_of_neg (by simp [hc])]

/-- A collapsed text has no blanks at its ends. -/
theorem trim_collapse (cs : Text) : trim cs.collapse = cs.collapse := by
  by_cases hcs : cs.Blank
  · rw [collapse_eq_nil hcs]
    rfl
  · obtain ⟨-, t, d, hend, hd⟩ := exists_collapse_eq hcs
    rw [trim, ← skipBlanks, skipBlanks_collapse, hend, trimEnd_concat hd]

theorem eq_space_of_mem_collapse {cs : Text} {c : Char} (hc : c ∈ cs.collapse)
    (hblank : isBlank c = true) : c = ' ' := by
  induction cs using word_induction with
  | nil =>
    rw [collapse_eq_nil blank_nil] at hc
    cases hc
  | blank d cs hd ih =>
    rw [collapse_blank hd] at hc
    exact ih hc
  | word w cs hw hends ih =>
    have hword : c ∉ w := fun hmem => Bool.false_ne_true ((hw.notBlank c hmem).symm.trans hblank)
    by_cases hrest : cs.Blank
    · rw [hw.collapse_append_blank hends hrest] at hc
      exact absurd hc hword
    · rw [hw.collapse_append hends hrest, List.mem_append, List.mem_cons] at hc
      obtain hc | hc | hc := hc
      · exact absurd hc hword
      · exact hc
      · exact ih hc

/-- A word behind blanks that stand behind a collapsed text ends it, and nothing is trimmed off. -/
theorem trim_collapse_append_word {cs g u : Text} (hcs : ¬ cs.Blank) (hu : u.IsWord) :
    trim (cs.collapse ++ g ++ u) = cs.collapse ++ g ++ u := by
  obtain ⟨⟨c, s, hstart, hc⟩, -⟩ := exists_collapse_eq hcs
  have hlast : isBlank (u.getLast hu.ne_nil) = false := hu.notBlank _ (List.getLast_mem _)
  have hu' : u.dropLast ++ [u.getLast hu.ne_nil] = u := List.dropLast_concat_getLast _
  have hend : c :: (s ++ g ++ u) = c :: (s ++ g ++ u.dropLast) ++ [u.getLast hu.ne_nil] := by
    rw [List.cons_append, List.append_assoc (s ++ g), hu']
  rw [hstart]
  exact trim_eq_self hend hc hlast

/-! ## A table of endings -/

section Endings

variable {α β : Type} {f : α → Text} {table : List α} {cs : Text}

/-- The entry with the longest of the table's texts that end a given one. -/
structure LongestEnd (f : α → Text) (table : List α) (cs : Text) (a : α) : Prop where
  mem : a ∈ table
  ends : f a <:+ cs
  longest : ∀ b ∈ table, f b <:+ cs → (f b).length ≤ (f a).length

/-- There is one longest ending, and one entry with it if no two entries have the same text. -/
theorem LongestEnd.unique (htable : table.Pairwise fun a b => ¬ f a <:+ f b) {a b : α}
    (ha : LongestEnd f table cs a) (hb : LongestEnd f table cs b) : a = b := by
  have hab := hb.longest a ha.mem ha.ends
  have hba := ha.longest b hb.mem hb.ends
  have htext : f a = f b :=
    (List.suffix_of_suffix_length_le ha.ends hb.ends hab).eq_of_length (Nat.le_antisymm hab hba)
  have hne : table.Pairwise fun a b => f a ≠ f b := htable.imp fun hnot h => by
    rw [h] at hnot
    exact hnot List.suffix_rfl
  have hsymm : Std.Symm fun a b => f a ≠ f b := ⟨fun _ _ => Ne.symm⟩
  by_contra h
  exact hne.forall ha.mem hb.mem h htext

theorem findSome?_isSuffixOf?_eq_none_iff {g : α → Text → β} :
    table.findSome? (fun a => ((f a).isSuffixOf? cs).map (g a)) = none ↔
      ∀ a ∈ table, ¬ f a <:+ cs := by
  rw [List.findSome?_eq_none_iff]
  refine forall₂_congr fun a _ => ?_
  rw [Option.map_eq_none_iff, Option.eq_none_iff_forall_ne_some]
  simp [List.isSuffixOf?_eq_some_iff_append_eq, List.IsSuffix]

/-- **The first is the longest** where no text of the table ends a later one. -/
theorem exists_longestEnd_of_findSome? (htable : table.Pairwise fun a b => ¬ f a <:+ f b)
    {g : α → Text → β} {r : β}
    (h : table.findSome? (fun a => ((f a).isSuffixOf? cs).map (g a)) = some r) :
    ∃ a n, LongestEnd f table cs a ∧ cs = n ++ f a ∧ r = g a n := by
  obtain ⟨before, a, after, rfl, ha, hbefore⟩ := List.findSome?_eq_some_iff.1 h
  obtain ⟨n, hn, rfl⟩ := Option.map_eq_some_iff.1 ha
  have hcs := List.isSuffixOf?_eq_some_iff_append_eq.1 hn
  have hends : f a <:+ cs := ⟨n, hcs⟩
  refine ⟨a, n, ⟨by simp, hends, fun b hb hbcs => ?_⟩, hcs.symm, rfl⟩
  obtain hb | rfl | hb := by simpa using hb
  · have hnone := hbefore b hb
    obtain ⟨m, hm⟩ := hbcs
    rw [List.isSuffixOf?_eq_some_iff_append_eq.2 hm] at hnone
    cases hnone
  · exact Nat.le_refl _
  · -- of two endings the shorter ends the longer, so a longer one does not come after this one
    have hnot := (List.pairwise_cons.1 (List.pairwise_append.1 htable).2.1).1 b hb
    by_contra hlt
    exact hnot (List.suffix_of_suffix_length_le hends hbcs (Nat.le_of_not_le hlt))

theorem none_or_longestEnd (htable : table.Pairwise fun a b => ¬ f a <:+ f b) (cs : Text) :
    (∀ a ∈ table, ¬ f a <:+ cs) ∨ ∃ n a, cs = n ++ f a ∧ LongestEnd f table cs a := by
  cases hfound : table.findSome? (fun a => ((f a).isSuffixOf? cs).map (·, a)) with
  | none => exact .inl (findSome?_isSuffixOf?_eq_none_iff.1 hfound)
  | some r =>
    obtain ⟨a, n, ha, hcs, -⟩ :=
      exists_longestEnd_of_findSome? htable (g := fun a n => (n, a)) hfound
    exact .inr ⟨n, a, hcs, ha⟩

/-- The longest ending is found. -/
theorem LongestEnd.findSome?_eq (htable : table.Pairwise fun a b => ¬ f a <:+ f b)
    {g : α → Text → β} {a : α} {n : Text} (h : LongestEnd f table (n ++ f a) a) :
    table.findSome? (fun a' => ((f a').isSuffixOf? (n ++ f a)).map (g a')) = some (g a n) := by
  cases hfound : table.findSome? (fun a' => ((f a').isSuffixOf? (n ++ f a)).map (g a')) with
  | none => exact absurd h.ends (findSome?_isSuffixOf?_eq_none_iff.1 hfound a h.mem)
  | some r =>
    obtain ⟨b, m, hb, hcs, rfl⟩ := exists_longestEnd_of_findSome? htable hfound
    obtain rfl := h.unique htable hb
    rw [List.append_cancel_right hcs]

end Endings

end ExactLength.Text
