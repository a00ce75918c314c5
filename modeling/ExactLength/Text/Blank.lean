/-!
# Blank characters

The blanks are the characters with the Unicode property `White_Space`. They separate words and
tokens, and nothing else does: a zero-width space, for one, is not a blank.

Results:
* `isBlank_iff_mem`: the blanks are the 25 characters of `blanks`.
-/

namespace ExactLength

/-- A character with the Unicode property `White_Space`. -/
def isBlank (c : Char) : Bool :=
  let n := c.toNat
  (0x09 ≤ n && n ≤ 0x0D) || n == 0x20 || n == 0x85 || n == 0xA0 || n == 0x1680 ||
    (0x2000 ≤ n && n ≤ 0x200A) || n == 0x2028 || n == 0x2029 || n == 0x202F || n == 0x205F ||
    n == 0x3000

/-- The blanks in the order of their numbers. -/
def blanks : List Char :=
  ['\u0009', '\u000a', '\u000b', '\u000c', '\u000d', '\u0020', '\u0085', '\u00a0', '\u1680',
    '\u2000', '\u2001', '\u2002', '\u2003', '\u2004', '\u2005', '\u2006', '\u2007', '\u2008',
    '\u2009', '\u200a', '\u2028', '\u2029', '\u202f', '\u205f', '\u3000']

/-- A character is a blank when it is one of the 25 characters of `blanks`. -/
theorem isBlank_iff_mem {c : Char} : isBlank c = true ↔ c ∈ blanks := by
  constructor
  · intro h
    have hc : c = Char.ofNat c.toNat := (Char.ofNat_toNat c).symm
    generalize hn : c.toNat = n at h hc
    simp only [isBlank, hn, Bool.or_eq_true, Bool.and_eq_true, decide_eq_true_eq, beq_iff_eq] at h
    have hm : n ∈ blanks.map Char.toNat := by
      simp [blanks]
      omega
    obtain ⟨d, hd, hdn⟩ := List.mem_map.1 hm
    rw [hc, ← hdn, Char.ofNat_toNat]
    exact hd
  · have all : blanks.all isBlank = true := by decide
    exact List.all_eq_true.1 all c

end ExactLength
