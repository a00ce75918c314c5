import ExactLength.Proofs.Expr.Readback

/-!
# Reading a listing back

The tokens of an expression are listed with one space between neighbours and brackets around their
fractions. Without the brackets the listing can be typed, and it is scanned as the tokens that it
lists, whether they are an expression or not. A fraction is written in lowest terms with nothing
around its stroke; a division has spaces there, so neither is read as the other, and numbers in a
row stay apart.

Only a negative number is read as something else, as a sign and a number.

Results:
* `Token.scans_text`: a token by itself is scanned as that token.
* `Token.plainListing_cons_cons`: the listing without brackets, token by token.
* `Token.scan_plainListing`: the listing is read back, and it tells which tokens were listed.
-/

namespace ExactLength

open Text

namespace Token

/-- The listing without the brackets around its fractions. -/
def plainListing (tokens : List Token) : Text := (listing tokens).filter (!isBracket ·)

variable {t u : Token} {tokens : List Token}

/-! ## Without brackets -/

theorem filter_listed (h : ∀ r, t = number r → 0 ≤ r) :
    t.listed.filter (!isBracket ·) = t.text := by
  cases t with
  | number r =>
    have hr : 0 ≤ r := h r rfl
    rw [listed, text]
    split
    · exact Fraction.filter_text hr
    · exact Fraction.filter_bracketed hr
  | op o => cases o <;> rfl
  | lparen => rfl
  | rparen => rfl

theorem plainListing_singleton (h : ∀ r, t = number r → 0 ≤ r) : plainListing [t] = t.text := by
  rw [plainListing, listing, List.map_singleton, List.intercalate_singleton, filter_listed h]

/-- There is one space between neighbours. -/
theorem plainListing_cons_cons (h : ∀ r, t = number r → 0 ≤ r) :
    plainListing (t :: u :: tokens) = t.text ++ ' ' :: plainListing (u :: tokens) := by
  have hspace : [' '].filter (!isBracket ·) = [' '] := rfl
  rw [plainListing, listing, List.map_cons, List.map_cons, List.intercalate_cons_cons,
    List.filter_append, List.filter_append, filter_listed h, hspace, List.append_assoc]
  rfl

/-! ## Scanning -/

/-- A token by itself is scanned as that token. -/
theorem scans_text (h : ∀ r, t = number r → 0 ≤ r) : Scans t.text false [t] := by
  cases t with
  | number r => exact Fraction.scans_text (h r rfl)
  | op o => cases o <;> exact Scans.nil.symbol rfl rfl
  | lparen => exact Scans.nil.symbol rfl rfl
  | rparen => exact Scans.nil.symbol rfl rfl

/-- **Scanning.** A listing without brackets is scanned as its tokens. -/
theorem scans_plainListing (h : ∀ r, number r ∈ tokens → 0 ≤ r) :
    Scans (plainListing tokens) false tokens := by
  induction tokens with
  | nil => exact Scans.nil
  | cons t tokens ih =>
    have ht : ∀ r, t = number r → 0 ≤ r := fun r hr => h r (hr ▸ List.mem_cons_self)
    have htokens : ∀ r, number r ∈ tokens → 0 ≤ r := fun r hr => h r (List.mem_cons_of_mem _ hr)
    cases tokens with
    | nil =>
      rw [plainListing_singleton ht]
      exact scans_text ht
    | cons u tokens =>
      -- no number goes on across the space
      have hends : ∀ rest, EndsNumber rest →
          EndsNumber (' ' :: plainListing (u :: tokens) ++ rest) :=
        fun rest _ => endsNumber_cons rfl (by decide) (by decide)
      rw [plainListing_cons_cons ht]
      exact (scans_text ht).append ((ih htokens).blank rfl) hends

/-- **Reading back.** A listing of numbers that are not negative, of operators and of parentheses in
any order is scanned as its tokens when its brackets are left out. So two such lists of tokens with
the same listing are the same. -/
theorem scan_plainListing (h : ∀ r, number r ∈ tokens → 0 ≤ r) :
    (∃ lexemes, Lexeme.scan (plainListing tokens) = .ok lexemes ∧
      lexemes.map Lexeme.token = tokens) ∧
    ∀ tokens', (∀ r, number r ∈ tokens' → 0 ≤ r) → listing tokens' = listing tokens →
      tokens' = tokens := by
  obtain ⟨lexemes, hscan, hlexemes⟩ := (scans_plainListing h).exists_scan_eq_ok
  refine ⟨⟨lexemes, hscan, hlexemes⟩, fun tokens' h' hlisting => ?_⟩
  obtain ⟨lexemes', hscan', hlexemes'⟩ := (scans_plainListing h').exists_scan_eq_ok
  have hplain : plainListing tokens' = plainListing tokens := congrArg (List.filter _) hlisting
  rw [hplain, hscan] at hscan'
  rw [← hlexemes', ← hlexemes, Except.ok.inj hscan']

/-- The fraction `3/8`, the division of 3 by 8 and two strokes in a row. -/
theorem scan_plainListing_strokes :
    let tokens := [number (3 / 8), number 3, op .div, number 8, op .div, op .div]
    (∀ r, number r ∈ tokens → 0 ≤ r) ∧
    listing tokens = .ofString "[3/8] 3 / 8 / /" ∧ plainListing tokens = .ofString "3/8 3 / 8 / /" ∧
    ∃ lexemes, Lexeme.scan (.ofString "3/8 3 / 8 / /") = .ok lexemes ∧
      lexemes.map Lexeme.token = tokens := by
  intro tokens
  have h : ∀ r, number r ∈ tokens → 0 ≤ r := by
    intro r hr
    simp only [tokens, List.mem_cons, number.injEq, reduceCtorEq, false_or, List.not_mem_nil,
      or_false] at hr
    obtain rfl | rfl | rfl := hr <;> decide +kernel
  have hlisting : listing tokens = .ofString "[3/8] 3 / 8 / /" := by decide +kernel
  have hplain : plainListing tokens = .ofString "3/8 3 / 8 / /" := by decide +kernel
  have hscan := (scan_plainListing h).1
  rw [hplain] at hscan
  exact ⟨h, hlisting, hplain, hscan⟩

end Token

end ExactLength
