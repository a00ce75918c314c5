import ExactLength.Proofs.Expr.Descent

/-!
# What the parser accepts

A derivation of the grammar can be followed by reading in one pass, so its tree is the one that is
read. With the soundness of the parser this gives the texts it accepts exactly.

Results:
* `run_of_derives`: reading follows a derivation at every level and in every place.
* `Derives.unique`: the grammar is unambiguous.
* `parse_eq_ok_iff_derives`: the parser accepts the derived texts with at most 256 signs and
  parentheses around a token and at most 1024 binary operators, and nothing else.
-/

namespace ExactLength

open Reading

/-! ## Following a derivation -/

namespace Level

/-- A place that may start an expression of the level. -/
def Fits : Level → Slot → Prop
  | factor, _ => True
  | term, slot => slot.product = none ∧ slot.signs = []
  | sum, slot => slot = .fresh

/-- A state that holds the expression `e` of the level read into a place. -/
def Holds : Level → List Opened → Slot → Nat → Expr → Reading → Prop
  | sum, opened, _, k, e, r => ∃ sum term, r = holding opened sum term k ∧ Waiting.join sum term = e
  | _, opened, slot, k, e, r => r = fill opened slot k e

end Level

variable (limits : Limits)

/-- Reading follows a derivation. The induction is on the derivation; the place it is read into and
the operators before it are arbitrary. -/
theorem run_of_derives {level : Level} {ts : List Token} {n k : Nat} {e : Expr}
    (h : Derives level ts n k e) :
    ∀ (lexemes : List Lexeme) (opened : List Opened) (slot : Slot) (l : Nat),
      lexemes.map Lexeme.token = ts → level.Fits slot →
      nesting opened slot + n ≤ limits.nesting → l + k ≤ limits.operators →
      ∃ r, level.Holds opened slot (l + k) e r ∧
        run limits (wanting opened slot l) lexemes = .ok r := by
  induction h with
  | number r =>
    intro lexemes opened slot l hls _ _ _
    obtain ⟨⟨_, pos⟩, rfl, rfl⟩ := List.map_eq_singleton_iff.mp hls
    exact ⟨_, rfl, rfl⟩
  | plus _ ih =>
    intro lexemes opened slot l hls _ hn hk
    obtain ⟨⟨_, pos⟩, rest, rfl, rfl, hrest⟩ := List.map_eq_cons_iff.mp hls
    rw [run_cons_of_ok ((step_plus opened slot l pos).trans (if_pos (by omega)))]
    exact ih rest opened (slot.afterSign false) l hrest trivial (by rw [nesting_afterSign]; omega) hk
  | minus _ ih =>
    intro lexemes opened slot l hls _ hn hk
    obtain ⟨⟨_, pos⟩, rest, rfl, rfl, hrest⟩ := List.map_eq_cons_iff.mp hls
    rw [run_cons_of_ok ((step_minus opened slot l pos).trans (if_pos (by omega)))]
    exact ih rest opened (slot.afterSign true) l hrest trivial (by rw [nesting_afterSign]; omega) hk
  | paren _ ih =>
    intro lexemes opened slot l hls _ hn hk
    obtain ⟨⟨_, pos⟩, rest, rfl, rfl, hrest⟩ := List.map_eq_cons_iff.mp hls
    obtain ⟨inner, last, rfl, hinner, hlast⟩ := List.map_eq_append_iff.mp hrest
    obtain ⟨⟨_, pos'⟩, rfl, rfl⟩ := List.map_eq_singleton_iff.mp hlast
    obtain ⟨r, ⟨sum, term, rfl, rfl⟩, hr⟩ :=
      ih inner (⟨pos, slot⟩ :: opened) .fresh l hinner rfl (by rw [nesting_cons_fresh]; omega) hk
    rw [run_cons_of_ok ((step_lparen opened slot l pos).trans (if_pos (by omega))),
      run_append_of_ok hr]
    exact ⟨_, rfl, rfl⟩
  | term _ ih =>
    intro lexemes opened slot l hls _ hn hk
    exact ih lexemes opened slot l hls trivial hn hk
  | @product ts us n m k j a b o _ ho _ iha ihb =>
    intro lexemes opened slot l hls hfits hn hk
    obtain ⟨left, right, rfl, hleft, hright⟩ := List.map_eq_append_iff.mp hls
    obtain ⟨⟨_, pos⟩, right, rfl, rfl, hright'⟩ := List.map_eq_cons_iff.mp hright
    obtain ⟨sum, _, _⟩ := slot
    obtain ⟨rfl, rfl⟩ := hfits
    obtain ⟨r, rfl, hr⟩ := iha left opened ⟨sum, none, []⟩ l hleft ⟨rfl, rfl⟩ (by omega) (by omega)
    -- the left operand is held when the operator comes, and waits in the place of the right one
    have hstep : step limits (holding opened sum a (l + k)) ⟨.op o, pos⟩ = _ :=
      (step_operator opened sum a (l + k) o pos).trans (if_pos (by omega))
    rw [slotAfter, if_pos ho] at hstep
    obtain ⟨r, rfl, hr'⟩ := ihb right opened ⟨sum, some (a, o), []⟩ (l + k + 1) hright' trivial
      (by simp only [nesting] at hn ⊢; omega) (by omega)
    rw [run_append_of_ok hr]
    refine ⟨_, ?_, (run_cons_of_ok hstep right).trans hr'⟩
    rw [show l + (k + j + 1) = l + k + 1 + j by omega]
    rfl
  | sum _ ih =>
    intro lexemes opened slot l hls hfits hn hk
    cases hfits
    obtain ⟨r, rfl, hr⟩ := ih lexemes opened .fresh l hls ⟨rfl, rfl⟩ hn hk
    exact ⟨_, ⟨_, _, rfl, rfl⟩, hr⟩
  | @addition ts us n m k j a b o _ ho _ iha ihb =>
    intro lexemes opened slot l hls hfits hn hk
    cases hfits
    obtain ⟨left, right, rfl, hleft, hright⟩ := List.map_eq_append_iff.mp hls
    obtain ⟨⟨_, pos⟩, right, rfl, rfl, hright'⟩ := List.map_eq_cons_iff.mp hright
    obtain ⟨r, ⟨sum, term, rfl, rfl⟩, hr⟩ :=
      iha left opened .fresh l hleft rfl (by omega) (by omega)
    have hstep : step limits (holding opened sum term (l + k)) ⟨.op o, pos⟩ = _ :=
      (step_operator opened sum term (l + k) o pos).trans (if_pos (by omega))
    rw [slotAfter, if_neg (by simp [ho])] at hstep
    obtain ⟨r, rfl, hr'⟩ := ihb right opened ⟨some (sum.join term, o), none, []⟩ (l + k + 1) hright'
      ⟨rfl, rfl⟩ (by simp only [nesting, Slot.fresh] at hn ⊢; omega) (by omega)
    rw [run_append_of_ok hr]
    refine ⟨_, ?_, (run_cons_of_ok hstep right).trans hr'⟩
    rw [show l + (k + j + 1) = l + k + 1 + j by omega]
    exact ⟨_, _, rfl, rfl⟩

theorem outcome_of_derives {lexemes : List Lexeme} {n k : Nat} {e : Expr}
    (h : Derives .sum (lexemes.map Lexeme.token) n k e) (hn : n ≤ limits.nesting)
    (hk : k ≤ limits.operators) (stop : Nat) : outcome limits stop start lexemes = .ok e := by
  obtain ⟨r, ⟨sum, term, rfl, rfl⟩, hr⟩ :=
    run_of_derives limits h lexemes [] .fresh 0 rfl rfl (by simpa [nesting, Slot.fresh] using hn)
      (by simpa using hk)
  rw [outcome, start, hr]
  rfl

/-! ## Acceptance -/

/-- The grammar is unambiguous: a text has at most one tree, however deep or long it is. -/
theorem Derives.unique {ts : List Token} {n n' k k' : Nat} {e e' : Expr}
    (h : Derives .sum ts n k e) (h' : Derives .sum ts n' k' e') : e = e' := by
  have hts : (ts.map fun token => (⟨token, 0⟩ : Lexeme)).map Lexeme.token = ts := by
    rw [List.map_map]
    exact List.map_id ts
  rw [← hts] at h h'
  let limits : Limits := ⟨max n n', max k k'⟩
  have h₁ := outcome_of_derives limits h (Nat.le_max_left _ _) (Nat.le_max_left _ _) 0
  have h₂ := outcome_of_derives limits h' (Nat.le_max_right _ _) (Nat.le_max_right _ _) 0
  exact Except.ok.inj (h₁.symm.trans h₂)

theorem parse_of_derives {lexemes : List Lexeme} {n k : Nat} {e : Expr}
    (h : Derives .sum (lexemes.map Lexeme.token) n k e) (hn : n ≤ maxNesting)
    (hk : k ≤ maxOperators) (stop : Nat) : Expr.parse lexemes stop = .ok e := by
  rw [Parser.parse_eq_outcome]
  exact outcome_of_derives .parser h hn hk stop

/-- **Acceptance.** A text is parsed as `e` exactly when the grammar derives `e` from it with at
most 256 signs and parentheses around any token and at most 1024 binary operators; and no text has
two trees, within the bounds or beyond them. -/
theorem parse_eq_ok_iff_derives (lexemes : List Lexeme) (stop : Nat) (e : Expr) :
    (Expr.parse lexemes stop = .ok e ↔
      ∃ nesting operators, Derives .sum (lexemes.map Lexeme.token) nesting operators e ∧
        nesting ≤ 256 ∧ operators ≤ 1024) ∧
    ∀ {n n' k k' a b}, Derives .sum (lexemes.map Lexeme.token) n k a →
      Derives .sum (lexemes.map Lexeme.token) n' k' b → a = b := by
  refine ⟨⟨Parser.derives_of_parse, ?_⟩, fun ha hb => ha.unique hb⟩
  rintro ⟨n, k, h, hn, hk⟩
  exact parse_of_derives h hn hk stop

end ExactLength
