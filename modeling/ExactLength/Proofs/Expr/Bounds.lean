import ExactLength.Proofs.Expr.Acceptance

/-!
# What the bounds refuse

A derivation that nests deeper or has more operators than the bounds allow is not read to its end.
The token it is refused at is the first that goes beyond a bound, and it is refused as too deep: no
other error comes before it.

Results:
* `endsTooDeep_of_derives`: reading a derivation that goes beyond a bound ends in that error.
* `parse_of_derives_beyond`: the parser fails with it.
-/

namespace ExactLength

open Reading

variable (limits : Limits)

namespace Reading

/-- Reading ends at a token that goes beyond a bound. -/
def EndsTooDeep (r : Reading) (lexemes : List Lexeme) : Prop :=
  ∃ pos, run limits r lexemes = .error (.tooDeep pos)

variable {limits}

theorem EndsTooDeep.append {r : Reading} {a : List Lexeme} (h : EndsTooDeep limits r a)
    (b : List Lexeme) : EndsTooDeep limits r (a ++ b) := by
  obtain ⟨pos, h⟩ := h
  refine ⟨pos, ?_⟩
  rw [run_append, h]
  rfl

theorem EndsTooDeep.of_run {r r' : Reading} {a b : List Lexeme} (h : run limits r a = .ok r')
    (hb : EndsTooDeep limits r' b) : EndsTooDeep limits r (a ++ b) := by
  obtain ⟨pos, hb⟩ := hb
  exact ⟨pos, (run_append_of_ok h b).trans hb⟩

/-- A token that a bound is checked for is refused as too deep, or taken; then what follows it must
end the reading. -/
theorem EndsTooDeep.of_guard {r r' : Reading} {token : Token} {pos : Nat} {rest : List Lexeme}
    {within : Prop} [Decidable within]
    (hstep : step limits r ⟨token, pos⟩ = if within then .ok r' else .error (.tooDeep pos))
    (hrest : within → EndsTooDeep limits r' rest) :
    EndsTooDeep limits r (⟨token, pos⟩ :: rest) := by
  by_cases h : within
  · rw [if_pos h] at hstep
    obtain ⟨pos', hrest⟩ := hrest h
    exact ⟨pos', (run_cons_of_ok hstep rest).trans hrest⟩
  · rw [if_neg h] at hstep
    refine ⟨pos, ?_⟩
    rw [run_cons, hstep]
    rfl

end Reading

/-- **Beyond the bounds.** Reading a derivation that goes beyond a bound ends in an error that says
so. The induction is on the derivation; the place it is read into and the operators before it are
arbitrary, within the bounds. Of two operands the first is either beyond a bound itself or read to
its end. -/
theorem endsTooDeep_of_derives {level : Level} {ts : List Token} {n k : Nat} {e : Expr}
    (h : Derives level ts n k e) :
    ∀ (lexemes : List Lexeme) (opened : List Opened) (slot : Slot) (l : Nat),
      lexemes.map Lexeme.token = ts → level.Fits slot →
      nesting opened slot ≤ limits.nesting → l ≤ limits.operators →
      ¬ (nesting opened slot + n ≤ limits.nesting ∧ l + k ≤ limits.operators) →
      EndsTooDeep limits (wanting opened slot l) lexemes := by
  induction h with
  | number r =>
    intro lexemes opened slot l _ _ hn hl hbeyond
    omega
  | plus _ ih =>
    intro lexemes opened slot l hls _ hn hl hbeyond
    obtain ⟨⟨_, pos⟩, rest, rfl, rfl, hrest⟩ := List.map_eq_cons_iff.mp hls
    refine .of_guard (step_plus opened slot l pos) fun hdeeper => ?_
    have hnesting := nesting_afterSign opened slot false
    exact ih rest opened (slot.afterSign false) l hrest trivial (by omega) hl (by omega)
  | minus _ ih =>
    intro lexemes opened slot l hls _ hn hl hbeyond
    obtain ⟨⟨_, pos⟩, rest, rfl, rfl, hrest⟩ := List.map_eq_cons_iff.mp hls
    refine .of_guard (step_minus opened slot l pos) fun hdeeper => ?_
    have hnesting := nesting_afterSign opened slot true
    exact ih rest opened (slot.afterSign true) l hrest trivial (by omega) hl (by omega)
  | paren _ ih =>
    intro lexemes opened slot l hls _ hn hl hbeyond
    obtain ⟨⟨_, pos⟩, rest, rfl, rfl, hrest⟩ := List.map_eq_cons_iff.mp hls
    obtain ⟨inner, last, rfl, hinner, -⟩ := List.map_eq_append_iff.mp hrest
    refine .of_guard (step_lparen opened slot l pos) fun hdeeper => ?_
    have hnesting := nesting_cons_fresh opened slot pos
    exact .append (ih inner (⟨pos, slot⟩ :: opened) .fresh l hinner rfl (by omega) hl (by omega)) _
  | term _ ih =>
    intro lexemes opened slot l hls _ hn hl hbeyond
    exact ih lexemes opened slot l hls trivial hn hl hbeyond
  | @product ts us n m k j a b o ha ho _ iha ihb =>
    intro lexemes opened slot l hls hfits hn hl hbeyond
    obtain ⟨left, right, rfl, hleft, hright⟩ := List.map_eq_append_iff.mp hls
    obtain ⟨⟨_, pos⟩, right, rfl, rfl, hright'⟩ := List.map_eq_cons_iff.mp hright
    by_cases hin : nesting opened slot + n ≤ limits.nesting ∧ l + k ≤ limits.operators
    · -- the first operand is within the bounds: the operator or the second one is beyond
      obtain ⟨r, rfl, hr⟩ := run_of_derives limits ha left opened slot l hleft hfits hin.1 hin.2
      obtain ⟨sum, _, _⟩ := slot
      obtain ⟨rfl, rfl⟩ := hfits
      have hafter : slotAfter sum a o = ⟨sum, some (a, o), []⟩ := if_pos ho
      refine .of_run hr (.of_guard (step_operator opened sum a (l + k) o pos) fun hmore => ?_)
      rw [hafter]
      exact ihb right opened ⟨sum, some (a, o), []⟩ (l + k + 1) hright' trivial hn hmore
        (by simp only [nesting] at hn hin hbeyond ⊢; omega)
    · exact .append (iha left opened slot l hleft hfits hn hl hin) _
  | sum _ ih =>
    intro lexemes opened slot l hls hfits hn hl hbeyond
    cases hfits
    exact ih lexemes opened .fresh l hls ⟨rfl, rfl⟩ hn hl hbeyond
  | @addition ts us n m k j a b o ha ho _ iha ihb =>
    intro lexemes opened slot l hls hfits hn hl hbeyond
    obtain ⟨left, right, rfl, hleft, hright⟩ := List.map_eq_append_iff.mp hls
    obtain ⟨⟨_, pos⟩, right, rfl, rfl, hright'⟩ := List.map_eq_cons_iff.mp hright
    by_cases hin : nesting opened slot + n ≤ limits.nesting ∧ l + k ≤ limits.operators
    · obtain ⟨r, ⟨sum, term, rfl, rfl⟩, hr⟩ :=
        run_of_derives limits ha left opened slot l hleft hfits hin.1 hin.2
      cases hfits
      have hafter : slotAfter sum term o = ⟨some (sum.join term, o), none, []⟩ :=
        if_neg (by simp [ho])
      refine .of_run hr (.of_guard (step_operator opened sum term (l + k) o pos) fun hmore => ?_)
      rw [hafter]
      exact ihb right opened ⟨some (sum.join term, o), none, []⟩ (l + k + 1) hright' ⟨rfl, rfl⟩ hn
        hmore (by simp only [nesting, Slot.fresh] at hn hin hbeyond ⊢; omega)
    · exact .append (iha left opened slot l hleft hfits hn hl hin) _

/-- **Refusal.** A derived text beyond a bound of the parser is refused as too deep. -/
theorem parse_of_derives_beyond {lexemes : List Lexeme} {n k : Nat} {e : Expr}
    (h : Derives .sum (lexemes.map Lexeme.token) n k e)
    (hbeyond : ¬ (n ≤ maxNesting ∧ k ≤ maxOperators)) (stop : Nat) :
    ∃ pos, Expr.parse lexemes stop = .error (.tooDeep pos) := by
  have hzero : nesting [] .fresh = 0 := rfl
  obtain ⟨pos, hr⟩ := endsTooDeep_of_derives .parser h lexemes [] .fresh 0 rfl rfl
    (by rw [hzero]; exact Nat.zero_le _) (Nat.zero_le _)
    (by rw [hzero, Nat.zero_add, Nat.zero_add]; exact hbeyond)
  refine ⟨pos, ?_⟩
  rw [Parser.parse_eq_outcome, outcome, start, hr]
  rfl

end ExactLength
