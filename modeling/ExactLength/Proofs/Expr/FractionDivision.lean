import Mathlib.Data.List.DropRight
import ExactLength.Proofs.Expr.Acceptance
import ExactLength.Proofs.Expr.Exactness

/-!
# Fractions and divisions

The fraction `n/d` and the division `n / d` are one token and three, and their trees differ: in
`y * n/d` the fraction is the right operand of the product, in `y * n / d` the product is the left
operand of the division. The trees are worth the same all the same, unless the fraction is itself a
divisor: `8 / 3/4` is more than ten, and `8 / 3 / 4` is less than one.

Reading the one text and reading the other lead to states that differ in the trees they hold, but
not in what these are worth.

Results:
* `fill_fraction`: the term that a fraction completes is worth what the division makes of it.
* `Equiv.step`, `Equiv.run`: what is read next keeps two readings of the same worth.
* `run_division`: so does the fraction, read in the one text, and the division in the other.
* `follows_step`, `follows_of_run`: an operator that waits in front of the signs was read there.
* `parse_fraction_as_division`: a fraction that is no divisor may be written as a division.
-/

namespace ExactLength

/-- A token that is a sign where a value is wanted. -/
def Token.isSign : Token → Bool
  | op .add | op .sub => true
  | _ => false

/-! ## Trees of the same worth -/

/-- The same operator waits behind operands of the same worth, or nothing waits. -/
def Waiting.Equiv : Waiting → Waiting → Prop :=
  Option.Rel fun p p' => p.1.Equiv p'.1 ∧ p.2 = p'.2

theorem Waiting.Equiv.join {w w' : Waiting} {e e' : Expr} (h : w.Equiv w') (he : e.Equiv e') :
    (w.join e).Equiv (w'.join e') := by
  cases h with
  | none => exact he
  | @some p p' h =>
    obtain ⟨a, o⟩ := p
    obtain ⟨a', o'⟩ := p'
    obtain ⟨ha, rfl⟩ := h
    exact ha.binary o he

/-- Places behind operands of the same worth, with the same signs. -/
structure Slot.Equiv (slot slot' : Slot) : Prop where
  sum : slot.sum.Equiv slot'.sum
  product : slot.product.Equiv slot'.product
  signs : slot.signs = slot'.signs

namespace Slot

/-- A value with signs in front of it. -/
def withSigns (signs : List Bool) (e : Expr) : Expr :=
  signs.foldl (fun e negative => signed negative e) e

theorem equiv_fresh : fresh.Equiv fresh := ⟨.none, .none, rfl⟩

theorem Equiv.afterSign {slot slot' : Slot} (h : slot.Equiv slot') (negative : Bool) :
    (slot.afterSign negative).Equiv (slot'.afterSign negative) :=
  ⟨h.sum, h.product, congrArg (negative :: ·) h.signs⟩

theorem equiv_withSigns {e e' : Expr} (h : e.Equiv e') (signs : List Bool) :
    (withSigns signs e).Equiv (withSigns signs e') := by
  induction signs generalizing e e' with
  | nil => exact h
  | cons negative signs ih =>
    cases negative with
    | true => exact ih h.neg
    | false => exact ih h

theorem Equiv.fill {slot slot' : Slot} (h : slot.Equiv slot') {e e' : Expr} (he : e.Equiv e') :
    (slot.fill e).Equiv (slot'.fill e') := by
  have hsigns : (withSigns slot.signs e).Equiv (withSigns slot'.signs e') := by
    rw [← h.signs]
    exact equiv_withSigns he slot.signs
  exact h.product.join hsigns

/-! ## The term that a fraction completes -/

theorem exists_eval_withSigns (signs : List Bool) :
    ∃ s : Rat, ∀ r, (withSigns signs (.lit r)).eval = .ok (s * r) := by
  have hgeneral : ∀ {e : Expr → Expr} {t : Rat}, (∀ r, (e (.lit r)).eval = .ok (t * r)) →
      ∃ s : Rat, ∀ r, (withSigns signs (e (.lit r))).eval = .ok (s * r) := by
    induction signs with
    | nil =>
      intro e t h
      exact ⟨t, h⟩
    | cons negative signs ih =>
      intro e t h
      cases negative with
      | true =>
        refine ih (e := fun x => .neg (e x)) (t := -t) fun r => ?_
        rw [Expr.eval_neg_of_ok (h r), Rat.neg_mul]
      | false => exact ih h
  exact hgeneral (e := id) (t := 1) fun r => congrArg Except.ok (Rat.one_mul r).symm

/-- **The term of a fraction.** Unless it is a divisor, a fraction completes a term that is worth
what comes of the term of its numerator when it is divided by the denominator. -/
theorem fill_fraction {slot : Slot} (hslot : ∀ a o, slot.product = some (a, o) → o = .mul)
    (n : Rat) {d : Rat} (hd : d ≠ 0) :
    (slot.fill (.lit (n / d))).Equiv (.binary .div (slot.fill (.lit n)) (.lit d)) := by
  obtain ⟨sum, product, signs⟩ := slot
  obtain ⟨s, hs⟩ := exists_eval_withSigns signs
  have hdivides (v : Rat) : Operator.div.apply v d = .ok (v / d) :=
    Operator.apply_eq_result fun _ => hd
  change (product.join (withSigns signs (.lit (n / d)))).eval =
    (Expr.binary .div (product.join (withSigns signs (.lit n))) (.lit d)).eval
  rw [Expr.eval_binary_of_right rfl]
  match product, hslot with
  | none, _ =>
    have hquotient : s * (n / d) = s * n / d := by grind
    change (withSigns signs (.lit (n / d))).eval = (withSigns signs (.lit n)).eval.bind _
    rw [hs, hs, hquotient]
    exact (hdivides _).symm
  | some (a, o), hslot =>
    obtain rfl := hslot a o rfl
    change (Expr.binary .mul a (withSigns signs (.lit (n / d)))).eval =
      (Expr.binary .mul a (withSigns signs (.lit n))).eval.bind _
    rw [Expr.eval_binary_of_right (hs _), Expr.eval_binary_of_right (hs _)]
    cases a.eval with
    | error e => rfl
    | ok x =>
      have hquotient : x * (s * (n / d)) = x * (s * n) / d := by grind
      have hmul (y : Rat) : Operator.mul.apply x y = .ok (x * y) := Operator.apply_eq_result nofun
      change Operator.mul.apply x _ = (Operator.mul.apply x _).bind _
      rw [hmul, hmul, hquotient]
      exact (hdivides _).symm

end Slot

/-! ## Readings of the same worth -/

namespace Reading

/-- Parentheses around places of the same worth. -/
def OpenedEquiv : List Opened → List Opened → Prop :=
  List.Forall₂ fun p p' => p.slot.Equiv p'.slot

/-- The readings are at the same point, with trees of the same worth. The second one has taken
`extra` more operators. -/
inductive Equiv (extra : Nat) : Reading → Reading → Prop
  | wanting {opened opened' : List Opened} {slot slot' : Slot} {k : Nat}
    (hopened : OpenedEquiv opened opened') (hslot : slot.Equiv slot') :
    Equiv extra (wanting opened slot k) (wanting opened' slot' (k + extra))
  | holding {opened opened' : List Opened} {sum sum' : Waiting} {term term' : Expr} {k : Nat}
    (hopened : OpenedEquiv opened opened') (hsum : sum.Equiv sum') (hterm : term.Equiv term') :
    Equiv extra (holding opened sum term k) (holding opened' sum' term' (k + extra))

variable {limits limits' : Limits} {extra : Nat} {r r' s : Reading}

theorem OpenedEquiv.nesting_eq {opened opened' : List Opened} {slot slot' : Slot}
    (h : OpenedEquiv opened opened') (hslot : slot.Equiv slot') :
    nesting opened slot = nesting opened' slot' := by
  have hsum : (opened.map fun p => p.slot.signs.length + 1).sum =
      (opened'.map fun p => p.slot.signs.length + 1).sum := by
    induction h with
    | nil => rfl
    | cons hp _ ih => rw [List.map_cons, List.map_cons, List.sum_cons, List.sum_cons, hp.signs, ih]
  rw [nesting, nesting, hsum, hslot.signs]

theorem Waiting.Equiv.slotAfter {sum sum' : Waiting} {term term' : Expr} (hsum : sum.Equiv sum')
    (hterm : term.Equiv term') (o : Operator) :
    (slotAfter sum term o).Equiv (slotAfter sum' term' o) := by
  unfold Reading.slotAfter
  split
  · exact ⟨hsum, .some ⟨hterm, rfl⟩, rfl⟩
  · exact ⟨.some ⟨hsum.join hterm, rfl⟩, .none, rfl⟩

/-- **One step.** What one reading takes the other takes too, if the bounds leave room for the
operators that it is ahead. -/
theorem Equiv.step {l : Lexeme} (h : Equiv extra r r') (hn : limits.nesting ≤ limits'.nesting)
    (hk : limits.operators + extra ≤ limits'.operators) (hs : step limits r l = .ok s) :
    ∃ s', step limits' r' l = .ok s' ∧ Equiv extra s s' := by
  obtain ⟨token, pos⟩ := l
  cases h with
  | @wanting opened opened' slot slot' k hopened hslot =>
    have hnesting := hopened.nesting_eq hslot
    match token, hs with
    | .number x, hs =>
      cases hs
      exact ⟨_, rfl, .holding hopened hslot.sum (hslot.fill (.refl _))⟩
    | .op .add, hs =>
      rw [step_plus] at hs
      split at hs <;> cases hs
      exact ⟨_, (step_plus _ _ _ _).trans (if_pos (by omega)),
        .wanting hopened (hslot.afterSign false)⟩
    | .op .sub, hs =>
      rw [step_minus] at hs
      split at hs <;> cases hs
      exact ⟨_, (step_minus _ _ _ _).trans (if_pos (by omega)),
        .wanting hopened (hslot.afterSign true)⟩
    | .lparen, hs =>
      rw [step_lparen] at hs
      split at hs <;> cases hs
      exact ⟨_, (step_lparen _ _ _ _).trans (if_pos (by omega)),
        .wanting (.cons hslot hopened) Slot.equiv_fresh⟩
    | .op .mul, hs | .op .div, hs | .rparen, hs => cases hs
  | @holding opened opened' sum sum' term term' k hopened hsum hterm =>
    match token, hs with
    | .op o, hs =>
      rw [step_operator] at hs
      split at hs <;> cases hs
      have hwanting : Equiv extra _ (Reading.wanting opened' _ (k + 1 + extra)) :=
        .wanting hopened (Waiting.Equiv.slotAfter hsum hterm o)
      rw [Nat.add_right_comm] at hwanting
      exact ⟨_, (step_operator _ _ _ _ _ _).trans (if_pos (by omega)), hwanting⟩
    | .rparen, hs =>
      cases hopened with
      | nil => cases hs
      | cons hp hopened =>
        cases hs
        exact ⟨_, rfl, .holding hopened hp.sum (hp.fill (hsum.join hterm))⟩
    | .number x, hs | .lparen, hs => cases hs

/-- **A whole run.** -/
theorem Equiv.run {ls : List Lexeme} (h : Equiv extra r r') (hn : limits.nesting ≤ limits'.nesting)
    (hk : limits.operators + extra ≤ limits'.operators) (hs : run limits r ls = .ok s) :
    ∃ s', run limits' r' ls = .ok s' ∧ Equiv extra s s' := by
  induction ls generalizing r r' with
  | nil =>
    cases hs
    exact ⟨r', rfl, h⟩
  | cons l ls ih =>
    obtain ⟨t, ht, hs⟩ := run_cons_eq_ok_iff.mp hs
    obtain ⟨t', ht', h'⟩ := h.step hn hk ht
    obtain ⟨s', hs', h''⟩ := ih h' hs
    exact ⟨s', run_cons_eq_ok_iff.mpr ⟨t', ht', hs'⟩, h''⟩

theorem Equiv.finish {stop : Nat} {e : Expr} (h : Equiv extra r r') (stop' : Nat)
    (he : finish stop r = .ok e) : ∃ e', finish stop' r' = .ok e' ∧ e.Equiv e' := by
  cases h with
  | wanting _ _ => cases he
  | holding hopened hsum hterm =>
    cases hopened with
    | nil =>
      cases he
      exact ⟨_, rfl, hsum.join hterm⟩
    | cons _ _ => cases he

/-- **The fraction and the division.** Where no divisor is wanted, reading a fraction in one text
and the division in the other keeps the worth; the division takes one operator more. -/
theorem run_division {opened : List Opened} {slot : Slot} {k : Nat}
    (h : Equiv 0 (wanting opened slot k) r')
    (hslot : ∀ a o, slot.product = some (a, o) → o = .mul) (n : Rat) {d : Rat} (hd : d ≠ 0)
    (hk : k < limits'.operators) (pos pos' pos'' : Nat) :
    ∃ s', run limits' r' [⟨.number n, pos⟩, ⟨.op .div, pos'⟩, ⟨.number d, pos''⟩] = .ok s' ∧
      Equiv 1 (fill opened slot k (.lit (n / d))) s' := by
  cases h with
  | @wanting _ opened' _ slot' _ hopened hslot' =>
    have hterm : (slot.fill (.lit (n / d))).Equiv (.binary .div (slot'.fill (.lit n)) (.lit d)) :=
      (Slot.fill_fraction hslot n hd).trans ((hslot'.fill (.refl _)).binary .div (.refl _))
    refine ⟨_, ?_, .holding hopened hslot'.sum hterm⟩
    have hnumber : step limits' (wanting opened' slot' k) ⟨.number n, pos⟩ =
        .ok (fill opened' slot' k (.lit n)) := rfl
    have hdivides : step limits' (fill opened' slot' k (.lit n)) ⟨.op .div, pos'⟩ = .ok _ :=
      if_pos hk
    rw [Nat.add_zero, run_cons_of_ok hnumber, run_cons_of_ok hdivides]
    rfl

/-! ## What was read before -/

/-- The operators taken so far. -/
def operators : Reading → Nat
  | wanting _ _ k | holding _ _ _ k => k

theorem operators_le_of_step {l : Lexeme} (h : r.operators ≤ limits.operators)
    (hs : step limits r l = .ok s) : s.operators ≤ limits.operators := by
  obtain ⟨token, pos⟩ := l
  cases r with
  | wanting opened slot k =>
    cases token with
    | number x =>
      cases hs
      exact h
    | op o =>
      cases o with
      | add | sub =>
        simp only [step] at hs
        split at hs <;> cases hs
        exact h
      | mul | div => cases hs
    | lparen =>
      simp only [step] at hs
      split at hs <;> cases hs
      exact h
    | rparen => cases hs
  | holding opened sum term k =>
    cases token with
    | op o =>
      rw [step_operator] at hs
      split at hs <;> cases hs
      next hk => exact hk
    | rparen =>
      cases opened with
      | nil => cases hs
      | cons p opened =>
        cases hs
        exact h
    | number x | lparen => cases hs

theorem operators_le_of_run {ls : List Lexeme} (h : r.operators ≤ limits.operators)
    (hs : run limits r ls = .ok s) : s.operators ≤ limits.operators :=
  @run_invariant limits (fun _ r => r.operators ≤ limits.operators) operators_le_of_step [] ls r s
    h hs

/-- The operator that waits in the same product was read right before the signs. -/
def Follows (tokens : List Token) : Reading → Prop
  | wanting _ slot _ => ∀ a o, slot.product = some (a, o) →
    o.isProduct = true ∧ (tokens.rdropWhile Token.isSign).getLast? = some (.op o)
  | holding .. => True

theorem follows_step {tokens : List Token} {l : Lexeme} (h : r.Follows tokens)
    (hs : step limits r l = .ok s) : s.Follows (tokens ++ [l.token]) := by
  obtain ⟨token, pos⟩ := l
  cases r with
  | wanting opened slot k =>
    cases token with
    | number x =>
      cases hs
      exact trivial
    | op o =>
      cases o with
      | add | sub =>
        simp only [step] at hs
        split at hs <;> cases hs
        intro a o hproduct
        -- the sign is dropped again, and the same operator stands in front of the signs
        rw [List.rdropWhile_concat_pos _ _ _ rfl]
        exact h a o hproduct
      | mul | div => cases hs
    | lparen =>
      simp only [step] at hs
      split at hs <;> cases hs
      intro a o hproduct
      cases hproduct
    | rparen => cases hs
  | holding opened sum term k =>
    cases token with
    | op o =>
      rw [step_operator] at hs
      split at hs <;> cases hs
      intro a o' hproduct
      unfold slotAfter at hproduct
      split at hproduct
      · next ho =>
        -- the operator that begins to wait is the last token
        cases hproduct
        have hsign : ¬ (Token.op o).isSign = true := by
          cases o with
          | mul | div => exact Bool.false_ne_true
          | add | sub => cases ho
        rw [List.rdropWhile_concat_neg _ _ _ hsign, List.getLast?_concat]
        exact ⟨ho, rfl⟩
      · cases hproduct
    | rparen =>
      cases opened with
      | nil => cases hs
      | cons p opened =>
        cases hs
        exact trivial
    | number x | lparen => cases hs

theorem follows_of_run {ls : List Lexeme} (hs : run limits start ls = .ok s) :
    s.Follows (ls.map Lexeme.token) := by
  have hstart : start.Follows (([] : List Lexeme).map Lexeme.token) := nofun
  refine run_invariant (P := fun read r => r.Follows (read.map Lexeme.token)) ?_ hstart hs
  intro read r l s h hs
  rw [List.map_append]
  exact follows_step h hs

/-- Behind anything but a division and signs, no division waits. -/
theorem Follows.eq_mul {tokens : List Token} {opened : List Opened} {slot : Slot} {k : Nat}
    (h : (wanting opened slot k).Follows tokens)
    (hdivisor : (tokens.rdropWhile Token.isSign).getLast? ≠ some (.op .div)) {a : Expr}
    {o : Operator} (hproduct : slot.product = some (a, o)) : o = .mul := by
  obtain ⟨ho, hlast⟩ := h a o hproduct
  cases o with
  | mul => rfl
  | div => exact absurd hlast hdivisor
  | add => cases ho
  | sub => cases ho

end Reading

/-! ## Parsing -/

open Reading

/-- **A fraction as a division.** A fraction that is no divisor may be written as the division of
its numerator by its denominator: unless that operator is one too many, the text is still an
expression and has the same value, or divides by zero as before. -/
theorem parse_fraction_as_division {lexemes lexemes' : List Lexeme} {before after : List Token}
    {n d stop : Nat} {e : Expr} (hd : 0 < d)
    (hdivisor : (before.rdropWhile Token.isSign).getLast? ≠ some (.op .div))
    (hfraction : lexemes.map Lexeme.token = before ++ .number ((n : Rat) / d) :: after)
    (hdivision :
      lexemes'.map Lexeme.token = before ++ .number n :: .op .div :: .number d :: after)
    (hparse : Expr.parse lexemes stop = .ok e) (hroom : e.operators < 1024) (stop' : Nat) :
    ∃ e', Expr.parse lexemes' stop' = .ok e' ∧ e'.eval = e.eval := by
  have hd' : (d : Rat) ≠ 0 := Rat.ne_of_gt (Rat.natCast_pos.mpr hd)
  obtain ⟨a, b, rfl, ha, hb⟩ := List.map_eq_append_iff.mp hfraction
  obtain ⟨⟨_, pos⟩, c, rfl, rfl, hc⟩ := List.map_eq_cons_iff.mp hb
  -- one operator is left for the division
  let limits : Limits := ⟨maxNesting, e.operators⟩
  have hn : limits.nesting ≤ Limits.parser.nesting := Nat.le_refl _
  have hoperators : limits.operators + 1 ≤ Limits.parser.operators := hroom
  obtain ⟨nesting, k, hderives, hnesting, -⟩ := Parser.derives_of_parse hparse
  have houtcome := outcome_of_derives limits hderives hnesting hderives.operators_eq.le stop
  obtain ⟨s, hs, hfinish⟩ := bind_ok_iff.mp houtcome
  obtain ⟨r, hr, hs⟩ := run_append_eq_ok_iff.mp hs
  obtain ⟨t, ht, hs⟩ := run_cons_eq_ok_iff.mp hs
  have hstart : Equiv 0 start start := .wanting .nil Slot.equiv_fresh
  obtain ⟨r', hr', hequiv⟩ := hstart.run hn (Nat.le_of_succ_le hoperators) hr
  have hfollows := follows_of_run hr
  rw [ha] at hfollows
  cases r with
  | holding opened sum term k => cases ht
  | wanting opened slot k =>
    cases ht
    have hk : k ≤ limits.operators := operators_le_of_run (Nat.zero_le _) hr
    have hfree : k < Limits.parser.operators := Nat.lt_of_le_of_lt hk hoperators
    have hslot : ∀ y o, slot.product = some (y, o) → o = .mul :=
      fun _ _ => hfollows.eq_mul hdivisor
    obtain ⟨t', ht', hequiv⟩ := run_division hequiv hslot n hd' hfree 0 0 0
    obtain ⟨s', hs', hequiv⟩ := hequiv.run hn hoperators hs
    obtain ⟨e', he', heval⟩ := hequiv.finish 0 hfinish
    -- the tree does not depend on where the tokens stand
    have hdivided : Expr.parse (a ++ [⟨.number n, 0⟩, ⟨.op .div, 0⟩, ⟨.number d, 0⟩] ++ c) 0 =
        .ok e' := by
      rw [Parser.parse_eq_outcome, List.append_assoc]
      have hrun := run_append_eq_ok_iff.mpr ⟨r', hr', run_append_eq_ok_iff.mpr ⟨t', ht', hs'⟩⟩
      exact bind_ok_iff.mpr ⟨s', hrun, he'⟩
    obtain ⟨m, l, hderives', hm, hl⟩ := Parser.derives_of_parse hdivided
    refine ⟨e', parse_of_derives ?_ hm hl stop', heval.symm⟩
    rw [hdivision]
    simpa [ha, hc] using hderives'

/-- Lexemes with the given tokens. -/
def lexemesOf (tokens : List Token) : List Lexeme := tokens.map fun token => ⟨token, 0⟩

/-- The text `8 * -x + 1` for the tokens of `x`. -/
def negatedProduct (x : List Token) : List Lexeme :=
  lexemesOf ([.number 8, .op .mul, .op .sub] ++ x ++ [.op .add, .number 1])

/-- `8 * -3/4 + 1` and `8 * -3 / 4 + 1`. -/
theorem parse_negatedProduct_as_division :
    Expr.parse (negatedProduct [.number (3 / 4)]) 0 =
        .ok (.binary .add (.binary .mul (.lit 8) (.neg (.lit (3 / 4)))) (.lit 1)) ∧
      ∃ e', Expr.parse (negatedProduct [.number 3, .op .div, .number 4]) 0 = .ok e' ∧
        e'.eval = .ok (-5) := by
  have hparse : Expr.parse (negatedProduct [.number (3 / 4)]) 0 =
      .ok (.binary .add (.binary .mul (.lit 8) (.neg (.lit (3 / 4)))) (.lit 1)) := by
    decide +kernel
  have hvalue : (Expr.binary .add (.binary .mul (.lit 8) (.neg (.lit (3 / 4)))) (.lit 1)).eval =
      .ok (-5) := by
    decide +kernel
  have hdivisor : ([.number 8, .op .mul, .op .sub].rdropWhile Token.isSign).getLast? ≠
      some (.op .div) := by
    decide +kernel
  have hdivision : (negatedProduct [.number 3, .op .div, .number 4]).map Lexeme.token =
      [.number 8, .op .mul, .op .sub] ++ .number (3 : Nat) :: .op .div :: .number (4 : Nat) ::
        [.op .add, .number 1] := rfl
  obtain ⟨e', he', heval⟩ := parse_fraction_as_division (by decide : 0 < 4) hdivisor rfl
    hdivision hparse (by decide) 0
  exact ⟨hparse, e', he', heval.trans hvalue⟩

-- as a divisor the fraction is one number, and the division is not
example :
    (Expr.parse (lexemesOf [.number 8, .op .div, .number (3 / 4)]) 0).bind Expr.eval =
      .ok (32 / 3) ∧
    (Expr.parse (lexemesOf [.number 8, .op .div, .number 3, .op .div, .number 4]) 0).bind
      Expr.eval = .ok (2 / 3) := by
  decide +kernel

end ExactLength
