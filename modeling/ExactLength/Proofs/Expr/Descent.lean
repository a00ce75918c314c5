import ExactLength.Proofs.Expr.Reading
import ExactLength.Proofs.Expr.Steps

/-!
# Recursive descent is reading in one pass

The parser and the one-pass reading give the same answer on every list of tokens: the same tree, or
the same error. Each call of the parser starts in a state that wants a value and, when it succeeds,
leaves a state that holds it.

Results:
* `factorWithin_agrees`, `chain_agrees`: the agreement of one call.
* `parse_eq_outcome`: the agreement on a whole text.
-/

namespace ExactLength

/-- The bounds of the parser. -/
def Limits.parser : Limits := ⟨maxNesting, maxOperators⟩

open Reading

namespace Parser

/-- From the cursor `s` the parser does what reading does from `r`: it fails with the same error, or
succeeds and leaves a state that `H` relates to its value and its count of operators. -/
structure Agrees (stop : Nat) (p : Parser Expr) (s : Cursor) (r : Reading)
    (H : Expr → Nat → Reading → Prop) : Prop where
  ok : ∀ {e : Expr} {t : Cursor}, p s = .ok e t → ∃ r', H e t.operators r' ∧
    outcome .parser stop r s.rest = outcome .parser stop r' t.rest
  error : ∀ {err : EvalError} {t : Cursor}, p s = .error err t →
    outcome .parser stop r s.rest = .error err

variable {stop : Nat}

theorem Agrees.of_ok {p : Parser Expr} {s t : Cursor} {e : Expr} {r r' : Reading}
    {H : Expr → Nat → Reading → Prop} (h : p s = .ok e t) (hr : H e t.operators r')
    (ho : outcome .parser stop r s.rest = outcome .parser stop r' t.rest) :
    Agrees stop p s r H := by
  constructor
  · intro a u hu
    rw [h] at hu
    cases hu
    exact ⟨r', hr, ho⟩
  · intro err u hu
    rw [h] at hu
    cases hu

theorem Agrees.of_error {p : Parser Expr} {s t : Cursor} {err : EvalError} {r : Reading}
    {H : Expr → Nat → Reading → Prop} (h : p s = .error err t)
    (ho : outcome .parser stop r s.rest = .error err) : Agrees stop p s r H := by
  constructor
  · intro a u hu
    rw [h] at hu
    cases hu
  · intro err' u hu
    rw [h] at hu
    cases hu
    exact ho

/-- What a parser goes on with agrees when that agrees from where it goes on. -/
theorem Agrees.of_eq {p q : Parser Expr} {s t : Cursor} {r r' : Reading}
    {H : Expr → Nat → Reading → Prop} (h : Agrees stop q t r' H) (hp : p s = q t)
    (ho : outcome .parser stop r s.rest = outcome .parser stop r' t.rest) :
    Agrees stop p s r H := by
  constructor
  · intro e u hu
    rw [ho]
    exact h.ok (hp.symm.trans hu)
  · intro err u hu
    rw [ho]
    exact h.error (hp.symm.trans hu)

theorem Agrees.imp {p : Parser Expr} {s : Cursor} {r : Reading}
    {H H' : Expr → Nat → Reading → Prop} (h : Agrees stop p s r H)
    (hH : ∀ {e k r'}, H e k r' → H' e k r') : Agrees stop p s r H' := by
  constructor
  · intro e t ht
    obtain ⟨r', hr, hout⟩ := h.ok ht
    exact ⟨r', hH hr, hout⟩
  · intro err t ht
    exact h.error ht

/-! ## Chains -/

section Chain

/-! `H` is the state that holds a value of the chain, `W` the one behind an operator. -/

variable (product : Bool) {operand : Parser Expr} {N : Nat}
  {H : Expr → Nat → Reading → Prop} {W : Expr → Operator → Nat → Reading}
  (hsound : Sound (.operand product) operand) (hN : N ≤ maxNesting)
  (hstep : ∀ {left k r o} (pos : Nat), H left k r → o.isProduct = product →
    r.step .parser ⟨.op o, pos⟩ =
      if k < maxOperators then .ok (W left o (k + 1)) else .error (.tooDeep pos))
  (hoperand : ∀ {left o s}, o.isProduct = product → s.nesting = N →
    Agrees stop operand s (W left o s.operators) fun right => H (.binary o left right))

include hsound hN hstep hoperand

/-- Joining operands agrees with reading, by induction on the operators that may still come. -/
theorem chainFrom_agrees :
    ∀ {steps : Nat} {left : Expr} {s : Cursor} {r : Reading}, s.nesting = N →
      s.rest.length ≤ steps → H left s.operators r →
      Agrees stop (chainFrom product operand steps left) s r H := by
  intro steps
  induction steps with
  | zero =>
    intro left s r _ hlen hr
    exact .of_ok rfl hr rfl
  | succ steps ih =>
    intro left s r hs hlen hr
    rcases noOperator_or product s.rest with hno | ⟨o, pos, tail, hrest, ho⟩
    · exact .of_ok (chainFrom_of_noOperator hno _ _ _) hr rfl
    · obtain ⟨rest, m, k⟩ := s
      cases hrest
      have htoken := hstep pos hr ho
      by_cases hk : k < maxOperators
      · rw [if_pos hk] at htoken
        have hcons := chainFrom_cons ho hk pos m tail operand steps left
        have hfirst : Agrees stop operand ⟨tail, m, k + 1⟩ (W left o (k + 1)) _ :=
          hoperand ho hs
        cases hv : operand ⟨tail, m, k + 1⟩ with
        | error err v =>
          rw [bind_of_error hv] at hcons
          refine .of_error hcons ?_
          rw [outcome_cons_of_ok stop htoken]
          exact hfirst.error hv
        | ok right v =>
          rw [bind_of_ok hv] at hcons
          obtain ⟨r', hr', hout⟩ := hfirst.ok hv
          obtain ⟨-, used, n, j, htakes⟩ := hsound (by simp only at hs ⊢; omega) hv
          have hv₁ : v.nesting = N := htakes.nesting_eq.trans hs
          have hv₂ : v.rest.length ≤ steps := by
            have := congrArg List.length htakes.rest_eq
            simp only [List.length_append, List.length_cons] at this hlen
            omega
          exact (ih hv₁ hv₂ hr').of_eq hcons ((outcome_cons_of_ok stop htoken tail).trans hout)
      · rw [if_neg hk] at htoken
        exact .of_error (chainFrom_full ho hk pos m tail operand steps left)
          (outcome_cons_of_error stop htoken tail)

/-- A chain agrees with reading when its operands do. -/
theorem chain_agrees {s : Cursor} {r : Reading} (hs : s.nesting = N)
    (hfirst : Agrees stop operand s r H) : Agrees stop (chain product operand) s r H := by
  cases hv : operand s with
  | error err v => exact .of_error (chain_of_error hv) (hfirst.error hv)
  | ok left v =>
    obtain ⟨r', hr', hout⟩ := hfirst.ok hv
    obtain ⟨-, used, n, j, htakes⟩ := hsound (hs ▸ hN) hv
    have hchain := chainFrom_agrees (H := H) (W := W) product hsound hN hstep hoperand
      (htakes.nesting_eq.trans hs) (Nat.le_refl _) hr'
    exact hchain.of_eq (chain_of_ok hv) hout

end Chain

/-- What a parser for factors must do: read a value into any place at its depth. -/
def Fills (stop : Nat) (p : Parser Expr) (N : Nat) : Prop :=
  ∀ ⦃s : Cursor⦄ ⦃opened : List Opened⦄ ⦃slot : Slot⦄, s.nesting = N → nesting opened slot = N →
    Agrees stop p s (wanting opened slot s.operators) fun e k r => r = fill opened slot k e

/-- A term is read into a place without a product and without signs before it. -/
theorem term_agrees {factor : Parser Expr} {N : Nat} (hsound : Sound .factor factor)
    (hN : N ≤ maxNesting) (h : Fills stop factor N) {s : Cursor} {opened : List Opened}
    (sum : Waiting) (hs : s.nesting = N) (hn : nesting opened ⟨sum, none, []⟩ = N) :
    Agrees stop (chain true factor) s (wanting opened ⟨sum, none, []⟩ s.operators)
      fun e k r => r = holding opened sum e k := by
  refine chain_agrees true
    (W := fun left o k => wanting opened ⟨sum, some (left, o), []⟩ k) hsound hN ?_ ?_ hs (h hs hn)
  · rintro left k r o pos rfl ho
    simp only [step, slotAfter, ho, Limits.parser, if_true]
  · intro left o s' _ hs'
    exact h hs' hn

theorem sumOf_agrees {factor : Parser Expr} {N : Nat} (hsound : Sound .factor factor)
    (hN : N ≤ maxNesting) (h : Fills stop factor N) {s : Cursor} {opened : List Opened}
    (hs : s.nesting = N) (hn : nesting opened .fresh = N) :
    Agrees stop (sumOf factor) s (wanting opened .fresh s.operators)
      fun e k r => ∃ sum term, r = holding opened sum term k ∧ Waiting.join sum term = e := by
  refine chain_agrees false
    (W := fun left o k => wanting opened ⟨some (left, o), none, []⟩ k) (term_sound hsound) hN
    ?_ ?_ hs ?_
  · rintro left k r o pos ⟨sum, term, rfl, rfl⟩ ho
    simp only [step, slotAfter, ho, Limits.parser, Bool.false_eq_true, if_false]
  · intro left o s' _ hs'
    apply (term_agrees hsound hN h (some (left, o)) hs' hn).imp
    rintro e k r' rfl
    exact ⟨_, _, rfl, rfl⟩
  · apply (term_agrees hsound hN h none hs hn).imp
    rintro e k r' rfl
    exact ⟨_, _, rfl, rfl⟩

/-! ## Factors -/

/-- A parser that takes a token and then runs `inner` one level deeper agrees from that token on. -/
theorem nested_agrees {p inner : Parser Expr} {pos m k : Nat} {token : Token} {rest : List Lexeme}
    {r r' : Reading} {H : Expr → Nat → Reading → Prop} (f : Expr → Expr)
    (hok : ∀ {e t}, nested pos inner ⟨rest, m, k⟩ = .ok e t →
      p ⟨⟨token, pos⟩ :: rest, m, k⟩ = .ok (f e) t)
    (herror : ∀ {err t}, nested pos inner ⟨rest, m, k⟩ = .error err t →
      p ⟨⟨token, pos⟩ :: rest, m, k⟩ = .error err t)
    (hstep : r.step .parser ⟨token, pos⟩ = if m < maxNesting then .ok r' else .error (.tooDeep pos))
    (h : m < maxNesting → Agrees stop inner ⟨rest, m + 1, k⟩ r' fun e => H (f e)) :
    Agrees stop p ⟨⟨token, pos⟩ :: rest, m, k⟩ r H := by
  by_cases hm : m < maxNesting
  · rw [if_pos hm] at hstep
    cases hi : inner ⟨rest, m + 1, k⟩ with
    | ok e t =>
      obtain ⟨r'', hr, hout⟩ := (h hm).ok hi
      exact .of_ok (hok (nested_of_ok hm hi)) hr ((outcome_cons_of_ok stop hstep rest).trans hout)
    | error err t =>
      exact .of_error (herror (nested_of_error hm hi))
        ((outcome_cons_of_ok stop hstep rest).trans ((h hm).error hi))
  · rw [if_neg hm] at hstep
    exact .of_error (herror (nested_of_not_lt hm)) (outcome_cons_of_error stop hstep rest)

theorem parenthesised_agrees {depth pos m k : Nat} {rest : List Lexeme} {opened : List Opened}
    {slot : Slot} (hm : m + 1 ≤ maxNesting) (hn : nesting opened slot = m)
    (h : Fills stop (factorWithin stop depth) (m + 1)) :
    Agrees stop (parenthesised stop depth pos) ⟨rest, m + 1, k⟩
      (wanting (⟨pos, slot⟩ :: opened) .fresh k) fun e k r => r = fill opened slot k e := by
  have hsound := factorWithin_sound stop depth
  have hn' : nesting (⟨pos, slot⟩ :: opened) .fresh = m + 1 := by rw [nesting_cons_fresh, hn]
  have hsum : Agrees stop (sumOf (factorWithin stop depth)) ⟨rest, m + 1, k⟩
      (wanting (⟨pos, slot⟩ :: opened) .fresh k) _ := sumOf_agrees hsound hm h rfl hn'
  cases hv : sumOf (factorWithin stop depth) ⟨rest, m + 1, k⟩ with
  | error err v => exact .of_error (bind_of_error hv _) (hsum.error hv)
  | ok e v =>
    obtain ⟨r', ⟨sum, term, rfl, rfl⟩, hout⟩ := hsum.ok hv
    obtain ⟨hstop, -⟩ := sumOf_sound hsound hm hv
    have hp : parenthesised stop depth pos ⟨rest, m + 1, k⟩ =
        (closing pos >>= fun _ => return sum.join term) v := bind_of_ok hv _
    obtain ⟨tail, m', k'⟩ := v
    match tail with
    | [] => exact .of_error hp hout
    | ⟨.rparen, pos'⟩ :: tail => exact .of_ok hp rfl hout
    | ⟨.number r, pos'⟩ :: tail => exact .of_error hp hout
    | ⟨.lparen, pos'⟩ :: tail => exact .of_error hp hout
    | ⟨.op o, pos'⟩ :: tail => cases hstop o pos' tail rfl

/-- A factor is read into any place, by induction on the depth it may reach. -/
theorem factorWithin_agrees (stop : Nat) :
    ∀ depth N, N ≤ maxNesting → maxNesting < N + depth →
      Fills stop (factorWithin stop depth) N := by
  intro depth
  induction depth with
  | zero =>
    intro N hN hd
    omega
  | succ depth ih =>
    intro N hN hd s opened slot hs hn
    obtain ⟨rest, m, k⟩ := s
    simp only at hs
    subst hs
    match rest with
    | [] => exact .of_error (factorWithin_nil stop depth m k) rfl
    | ⟨token, pos⟩ :: rest =>
      have hcons := factorWithin_cons stop depth pos m k token rest
      have hdeeper : m < maxNesting → Fills stop (factorWithin stop depth) (m + 1) :=
        fun hm => ih (m + 1) hm (by omega)
      match token, hcons with
      | .number r, hcons => exact .of_ok hcons rfl rfl
      | .op .mul, hcons | .op .div, hcons | .rparen, hcons => exact .of_error hcons rfl
      | .op .add, hcons =>
        refine nested_agrees (Slot.signed false) (fun h => hcons.trans h) (fun h => hcons.trans h)
          (hn ▸ step_plus opened slot k pos) fun hm => ?_
        exact hdeeper hm rfl (by rw [nesting_afterSign, hn])
      | .op .sub, hcons =>
        refine nested_agrees (Slot.signed true) (fun h => hcons.trans (bind_of_ok h _))
          (fun h => hcons.trans (bind_of_error h _)) (hn ▸ step_minus opened slot k pos)
          fun hm => ?_
        exact hdeeper hm rfl (by rw [nesting_afterSign, hn])
      | .lparen, hcons =>
        refine nested_agrees id (fun h => hcons.trans h) (fun h => hcons.trans h)
          (hn ▸ step_lparen opened slot k pos) fun hm => ?_
        exact parenthesised_agrees hm hn (hdeeper hm)

/-- The parser reads a text in one pass. -/
theorem parse_eq_outcome (lexemes : List Lexeme) (stop : Nat) :
    Expr.parse lexemes stop = outcome .parser stop .start lexemes := by
  have hfactor := factorWithin_agrees stop (maxNesting + 1) 0 (Nat.zero_le _) (by omega)
  have hsound := factorWithin_sound stop (maxNesting + 1)
  have hsum : Agrees stop (Parser.sum stop) ⟨lexemes, 0, 0⟩ .start _ :=
    sumOf_agrees hsound (Nat.zero_le _) hfactor rfl rfl
  unfold Expr.parse
  cases hv : Parser.sum stop ⟨lexemes, 0, 0⟩ with
  | error err v => exact (hsum.error hv).symm
  | ok e v =>
    obtain ⟨r', ⟨sum, term, rfl, rfl⟩, hout⟩ := hsum.ok hv
    obtain ⟨hstop, -⟩ := sumOf_sound hsound (Nat.zero_le _) hv
    rw [show outcome .parser stop .start lexemes = _ from hout]
    obtain ⟨tail, m, k⟩ := v
    match tail with
    | [] | ⟨.rparen, pos⟩ :: tail | ⟨.number r, pos⟩ :: tail | ⟨.lparen, pos⟩ :: tail => rfl
    | ⟨.op o, pos⟩ :: tail => cases hstop o pos tail rfl

end Parser

end ExactLength
