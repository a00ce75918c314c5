import ExactLength.Expr.Grammar

/-!
# What the parsers take

Each parser of `Expr.Parser` either takes the tokens of an expression of its level and stops before
a token that cannot continue it, or fails.

Results:
* `factorWithin_cons`: what a factor does at each kind of token.
* `factorWithin_sound`, `chain_sound`: on success the tokens taken derive the tree, within the
  bounds on nesting and operators.
* `derives_of_parse`: an accepted text is derived as a whole.
-/

namespace ExactLength

/-! ## Levels -/

namespace Level

/-- The level of the chains of operators of one kind. -/
def chain : Bool → Level
  | true => .term
  | false => .sum

/-- The level of the operands of such a chain. -/
def operand : Bool → Level
  | true => .factor
  | false => .term

/-- An operator that continues an expression of the level. -/
def continuedBy : Level → Operator → Bool
  | factor, _ => false
  | term, o => o.isProduct
  | sum, _ => true

/-- The lexemes do not begin with an operator that continues an expression of the level. -/
def StopsAt (level : Level) (rest : List Lexeme) : Prop :=
  ∀ o pos tail, rest = ⟨.op o, pos⟩ :: tail → level.continuedBy o = false

theorem stopsAt_factor (rest : List Lexeme) : factor.StopsAt rest := fun _ _ _ _ => rfl

theorem stopsAt_nil (level : Level) : level.StopsAt [] := fun _ _ _ h => by cases h

theorem continuedBy_chain (product : Bool) (o : Operator) :
    (chain product).continuedBy o = ((operand product).continuedBy o || o.isProduct == product) := by
  cases product <;> cases o <;> rfl

end Level

theorem Derives.single {product : Bool} {ts : List Token} {n k : Nat} {e : Expr}
    (h : Derives (.operand product) ts n k e) : Derives (.chain product) ts n k e := by
  cases product with
  | true => exact .term h
  | false => exact .sum h

theorem Derives.joined {product : Bool} {ts us : List Token} {n m k l : Nat} {a b : Expr}
    {o : Operator} (ha : Derives (.chain product) ts n k a) (ho : o.isProduct = product)
    (hb : Derives (.operand product) us m l b) :
    Derives (.chain product) (ts ++ .op o :: us) (max n m) (k + l + 1) (.binary o a b) := by
  cases product with
  | true => exact .product ha ho hb
  | false => exact .addition ha ho hb

namespace Parser

/-! ## One step of a parser -/

variable {α β : Type}

theorem bind_of_ok {p : Parser α} {s t : Cursor} {a : α} (h : p s = .ok a t) (f : α → Parser β) :
    (p >>= f) s = f a t := by
  show EStateM.bind p f s = f a t
  simp only [EStateM.bind, h]

theorem bind_of_error {p : Parser α} {s t : Cursor} {err : EvalError} (h : p s = .error err t)
    (f : α → Parser β) : (p >>= f) s = .error err t := by
  show EStateM.bind p f s = .error err t
  simp only [EStateM.bind, h]

theorem bind_eq_ok_iff {p : Parser α} {f : α → Parser β} {s u : Cursor} {b : β} :
    (p >>= f) s = .ok b u ↔ ∃ a t, p s = .ok a t ∧ f a t = .ok b u := by
  cases h : p s with
  | ok a t =>
    rw [bind_of_ok h]
    constructor
    · intro hf
      exact ⟨a, t, rfl, hf⟩
    · rintro ⟨_, _, ⟨⟩, hf⟩
      exact hf
  | error err t =>
    rw [bind_of_error h]
    constructor
    · intro hf
      cases hf
    · rintro ⟨_, _, ⟨⟩, _⟩

theorem nested_of_ok {pos : Nat} {inner : Parser α} {s t : Cursor} {a : α}
    (h : s.nesting < maxNesting) (hi : inner { s with nesting := s.nesting + 1 } = .ok a t) :
    nested pos inner s = .ok a { t with nesting := t.nesting - 1 } := by
  simp only [nested, if_pos h, hi]

theorem nested_of_error {pos : Nat} {inner : Parser α} {s t : Cursor} {err : EvalError}
    (h : s.nesting < maxNesting) (hi : inner { s with nesting := s.nesting + 1 } = .error err t) :
    nested pos inner s = .error err { t with nesting := t.nesting - 1 } := by
  simp only [nested, if_pos h, hi]

theorem nested_of_not_lt {pos : Nat} {inner : Parser α} {s : Cursor}
    (h : ¬ s.nesting < maxNesting) : nested pos inner s = .error (.tooDeep pos) s := by
  rw [nested, if_neg h]

theorem nested_eq_ok_iff {pos : Nat} {inner : Parser α} {s u : Cursor} {a : α} :
    nested pos inner s = .ok a u ↔
      s.nesting < maxNesting ∧ ∃ t, inner { s with nesting := s.nesting + 1 } = .ok a t ∧
        u = { t with nesting := t.nesting - 1 } := by
  by_cases h : s.nesting < maxNesting
  · cases hi : inner { s with nesting := s.nesting + 1 } with
    | ok b t =>
      rw [nested_of_ok h hi]
      constructor
      · rintro ⟨⟩
        exact ⟨h, t, rfl, rfl⟩
      · rintro ⟨-, _, ⟨⟩, rfl⟩
        rfl
    | error err t => simp [nested_of_error h hi]
  · simp [nested_of_not_lt h, h]

/-- A sum in parentheses, without the first one. -/
def parenthesised (stop depth pos : Nat) : Parser Expr := do
  let e ← sumOf (factorWithin stop depth)
  closing pos
  return e

theorem factorWithin_nil (stop depth n k : Nat) :
    factorWithin stop (depth + 1) ⟨[], n, k⟩ = .error (.malformed none stop) ⟨[], n, k⟩ := rfl

/-- What a factor does at each kind of token. -/
theorem factorWithin_cons (stop depth pos n k : Nat) (token : Token) (rest : List Lexeme) :
    factorWithin stop (depth + 1) ⟨⟨token, pos⟩ :: rest, n, k⟩ =
      match token with
      | .number r => .ok (.lit r) ⟨rest, n, k⟩
      | .op .add => nested pos (factorWithin stop depth) ⟨rest, n, k⟩
      | .op .sub =>
        (nested pos (factorWithin stop depth) >>= fun e => return .neg e) ⟨rest, n, k⟩
      | .lparen => nested pos (parenthesised stop depth pos) ⟨rest, n, k⟩
      | found => .error (.malformed (some found) pos) ⟨rest, n, k⟩ := by
  rw [factorWithin]
  match token with
  | .number _ | .op .add | .op .sub | .op .mul | .op .div | .lparen | .rparen => rfl

theorem closing_cons (opened pos n k : Nat) (token : Token) (rest : List Lexeme) :
    closing opened ⟨⟨token, pos⟩ :: rest, n, k⟩ =
      match token with
      | .rparen => .ok () ⟨rest, n, k⟩
      | found => .error (.trailingInput found pos) ⟨rest, n, k⟩ := by
  cases token <;> rfl

theorem closing_eq_ok_iff {opened : Nat} {s t : Cursor} :
    closing opened s = .ok () t ↔ ∃ pos, s = ⟨⟨.rparen, pos⟩ :: t.rest, t.nesting, t.operators⟩ := by
  obtain ⟨rest, n, k⟩ := s
  cases rest with
  | nil => simp [show closing opened ⟨[], n, k⟩ = .error (.unmatchedParenthesis opened) ⟨[], n, k⟩
      from rfl]
  | cons l rest =>
    obtain ⟨token, pos⟩ := l
    rw [closing_cons]
    obtain ⟨rest', n', k'⟩ := t
    cases token <;> simp

theorem parenthesised_eq_ok {stop depth pos : Nat} {s t : Cursor} {e : Expr}
    (h : parenthesised stop depth pos s = .ok e t) :
    ∃ pos', sumOf (factorWithin stop depth) s =
      .ok e ⟨⟨.rparen, pos'⟩ :: t.rest, t.nesting, t.operators⟩ := by
  obtain ⟨a, v, hv, ht⟩ := bind_eq_ok_iff.mp h
  obtain ⟨_, w, hw, ht⟩ := bind_eq_ok_iff.mp ht
  cases ht
  obtain ⟨pos', rfl⟩ := closing_eq_ok_iff.mp hw
  exact ⟨pos', hv⟩

/-- The lexemes do not begin with an operator of the given kind. -/
def NoOperator (product : Bool) (rest : List Lexeme) : Prop :=
  ∀ o pos tail, rest = ⟨.op o, pos⟩ :: tail → o.isProduct ≠ product

theorem stopsAt_chain {product : Bool} {rest : List Lexeme}
    (ho : (Level.operand product).StopsAt rest) (h : NoOperator product rest) :
    (Level.chain product).StopsAt rest := by
  intro o pos tail hr
  rw [Level.continuedBy_chain, ho o pos tail hr]
  simpa using h o pos tail hr

theorem operator?_of_noOperator {product : Bool} {s : Cursor} (h : NoOperator product s.rest) :
    operator? product s = .ok none s := by
  obtain ⟨rest, n, k⟩ := s
  unfold operator?
  split
  · next o pos tail hr => rw [if_neg (h o pos tail hr)]
  · rfl

theorem operator?_cons {o : Operator} {product : Bool} (ho : o.isProduct = product)
    (pos n k : Nat) (rest : List Lexeme) :
    operator? product ⟨⟨.op o, pos⟩ :: rest, n, k⟩ =
      if k < maxOperators then .ok (some o) ⟨rest, n, k + 1⟩
      else .error (.tooDeep pos) ⟨⟨.op o, pos⟩ :: rest, n, k⟩ := by
  simp only [operator?, if_pos ho]

theorem noOperator_or (product : Bool) (rest : List Lexeme) :
    NoOperator product rest ∨
      ∃ o pos tail, rest = ⟨.op o, pos⟩ :: tail ∧ o.isProduct = product := by
  match rest with
  | [] => exact .inl fun _ _ _ h => by cases h
  | ⟨.op o, pos⟩ :: tail =>
    by_cases ho : o.isProduct = product
    · exact .inr ⟨o, pos, tail, rfl, ho⟩
    · exact .inl fun _ _ _ h => by cases h; exact ho
  | ⟨.number _, _⟩ :: _ | ⟨.lparen, _⟩ :: _ | ⟨.rparen, _⟩ :: _ =>
    exact .inl fun _ _ _ h => by cases h

theorem chainFrom_of_noOperator {product : Bool} {s : Cursor} (h : NoOperator product s.rest)
    (operand : Parser Expr) (steps : Nat) (left : Expr) :
    chainFrom product operand steps left s = .ok left s := by
  cases steps with
  | zero => rfl
  | succ steps =>
    rw [chainFrom, bind_of_ok (operator?_of_noOperator h)]
    rfl

theorem chainFrom_cons {o : Operator} {product : Bool} {k : Nat} (ho : o.isProduct = product)
    (hk : k < maxOperators) (pos n : Nat) (rest : List Lexeme) (operand : Parser Expr) (steps : Nat)
    (left : Expr) :
    chainFrom product operand (steps + 1) left ⟨⟨.op o, pos⟩ :: rest, n, k⟩ =
      (operand >>= fun right => chainFrom product operand steps (.binary o left right))
        ⟨rest, n, k + 1⟩ := by
  have h := operator?_cons ho pos n k rest
  rw [if_pos hk] at h
  rw [chainFrom, bind_of_ok h]

theorem chainFrom_full {o : Operator} {product : Bool} {k : Nat} (ho : o.isProduct = product)
    (hk : ¬ k < maxOperators) (pos n : Nat) (rest : List Lexeme) (operand : Parser Expr)
    (steps : Nat) (left : Expr) :
    chainFrom product operand (steps + 1) left ⟨⟨.op o, pos⟩ :: rest, n, k⟩ =
      .error (.tooDeep pos) ⟨⟨.op o, pos⟩ :: rest, n, k⟩ := by
  have h := operator?_cons ho pos n k rest
  rw [if_neg hk] at h
  rw [chainFrom, bind_of_error h]

theorem chain_of_ok {product : Bool} {operand : Parser Expr} {s t : Cursor} {e : Expr}
    (h : operand s = .ok e t) :
    chain product operand s = chainFrom product operand t.rest.length e t := by
  rw [chain, bind_of_ok h]
  rfl

theorem chain_of_error {product : Bool} {operand : Parser Expr} {s t : Cursor} {err : EvalError}
    (h : operand s = .error err t) : chain product operand s = .error err t := by
  rw [chain, bind_of_error h]

/-! ## Soundness -/

/-- From `s` to `t` a parser took the lexemes `used`, which derive `e` within the bounds. -/
structure Takes (level : Level) (s : Cursor) (e : Expr) (t : Cursor) (used : List Lexeme)
    (n k : Nat) : Prop where
  rest_eq : s.rest = used ++ t.rest
  derives : Derives level (used.map Lexeme.token) n k e
  nesting_eq : t.nesting = s.nesting
  nesting_le : s.nesting + n ≤ maxNesting
  operators_eq : t.operators = s.operators + k
  operators_le : t.operators ≤ max s.operators maxOperators

/-- A parser is sound for a level: whenever it succeeds, it took an expression of the level and
stopped where it had to. -/
def Sound (level : Level) (p : Parser Expr) : Prop :=
  ∀ ⦃s t : Cursor⦄ ⦃e : Expr⦄, s.nesting ≤ maxNesting → p s = .ok e t →
    level.StopsAt t.rest ∧ ∃ used n k, Takes level s e t used n k

theorem Takes.single {product : Bool} {s t : Cursor} {e : Expr} {used : List Lexeme} {n k : Nat}
    (h : Takes (.operand product) s e t used n k) : Takes (.chain product) s e t used n k :=
  { h with derives := h.derives.single }

theorem Takes.joined {product : Bool} {s : Cursor} {left right : Expr} {o : Operator}
    {rest : List Lexeme} {pos m l : Nat} {t : Cursor} {used used' : List Lexeme} {n k j : Nat}
    (h : Takes (.chain product) s left ⟨⟨.op o, pos⟩ :: rest, m, l⟩ used n k)
    (ho : o.isProduct = product) (hl : l < maxOperators) {n' : Nat}
    (hr : Takes (.operand product) ⟨rest, m, l + 1⟩ right t used' n' j) :
    Takes (.chain product) s (.binary o left right) t (used ++ ⟨.op o, pos⟩ :: used') (max n n')
      (k + j + 1) := by
  have h₁ := h.nesting_eq
  have h₂ := h.nesting_le
  have h₃ := h.operators_eq
  have h₄ := hr.nesting_eq
  have h₅ := hr.nesting_le
  have h₆ := hr.operators_eq
  have h₇ := hr.operators_le
  have h₈ := h.rest_eq
  have h₉ := hr.rest_eq
  simp only at h₁ h₃ h₄ h₅ h₆ h₇ h₈ h₉
  refine ⟨?_, ?_, by omega, by omega, by omega, by omega⟩
  · rw [h₈, h₉, List.append_assoc, List.cons_append]
  · simpa using h.derives.joined ho hr.derives

/-- Joining operands keeps to the grammar, by induction on the operators that may still come. -/
theorem chainFrom_takes {product : Bool} {operand : Parser Expr}
    (hop : Sound (.operand product) operand) {s : Cursor} (hs : s.nesting ≤ maxNesting)
    {u : Cursor} {e : Expr} :
    ∀ {steps : Nat} {left : Expr} {t : Cursor} {used : List Lexeme} {n k : Nat},
      t.rest.length ≤ steps → (Level.operand product).StopsAt t.rest →
      Takes (.chain product) s left t used n k →
      chainFrom product operand steps left t = .ok e u →
      (Level.chain product).StopsAt u.rest ∧
        ∃ used n k, Takes (.chain product) s e u used n k := by
  intro steps
  induction steps with
  | zero =>
    intro left t used n k hlen _ ht h
    cases h
    have hnil : u.rest = [] := List.length_eq_zero_iff.mp (by omega)
    rw [hnil]
    exact ⟨Level.stopsAt_nil _, used, n, k, ht⟩
  | succ steps ih =>
    intro left t used n k hlen hstop ht h
    rcases noOperator_or product t.rest with hno | ⟨o, pos, tail, hr, ho⟩
    · rw [chainFrom_of_noOperator hno] at h
      cases h
      exact ⟨stopsAt_chain hstop hno, used, n, k, ht⟩
    · obtain ⟨rest, m, l⟩ := t
      cases hr
      by_cases hl : l < maxOperators
      · rw [chainFrom_cons ho hl, bind_eq_ok_iff] at h
        obtain ⟨right, v, hv, h⟩ := h
        have hm : m ≤ maxNesting := by
          have := ht.nesting_eq
          simp only at this
          omega
        obtain ⟨hstop', used', n', j, hright⟩ := hop hm hv
        have hlen' : v.rest.length ≤ steps := by
          have := congrArg List.length hright.rest_eq
          simp only [List.length_append, List.length_cons] at this hlen
          omega
        exact ih hlen' hstop' (ht.joined ho hl hright) h
      · rw [chainFrom_full ho hl] at h
        cases h

/-- Operands joined by operators are sound for the level above. -/
theorem chain_sound {product : Bool} {operand : Parser Expr}
    (hop : Sound (.operand product) operand) : Sound (.chain product) (chain product operand) := by
  intro s t e hs h
  cases hv : operand s with
  | error err v =>
    rw [chain_of_error hv] at h
    cases h
  | ok left v =>
    rw [chain_of_ok hv] at h
    obtain ⟨hstop, used, n, k, hleft⟩ := hop hs hv
    exact chainFrom_takes hop hs (Nat.le_refl _) hstop hleft.single h

theorem term_sound {factor : Parser Expr} (h : Sound .factor factor) :
    Sound .term (chain true factor) :=
  show Sound (.chain true) (chain true factor) from chain_sound h

theorem sumOf_sound {factor : Parser Expr} (h : Sound .factor factor) :
    Sound .sum (sumOf factor) :=
  show Sound (.chain false) (sumOf factor) from chain_sound (term_sound h)

/-- A parser that runs one level deeper takes what it takes there, with the token in front. -/
theorem Takes.nested (more : List Lexeme) {level : Level} {token : Token} {pos m l : Nat}
    {rest : List Lexeme} {e e' : Expr} {t : Cursor} {used : List Lexeme} {n k : Nat}
    (h : Takes level ⟨rest, m + 1, l⟩ e ⟨more ++ t.rest, t.nesting, t.operators⟩ used n k)
    (hd : Derives .factor (token :: (used ++ more).map Lexeme.token) (n + 1) k e') :
    Takes .factor ⟨⟨token, pos⟩ :: rest, m, l⟩ e' { t with nesting := t.nesting - 1 }
      (⟨token, pos⟩ :: (used ++ more)) (n + 1) k := by
  have h₁ := h.rest_eq
  have h₂ := h.nesting_eq
  have h₃ := h.nesting_le
  simp only at h₁ h₂ h₃
  refine ⟨?_, hd, ?_, ?_, h.operators_eq, h.operators_le⟩
  · simp [h₁]
  · simp only
    omega
  · simp only
    omega

/-- A factor is sound, by induction on the depth it may reach. -/
theorem factorWithin_sound (stop : Nat) : ∀ depth, Sound .factor (factorWithin stop depth) := by
  intro depth
  induction depth with
  | zero =>
    intro s t e _ h
    cases h
  | succ depth ih =>
    intro s u e hs h
    refine ⟨Level.stopsAt_factor _, ?_⟩
    obtain ⟨rest, m, l⟩ := s
    match rest with
    | [] =>
      rw [factorWithin_nil] at h
      cases h
    | ⟨token, pos⟩ :: rest =>
      rw [factorWithin_cons] at h
      match token, h with
      | .number r, h =>
        cases h
        exact ⟨[⟨.number r, pos⟩], 0, 0, rfl, .number r, rfl, hs, rfl, by simp only; omega⟩
      | .op .add, h =>
        obtain ⟨hm, t, ht, rfl⟩ := nested_eq_ok_iff.mp h
        obtain ⟨-, used, n, k, htakes⟩ := ih (by simp only at hm ⊢; omega) ht
        refine ⟨_, _, _, Takes.nested [] htakes ?_⟩
        rw [List.append_nil]
        exact .plus htakes.derives
      | .op .sub, h =>
        obtain ⟨a, v, hv, ha⟩ := bind_eq_ok_iff.mp h
        cases ha
        obtain ⟨hm, t, ht, rfl⟩ := nested_eq_ok_iff.mp hv
        obtain ⟨-, used, n, k, htakes⟩ := ih (by simp only at hm ⊢; omega) ht
        refine ⟨_, _, _, Takes.nested [] htakes ?_⟩
        rw [List.append_nil]
        exact .minus htakes.derives
      | .lparen, h =>
        obtain ⟨hm, t, ht, rfl⟩ := nested_eq_ok_iff.mp h
        obtain ⟨pos', hv⟩ := parenthesised_eq_ok ht
        obtain ⟨-, used, n, k, htakes⟩ := sumOf_sound ih (by simp only at hm ⊢; omega) hv
        refine ⟨_, _, _, Takes.nested [⟨.rparen, pos'⟩] htakes ?_⟩
        rw [List.map_append]
        exact .paren htakes.derives

/-- The accepted text is derived as a whole. -/
theorem derives_of_parse {lexemes : List Lexeme} {stop : Nat} {e : Expr}
    (h : Expr.parse lexemes stop = .ok e) :
    ∃ n k, Derives .sum (lexemes.map Lexeme.token) n k e ∧ n ≤ maxNesting ∧ k ≤ maxOperators := by
  unfold Expr.parse at h
  split at h
  · cases h
  · next a s hs =>
    split at h
    · next hr =>
      cases h
      obtain ⟨-, used, n, k, ht⟩ := sumOf_sound (factorWithin_sound stop _) (Nat.zero_le _) hs
      have h₁ := ht.rest_eq
      have h₂ := ht.nesting_le
      have h₃ := ht.operators_eq
      have h₄ := ht.operators_le
      simp only [hr, List.append_nil] at h₁ h₂ h₃ h₄
      rw [h₁]
      exact ⟨n, k, ht.derives, by omega, by omega⟩
    · cases h

end Parser

end ExactLength
