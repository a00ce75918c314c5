import ExactLength.Proofs.Expr.Acceptance

/-!
# What a call of the parser keeps

The parsers for factors, terms and sums call each other and share one state, which a call changes
whether it succeeds or fails. A call leaves the nesting as it found it, so one that was made a level
deeper finds the counter above zero when the level is left. It never goes back and never beyond the
last lexeme. When it succeeds, it took at least one lexeme and counted the operators of the tree it
returns; the tree depends on the tokens it took and on nothing else in the state.

`factorWithin` counts down a depth. The bound on nesting is met before the depth is used up, so the
depth makes no difference, and behind a sign or in parentheses `factor` is called again.

Results:
* `Keeps.bind`, `Keeps.nested`, `Keeps.chain`: what the parts of a parser keep, it keeps.
* `keeps_factorWithin`, `keeps_call`: the nesting and the lexemes, on success and on error.
* `factorWithin_eq_factor`, `factor_cons`: the depth makes no difference.
* `call_counts`: the counters and the lexemes after a call, and its tree.
-/

namespace ExactLength

namespace Parser

variable {α β : Type}

/-! ## Success and failure -/

/-- From `s` to `t` the nesting stayed as it was, and a part of the lexemes is left, those at the
end. -/
structure Onward (s t : Cursor) : Prop where
  nesting_eq : t.nesting = s.nesting
  rest_suffix : t.rest <:+ s.rest

theorem Onward.refl (s : Cursor) : Onward s s := ⟨rfl, List.suffix_rfl⟩

theorem Onward.trans {s t u : Cursor} (h : Onward s t) (h' : Onward t u) : Onward s u :=
  ⟨h'.nesting_eq.trans h.nesting_eq, h'.rest_suffix.trans h.rest_suffix⟩

/-- Whether it succeeds or fails, the parser leaves the nesting as it found it and goes onward in
its lexemes. -/
def Keeps (p : Parser α) : Prop := ∀ s, Onward s (stopsAt p s)

theorem stopsAt_of_ok {p : Parser α} {s t : Cursor} {a : α} (h : p s = .ok a t) :
    stopsAt p s = t := by
  rw [stopsAt, h]

theorem stopsAt_of_error {p : Parser α} {s t : Cursor} {err : EvalError} (h : p s = .error err t) :
    stopsAt p s = t := by
  rw [stopsAt, h]

theorem Keeps.of_ok {p : Parser α} {s t : Cursor} {a : α} (hp : Keeps p) (h : p s = .ok a t) :
    Onward s t :=
  stopsAt_of_ok h ▸ hp s

theorem Keeps.of_error {p : Parser α} {s t : Cursor} {err : EvalError} (hp : Keeps p)
    (h : p s = .error err t) : Onward s t :=
  stopsAt_of_error h ▸ hp s

theorem keeps_pure (a : α) : Keeps (pure a : Parser α) := Onward.refl

theorem keeps_get : Keeps (get : Parser Cursor) := Onward.refl

theorem keeps_throw (err : EvalError) : Keeps (throw err : Parser α) := Onward.refl

/-- The second parser goes on where the first one stops. -/
theorem Keeps.bind {p : Parser α} {f : α → Parser β} (hp : Keeps p) (hf : ∀ a, Keeps (f a)) :
    Keeps (p >>= f) := by
  intro s
  cases h : p s with
  | ok a t =>
    have hstop : stopsAt (p >>= f) s = stopsAt (f a) t := by
      rw [stopsAt, bind_of_ok h, stopsAt]
    rw [hstop]
    exact (hp.of_ok h).trans (hf a t)
  | error err t =>
    rw [stopsAt_of_error (bind_of_error h f)]
    exact hp.of_error h

/-- One level deeper the counter is above zero when the inner parser stops, so lowering it undoes
raising it. -/
theorem Keeps.nested {inner : Parser α} (h : Keeps inner) (pos : Nat) :
    Keeps (Parser.nested pos inner) := by
  intro s
  refine ⟨nested_nesting (fun t => (h t).nesting_eq) s, ?_⟩
  by_cases hn : s.nesting < maxNesting
  · cases hi : inner { s with nesting := s.nesting + 1 } with
    | ok a t =>
      rw [stopsAt_of_ok (nested_of_ok hn hi)]
      exact (h.of_ok hi).rest_suffix
    | error err t =>
      rw [stopsAt_of_error (nested_of_error hn hi)]
      exact (h.of_error hi).rest_suffix
  · have hstop : stopsAt (Parser.nested pos inner) s = s := stopsAt_of_error (nested_of_not_lt hn)
    simp only [hstop, List.suffix_rfl]

theorem keeps_next? : Keeps next? := by
  rintro ⟨rest, n, k⟩
  cases rest with
  | nil => exact Onward.refl _
  | cons l rest => exact ⟨rfl, List.suffix_cons l rest⟩

theorem keeps_operator? (product : Bool) : Keeps (operator? product) := by
  rintro ⟨rest, n, k⟩
  rcases noOperator_or product rest with hno | ⟨o, pos, tail, rfl, ho⟩
  · rw [stopsAt_of_ok (operator?_of_noOperator hno)]
    exact Onward.refl _
  · have hcons := operator?_cons ho pos n k tail
    split at hcons
    · rw [stopsAt_of_ok hcons]
      exact ⟨rfl, List.suffix_cons _ _⟩
    · rw [stopsAt_of_error hcons]
      exact Onward.refl _

theorem keeps_closing (opened : Nat) : Keeps (closing opened) := by
  refine keeps_next?.bind fun found => ?_
  match found with
  | some ⟨.rparen, _⟩ => exact keeps_pure ()
  | some ⟨.number _, _⟩ | some ⟨.op _, _⟩ | some ⟨.lparen, _⟩ | none => exact keeps_throw _

/-- Joining operands keeps what the operands keep, by induction on the operators that may come. -/
theorem Keeps.chainFrom {operand : Parser Expr} (h : Keeps operand) (product : Bool) (steps : Nat)
    (left : Expr) : Keeps (Parser.chainFrom product operand steps left) := by
  induction steps generalizing left with
  | zero => exact keeps_pure left
  | succ steps ih =>
    refine (keeps_operator? product).bind fun found => ?_
    cases found with
    | none => exact keeps_pure left
    | some o => exact h.bind fun right => ih (.binary o left right)

theorem Keeps.chain {operand : Parser Expr} (h : Keeps operand) (product : Bool) :
    Keeps (Parser.chain product operand) :=
  h.bind fun left => keeps_get.bind fun s => h.chainFrom product s.rest.length left

theorem Keeps.sumOf {factor : Parser Expr} (h : Keeps factor) : Keeps (Parser.sumOf factor) :=
  (h.chain true).chain false

theorem Keeps.parenthesised {stop depth : Nat} (h : Keeps (factorWithin stop depth)) (pos : Nat) :
    Keeps (Parser.parenthesised stop depth pos) :=
  h.sumOf.bind fun e => (keeps_closing pos).bind fun _ => keeps_pure e

/-- A factor keeps the nesting, by induction on the depth it may reach. -/
theorem keeps_factorWithin (stop depth : Nat) : Keeps (factorWithin stop depth) := by
  induction depth with
  | zero => exact keeps_throw _
  | succ depth ih =>
    refine keeps_next?.bind fun found => ?_
    match found with
    | none => exact keeps_throw _
    | some ⟨.number r, _⟩ => exact keeps_pure (Expr.lit r)
    | some ⟨.op .add, pos⟩ => exact ih.nested pos
    | some ⟨.op .sub, pos⟩ => exact (ih.nested pos).bind fun e => keeps_pure (Expr.neg e)
    | some ⟨.lparen, pos⟩ => exact (ih.parenthesised pos).nested pos
    | some ⟨.op .mul, _⟩ | some ⟨.op .div, _⟩ | some ⟨.rparen, _⟩ => exact keeps_throw _

/-! ## Depth -/

/-- The parsers do the same wherever the nesting is `N`. -/
def SameAt (N : Nat) (p q : Parser α) : Prop := ∀ s, s.nesting = N → p s = q s

namespace SameAt

variable {N : Nat}

theorem refl (p : Parser α) : SameAt N p p := fun _ _ => rfl

theorem bind {p q : Parser α} {f g : α → Parser β} (h : SameAt N p q) (hp : Keeps p)
    (hf : ∀ a, SameAt N (f a) (g a)) : SameAt N (p >>= f) (q >>= g) := by
  intro s hs
  have hq := h s hs
  cases hps : p s with
  | ok a t =>
    rw [bind_of_ok hps, bind_of_ok (hq.symm.trans hps)]
    exact hf a t ((hp.of_ok hps).nesting_eq.trans hs)
  | error err t => rw [bind_of_error hps, bind_of_error (hq.symm.trans hps)]

theorem nested {p q : Parser α} (pos : Nat) (h : N < maxNesting → SameAt (N + 1) p q) :
    SameAt N (Parser.nested pos p) (Parser.nested pos q) := by
  intro s hs
  by_cases hn : s.nesting < maxNesting
  · rw [Parser.nested, Parser.nested, h (hs ▸ hn) { s with nesting := s.nesting + 1 } (by rw [hs])]
  · rw [nested_of_not_lt hn, nested_of_not_lt hn]

theorem chainFrom {p q : Parser Expr} (h : SameAt N p q) (hp : Keeps p) (product : Bool)
    (steps : Nat) (left : Expr) :
    SameAt N (Parser.chainFrom product p steps left) (Parser.chainFrom product q steps left) := by
  induction steps generalizing left with
  | zero => exact refl _
  | succ steps ih =>
    refine (refl (operator? product)).bind (keeps_operator? product) fun found => ?_
    cases found with
    | none => exact refl _
    | some o => exact h.bind hp fun right => ih (.binary o left right)

theorem chain {p q : Parser Expr} (h : SameAt N p q) (hp : Keeps p) (product : Bool) :
    SameAt N (Parser.chain product p) (Parser.chain product q) :=
  h.bind hp fun left => (refl get).bind keeps_get fun s => h.chainFrom hp product s.rest.length left

theorem sumOf {p q : Parser Expr} (h : SameAt N p q) (hp : Keeps p) :
    SameAt N (Parser.sumOf p) (Parser.sumOf q) :=
  (h.chain hp true).chain (hp.chain true) false

end SameAt

/-- Depths that both suffice for the nesting make no difference, by induction on the first. -/
theorem factorWithin_sameAt (stop : Nat) : ∀ depth depth' N, N ≤ maxNesting →
    maxNesting < N + depth → maxNesting < N + depth' →
    SameAt N (factorWithin stop depth) (factorWithin stop depth') := by
  intro depth
  induction depth with
  | zero =>
    intro depth' N hN hd
    omega
  | succ depth ih =>
    intro depth' N hN hd hd'
    obtain _ | depth' := depth'
    · omega
    · have hinner : N < maxNesting →
          SameAt (N + 1) (factorWithin stop depth) (factorWithin stop depth') :=
        fun hn => ih depth' (N + 1) hn (by omega) (by omega)
      have hkeeps := keeps_factorWithin stop depth
      -- only a sign and a parenthesis lead to a factor inside, one level and one depth further down
      refine (SameAt.refl next?).bind keeps_next? fun found => ?_
      match found with
      | some ⟨.op .add, pos⟩ => exact .nested pos hinner
      | some ⟨.op .sub, pos⟩ =>
        exact (SameAt.nested pos hinner).bind (hkeeps.nested pos) fun e => .refl _
      | some ⟨.lparen, pos⟩ =>
        refine .nested pos fun hn => ?_
        exact ((hinner hn).sumOf hkeeps).bind hkeeps.sumOf fun e => .refl _
      | none | some ⟨.number _, _⟩ | some ⟨.op .mul, _⟩ | some ⟨.op .div, _⟩ | some ⟨.rparen, _⟩ =>
        exact .refl _

/-- **Depth.** A factor that has depth enough for its nesting does what `factor` does. -/
theorem factorWithin_eq_factor {stop depth : Nat} {s : Cursor} (hs : s.nesting ≤ maxNesting)
    (hd : maxNesting < s.nesting + depth) : factorWithin stop depth s = factor stop s :=
  factorWithin_sameAt stop depth (maxNesting + 1) s.nesting hs hd (by omega) s rfl

/-- A factor behind a sign is a factor, and one in parentheses is a sum. -/
theorem factor_cons (stop pos n k : Nat) (token : Token) (rest : List Lexeme) :
    factor stop ⟨⟨token, pos⟩ :: rest, n, k⟩ =
      match token with
      | .number r => .ok (.lit r) ⟨rest, n, k⟩
      | .op .add => nested pos (factor stop) ⟨rest, n, k⟩
      | .op .sub => (nested pos (factor stop) >>= fun e => return .neg e) ⟨rest, n, k⟩
      | .lparen => nested pos (do
          let e ← sum stop
          closing pos
          return e) ⟨rest, n, k⟩
      | found => .error (.malformed (some found) pos) ⟨rest, n, k⟩ := by
  have hinner : n < maxNesting → SameAt (n + 1) (factorWithin stop maxNesting) (factor stop) :=
    fun hlt => factorWithin_sameAt stop _ _ (n + 1) hlt (by omega) (by omega)
  have hkeeps := keeps_factorWithin stop maxNesting
  rw [factor, factorWithin_cons]
  match token with
  | .op .add => exact SameAt.nested pos hinner _ rfl
  | .op .sub =>
    exact (SameAt.nested pos hinner).bind (hkeeps.nested pos) (fun _ => .refl _) _ rfl
  | .lparen =>
    refine SameAt.nested pos (fun hn => ?_) _ rfl
    exact ((hinner hn).sumOf hkeeps).bind hkeeps.sumOf fun e => .refl _
  | .number _ | .op .mul | .op .div | .rparen => rfl

/-! ## Calls -/

/-- The parser that is called for an expression of the level. -/
def call (stop : Nat) : Level → Parser Expr
  | .factor => factor stop
  | .term => term stop
  | .sum => sum stop

theorem keeps_call (stop : Nat) (level : Level) : Keeps (call stop level) := by
  have hfactor : Keeps (factor stop) := keeps_factorWithin stop _
  cases level with
  | factor => exact hfactor
  | term => exact hfactor.chain true
  | sum => exact hfactor.sumOf

theorem sound_call (stop : Nat) (level : Level) : Sound level (call stop level) := by
  have hfactor : Sound .factor (factor stop) := factorWithin_sound stop _
  cases level with
  | factor => exact hfactor
  | term => exact term_sound hfactor
  | sum => exact sumOf_sound hfactor

end Parser

theorem Derives.toSum {level : Level} {ts : List Token} {n k : Nat} {e : Expr}
    (h : Derives level ts n k e) : Derives .sum ts n k e := by
  cases level with
  | factor => exact .sum (.term h)
  | term => exact .sum h
  | sum => exact h

namespace Parser

/-- **Calls.** A call for a factor, a term or a sum leaves the nesting as it found it and a part of
its lexemes, whether it succeeds or fails; made one level deeper, it leaves a nesting above zero to
go back from. When it succeeds, it took some lexemes, the count of operators grew by those of the
tree, and the next lexeme is no operator that continues an expression of the level. Any call in any
state that takes the same tokens returns the same tree. -/
theorem call_counts (stop : Nat) (level : Level) (s : Cursor) (hs : s.nesting ≤ 256) :
    (stopsAt (call stop level) s).nesting = s.nesting ∧
    (s.nesting < 256 →
      0 < (stopsAt (call stop level) { s with nesting := s.nesting + 1 }).nesting) ∧
    (stopsAt (call stop level) s).rest <:+ s.rest ∧
    ∀ (e : Expr) (t : Cursor), call stop level s = .ok e t →
      ∃ used, used ≠ [] ∧ s.rest = used ++ t.rest ∧ t.operators = s.operators + e.operators ∧
        level.StopsAt t.rest ∧
        ∀ (stop' : Nat) (level' : Level) (s' t' : Cursor) (e' : Expr) (used' : List Lexeme),
          s'.nesting ≤ 256 → call stop' level' s' = .ok e' t' → s'.rest = used' ++ t'.rest →
          used'.map Lexeme.token = used.map Lexeme.token → e' = e := by
  have hkeeps := keeps_call stop level
  refine ⟨(hkeeps s).nesting_eq, fun _ => ?_, (hkeeps s).rest_suffix, fun e t h => ?_⟩
  · rw [(hkeeps { s with nesting := s.nesting + 1 }).nesting_eq]
    exact Nat.succ_pos s.nesting
  · obtain ⟨hstop, used, n, k, htakes⟩ := sound_call stop level hs h
    have hne : used ≠ [] := fun hnil => htakes.derives.ne_nil (by rw [hnil, List.map_nil])
    have hoperators : t.operators = s.operators + e.operators := by
      rw [htakes.operators_eq, htakes.derives.operators_eq]
    refine ⟨used, hne, htakes.rest_eq, hoperators, hstop, ?_⟩
    intro stop' level' s' t' e' used' hs' h' hrest htokens
    obtain ⟨-, used'', n', k', htakes'⟩ := sound_call stop' level' hs' h'
    obtain rfl : used'' = used' := List.append_cancel_right (htakes'.rest_eq.symm.trans hrest)
    have hderives := htakes'.derives.toSum
    rw [htokens] at hderives
    exact hderives.unique htakes.derives.toSum

/-- A term in the middle of a text: `2 * -3` in front of ` + 4`, four levels deep and behind seven
operators. -/
theorem call_counts_product :
    let s : Cursor := ⟨[⟨.number 2, 0⟩, ⟨.op .mul, 2⟩, ⟨.op .sub, 4⟩, ⟨.number 3, 5⟩, ⟨.op .add, 7⟩,
      ⟨.number 4, 9⟩], 4, 7⟩
    let e : Expr := .binary .mul (.lit 2) (.neg (.lit 3))
    let t : Cursor := ⟨[⟨.op .add, 7⟩, ⟨.number 4, 9⟩], 4, 8⟩
    s.nesting ≤ 256 ∧ call 10 .term s = .ok e t ∧
    (stopsAt (call 10 .term) s).nesting = 4 ∧ (stopsAt (call 10 .term) s).rest <:+ s.rest ∧
    0 < (stopsAt (call 10 .term) { s with nesting := 5 }).nesting ∧
    ∃ used, used ≠ [] ∧ s.rest = used ++ t.rest ∧ t.operators = 7 + e.operators ∧
      Level.term.StopsAt t.rest := by
  intro s e t
  have h : call 10 .term s = .ok e t := rfl
  have hs : s.nesting ≤ 256 := by decide
  obtain ⟨hnesting, hdeeper, hrest, hok⟩ := call_counts 10 .term s hs
  obtain ⟨used, hne, hused, hoperators, hstop, -⟩ := hok e t h
  exact ⟨hs, h, hnesting, hrest, hdeeper (by decide), used, hne, hused, hoperators, hstop⟩

end Parser

end ExactLength
