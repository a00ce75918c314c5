import ExactLength.Proofs.Expr.ViablePrefix
import ExactLength.Proofs.Token.Alphabet

/-!
# Where tokens stand

A scanned text is its tokens with blanks between them: each token is read from the characters at
its position, and the next one stands behind them. The characters of a number are no parentheses,
so what is open at a place of the text is open at the token that stands there.

Results:
* `placed_of_scanFrom`: the tokens of a scanned text stand in it one behind the other.
* `Placed.split`: the text is cut where a token stands.
* `Placed.exists_depth_eq`: the parentheses of the text are those of its tokens.
-/

namespace ExactLength

namespace Text

/-- The parentheses that a text opens less those that it closes. -/
def depth (cs : Text) : Int := cs.count '(' - cs.count ')'

theorem depth_append (a b : Text) : depth (a ++ b) = depth a + depth b := by
  rw [depth, depth, depth, List.count_append, List.count_append]
  omega

theorem depth_eq_zero {cs : Text} (h : ∀ c ∈ cs, c ≠ '(' ∧ c ≠ ')') : depth cs = 0 := by
  rw [depth, List.count_eq_zero.2 fun hc => (h _ hc).1 rfl,
    List.count_eq_zero.2 fun hc => (h _ hc).2 rfl]
  rfl

end Text

/-! ## The characters of a token -/

namespace Literal

theorem mem_text_read {c : Char} {cs : Text} (h : c ∈ (read cs).1.text) :
    c.isDigit = true ∨ c = '.' ∨ c = '/' := by
  unfold read at h
  split at h
  · simp only [text, List.mem_append, List.mem_cons] at h
    obtain h | rfl | h := h
    · exact .inl (Digits.isDigit_of_mem_leading h)
    · exact .inr (.inl rfl)
    · exact .inl (Digits.isDigit_of_mem_leading h)
  · split at h
    · exact .inl (Digits.isDigit_of_mem_leading h)
    · simp only [text, List.mem_append, List.mem_cons] at h
      obtain h | rfl | h := h
      · exact .inl (Digits.isDigit_of_mem_leading h)
      · exact .inr (.inr rfl)
      · exact .inl (Digits.isDigit_of_mem_leading h)
  · exact .inl (Digits.isDigit_of_mem_leading h)

theorem ne_parenthesis {c : Char} {cs : Text} (h : c ∈ (read cs).1.text) : c ≠ '(' ∧ c ≠ ')' := by
  obtain hc | rfl | rfl := mem_text_read h
  · constructor <;> rintro rfl <;> cases hc
  · decide
  · decide

end Literal

namespace Token

/-- The scanner reads the token from the characters `taken` when `rest` follows them. -/
inductive ReadFrom : Token → Text → Text → Prop
  | symbol {t : Token} {c : Char} {rest : Text} (h : ofSymbol? c = some t) : ReadFrom t [c] rest
  | number {c : Char} {cs : Text} {v : Rat} (hstart : Literal.starts c = true)
    (hv : (Literal.read (c :: cs)).1.value = .ok v) :
    ReadFrom (.number v) (Literal.read (c :: cs)).1.text (Literal.read (c :: cs)).2

variable {t : Token} {taken rest : Text}

theorem ReadFrom.ne_nil (h : t.ReadFrom taken rest) : taken ≠ [] := by
  cases h with
  | symbol _ => exact List.cons_ne_nil _ _
  | @number c cs _ hstart _ =>
    intro hnil
    have hlength : (Literal.read (c :: cs)).2.length < (c :: cs).length :=
      Literal.length_rest_lt hstart
    have htext := Literal.text_read (c :: cs)
    rw [hnil, List.nil_append] at htext
    rw [htext] at hlength
    exact Nat.lt_irrefl _ hlength

theorem ReadFrom.eq_symbol (h : t.ReadFrom taken rest) (ht : ∀ v, t ≠ .number v) :
    taken = t.text := by
  cases h with
  | symbol hc => exact (text_ofSymbol? hc).symm
  | number _ _ => exact absurd rfl (ht _)

theorem ReadFrom.depth_eq (h : t.ReadFrom taken rest) : taken.depth = t.opens := by
  cases h with
  | symbol hc =>
    unfold ofSymbol? at hc
    split at hc
    · cases hc
      rfl
    · cases hc
      rfl
    · next hopen hclose =>
      obtain ⟨o, -, rfl⟩ := Option.map_eq_some_iff.mp hc
      exact Text.depth_eq_zero (List.forall_mem_singleton.mpr ⟨hopen, hclose⟩)
  | number _ _ => exact Text.depth_eq_zero fun c hc => Literal.ne_parenthesis hc

/-- No parenthesis stands inside a token. -/
theorem ReadFrom.depth_of_start (h : t.ReadFrom taken rest) {p : Text} (hp : p <+: taken) :
    p.depth = 0 ∨ p = taken := by
  cases h with
  | symbol _ =>
    obtain rfl | ⟨q, rfl, hq⟩ := List.prefix_cons_iff.mp hp
    · exact .inl rfl
    · exact .inr (congrArg _ (List.prefix_nil.mp hq))
  | number _ _ =>
    exact .inl (Text.depth_eq_zero fun c hc => Literal.ne_parenthesis (hp.subset hc))

end Token

namespace Lexeme

/-! ## The text of the tokens -/

/-- The tokens that stand in a text whose first character has the position `pos`, one behind the
other, with nothing but blanks between them. -/
inductive Placed : Nat → Text → List Lexeme → Prop
  | nil (pos : Nat) : Placed pos [] []
  | blank {pos : Nat} {c : Char} {cs : Text} {ls : List Lexeme} (hc : isBlank c = true)
    (h : Placed (pos + 1) cs ls) : Placed pos (c :: cs) ls
  | token {pos : Nat} {t : Token} {taken rest : Text} {ls : List Lexeme}
    (ht : t.ReadFrom taken rest) (h : Placed (pos + taken.length) rest ls) :
    Placed pos (taken ++ rest) (⟨t, pos⟩ :: ls)

/-- **Scanned tokens** stand in their text one behind the other. -/
theorem placed_of_scanFrom {pos : Nat} {cs : Text} {ls : List Lexeme}
    (h : scanFrom pos cs = .ok ls) : Placed pos cs ls := by
  fun_induction scanFrom pos cs generalizing ls with
  | case1 pos =>
    cases h
    exact .nil pos
  | case2 pos c cs hc ih => exact .blank hc (ih h)
  | case3 pos c cs hc t ht ih =>
    cases hcs : scanFrom (pos + 1) cs with
    | error e =>
      rw [hcs] at h
      cases h
    | ok ls' =>
      rw [hcs] at h
      cases h
      exact .token (.symbol ht) (ih hcs)
  | case4 pos c cs hc ht hstart literal =>
    rename_i ih
    cases hv : literal.value with
    | error e =>
      rw [hv] at h
      cases h
    | ok v =>
      rw [hv] at h
      change (scanFrom (pos + literal.text.length) (Literal.read (c :: cs)).2).bind _ = _ at h
      cases hcs : scanFrom (pos + literal.text.length) (Literal.read (c :: cs)).2 with
      | error e =>
        rw [hcs] at h
        cases h
      | ok ls' =>
        rw [hcs] at h
        cases h
        rw [← Literal.text_read (c :: cs)]
        exact .token (.number hstart hv) (ih hcs)
  | case5 pos c cs hc t hstart => cases h

/-- **The place of a token.** The text is cut at the position of a token into what stands before
it, the characters that it is read from, and the text of the tokens behind it. -/
theorem Placed.split {pos : Nat} {cs : Text} {before after : List Lexeme} {l : Lexeme}
    (h : Placed pos cs (before ++ l :: after)) :
    ∃ pre taken rest, cs = pre ++ (taken ++ rest) ∧ l.pos = pos + pre.length ∧
      l.token.ReadFrom taken rest ∧ Placed (l.pos + taken.length) rest after := by
  generalize hls : before ++ l :: after = ls at h
  induction h generalizing before with
  | nil pos => cases (List.append_eq_nil_iff.mp hls).2
  | @blank pos c cs ls hc h ih =>
    obtain ⟨pre, taken, rest, rfl, hpos, hread, hrest⟩ := ih hls
    refine ⟨c :: pre, taken, rest, rfl, ?_, hread, hrest⟩
    rw [hpos, List.length_cons]
    omega
  | @token pos t taken rest ls ht h ih =>
    cases before with
    | nil =>
      cases hls
      exact ⟨[], taken, rest, rfl, rfl, ht, h⟩
    | cons l' before =>
      cases hls
      obtain ⟨pre, taken', rest', rfl, hpos, hread, hrest⟩ := ih rfl
      refine ⟨taken ++ pre, taken', rest', (List.append_assoc _ _ _).symm, ?_, hread, hrest⟩
      rw [hpos, List.length_append, Nat.add_assoc]

/-- **Parentheses.** At every place of the text as many parentheses are open as behind some of its
tokens. -/
theorem Placed.exists_depth_eq {pos : Nat} {cs : Text} {ls : List Lexeme} (h : Placed pos cs ls)
    {p : Text} (hp : p <+: cs) : ∃ q, q <+: ls ∧ Lexeme.depth q = p.depth := by
  induction h generalizing p with
  | nil pos =>
    rw [List.prefix_nil.mp hp]
    exact ⟨[], List.nil_prefix, rfl⟩
  | @blank pos c cs ls hc h ih =>
    obtain rfl | ⟨p, rfl, hp'⟩ := List.prefix_cons_iff.mp hp
    · exact ⟨[], List.nil_prefix, rfl⟩
    · obtain ⟨q, hq, hdepth⟩ := ih hp'
      refine ⟨q, hq, ?_⟩
      have hone : Text.depth [c] = 0 := Text.depth_eq_zero (by
        rw [List.forall_mem_singleton]
        constructor <;> rintro rfl <;> cases hc)
      rw [← List.singleton_append, Text.depth_append, hone, Int.zero_add, hdepth]
  | @token pos t taken rest ls ht h ih =>
    obtain hp | ⟨p, rfl, hp'⟩ := begins_append hp
    · obtain hzero | rfl := ht.depth_of_start hp
      · exact ⟨[], List.nil_prefix, hzero.symm⟩
      · refine ⟨[⟨t, pos⟩], List.prefix_append _ ls, ?_⟩
        rw [depth_cons, ht.depth_eq, depth_nil, Int.add_zero]
    · obtain ⟨q, hq, hdepth⟩ := ih hp'
      refine ⟨⟨t, pos⟩ :: q, List.cons_prefix_cons.mpr ⟨rfl, hq⟩, ?_⟩
      rw [depth_cons, hdepth, Text.depth_append, ht.depth_eq]

end Lexeme

end ExactLength
