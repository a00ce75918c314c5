import Mathlib.Data.List.SplitBy
import ExactLength.Proofs.Number.LowestTerms
import ExactLength.Proofs.Surface.Signed
import ExactLength.Proofs.Text.Words
import ExactLength.Proofs.Token.Alphabet

/-!
# Flat chains

Integers with `+`, `-` and `*` between them and no parentheses, as in `1--2*-3`. By the rule of
school a chain is cut in front of every `+` and `-`; each piece is the product of its integers, and
the pieces are added and subtracted from left to right.

The parser goes through a chain once. It keeps the sum in front of the last piece and the product of
the last piece so far, and so does `onward`, which ties the parser to the pieces. A dash behind an
operator is the sign of an integer.

Results:
* `FlatChain.total_splitBy_loop`: the pieces are worth what a sum and a product kept in one pass
  make.
* `Link.run_tokens`: what one operator and the integer behind it do to the sum and the product.
* `FlatChain.run_tokens`: what has been read of a chain is worth its value.
* `FlatChain.evaluate_flatText`: a chain of at most 1024 operators has its value, and a longer one
  is refused at the operator that is one too many.
-/

namespace ExactLength

open Text Reading

/-! ## Chains -/

/-- An operator of a chain with the blanks around it, and the integer behind it. -/
structure Link where
  operator : Operator
  operand : Int
  before : Text
  after : Text
  noDivision : operator ≠ .div
  isBlank_before : before.Blank
  isBlank_after : after.Blank

/-- Integers with operators between them. -/
structure FlatChain where
  first : Int
  links : List Link

/-- The characters of an operator, of the blanks around it and of the integer behind it. -/
def Link.text (l : Link) : Text :=
  l.before ++ l.operator.symbol :: l.after ++ Digits.ofInt l.operand

/-- A number is added to what stands in front of it, or taken from it if the operator is `-`. -/
def Operator.addTo (o : Operator) (total n : Int) : Int := if o = sub then total - n else total + n

theorem Operator.apply_eq_addTo {o : Operator} (hmul : o ≠ mul) (hdiv : o ≠ div) (m n : Int) :
    o.apply m n = .ok ((o.addTo m n : Int) : Rat) := by
  rw [apply_eq_result fun h => absurd h hdiv]
  cases o with
  | add => exact congrArg Except.ok (Rat.intCast_add m n).symm
  | sub => exact congrArg Except.ok (Rat.intCast_sub m n).symm
  | mul => exact absurd rfl hmul
  | div => exact absurd rfl hdiv

namespace FlatChain

/-- The characters of a chain. -/
def text (c : FlatChain) : Text := Digits.ofInt c.first ++ c.links.flatMap Link.text

/-- A piece of a chain: integers, each with the operator in front of it. -/
abbrev Piece := List (Operator × Int)

/-- A `*` goes on with the piece in front of it. -/
def joins (_ p : Operator × Int) : Bool := p.1 = .mul

/-- The chain cut in front of every operator but `*`. The first integer counts as added. -/
def pieces (c : FlatChain) : List Piece :=
  ((.add, c.first) :: c.links.map fun l => (l.operator, l.operand)).splitBy joins

/-- The operator in front of a piece. -/
def sign : Piece → Operator
  | [] => .add
  | p :: _ => p.1

/-- The product of the integers of a piece. -/
def product (piece : Piece) : Int := piece.foldl (fun n p => n * p.2) 1

/-- The pieces added and subtracted from left to right. -/
def total (pieces : List Piece) : Int :=
  pieces.foldl (fun n piece => (sign piece).addTo n (product piece)) 0

/-- The value of a chain. -/
def value (c : FlatChain) : Int := total c.pieces

/-! ## The value in one pass -/

/-- The value of a chain of which `rest` is left, behind a sum, the operator in front of the last
piece and the product of that piece so far. -/
def onward (sum : Int) (o : Operator) (n : Int) : Piece → Int
  | [] => o.addTo sum n
  | p :: rest =>
    if p.1 = .mul then onward sum o (n * p.2) rest else onward (o.addTo sum n) p.1 p.2 rest

theorem sign_append {piece : Piece} (h : piece ≠ []) (p : Operator × Int) :
    sign (piece ++ [p]) = sign piece := by
  obtain ⟨q, piece, rfl⟩ := List.exists_cons_of_ne_nil h
  rfl

theorem product_append (piece : Piece) (p : Operator × Int) :
    product (piece ++ [p]) = product piece * p.2 := by
  rw [product, List.foldl_append]
  rfl

theorem total_append (pieces : List Piece) (piece : Piece) :
    total (pieces ++ [piece]) = (sign piece).addTo (total pieces) (product piece) := by
  rw [total, List.foldl_append]
  rfl

/-- **Cutting.** The pieces of a chain are worth what comes out when their sum and the product of
the last one are kept in one pass. The last piece is `p :: front`, backwards, and the others are
`done`, the last one first. -/
theorem total_splitBy_loop (rest : Piece) (p : Operator × Int) (front : Piece) (done : List Piece) :
    total (List.splitBy.loop joins rest p front done) =
      onward (total done.reverse) (sign (p :: front).reverse) (product (p :: front).reverse)
        rest := by
  induction rest generalizing p front done with
  | nil =>
    rw [onward, ← total_append, ← List.reverse_cons]
    rfl
  | cons q rest ih =>
    have hne : (p :: front).reverse ≠ [] := List.reverse_ne_nil_iff.mpr (List.cons_ne_nil p front)
    rw [List.splitBy.loop, onward]
    by_cases hq : q.1 = .mul
    · have hjoins : joins p q = true := decide_eq_true hq
      rw [hjoins, if_pos hq, ← sign_append hne q, ← product_append, ← List.reverse_cons]
      exact ih q (p :: front) done
    · have hjoins : joins p q = false := decide_eq_false hq
      rw [hjoins, if_neg hq, ← total_append, ← List.reverse_cons]
      have hnext := ih q [] ((p :: front).reverse :: done)
      have hproduct : product [q].reverse = q.2 := Int.one_mul q.2
      rw [hproduct] at hnext
      exact hnext

/-- The value of a chain in one pass. -/
theorem value_eq_onward (c : FlatChain) :
    c.value = onward 0 .add c.first (c.links.map fun l => (l.operator, l.operand)) := by
  have hproduct : product [(.add, c.first)] = c.first := Int.one_mul c.first
  rw [value, pieces, List.splitBy, total_splitBy_loop, List.reverse_singleton, hproduct]
  rfl

end FlatChain

/-! ## Tokens -/

/-- The tokens of an integer: a dash if it is negative, and a number. -/
def integerTokens (n : Int) : List Token :=
  if n < 0 then [.op .sub, .number n.natAbs] else [.number n.natAbs]

/-- The tree of an integer. -/
def integerTree (n : Int) : Expr := if n < 0 then .neg (.lit n.natAbs) else .lit n.natAbs

theorem eval_integerTree (n : Int) : (integerTree n).eval = .ok n := by
  unfold integerTree
  split
  · next h =>
    have hvalue : -((n.natAbs : Nat) : Rat) = n := by
      rw [← Rat.intCast_natCast, ← Rat.intCast_neg]
      congr 1
      omega
    rw [← hvalue]
    rfl
  · next h =>
    have hvalue : ((n.natAbs : Nat) : Rat) = n := by
      rw [← Rat.intCast_natCast]
      congr 1
      omega
    rw [← hvalue]
    rfl

theorem scans_integer (n : Int) : Scans (Digits.ofInt n) false (integerTokens n) := by
  have hscans := (Run.ofNat n.natAbs).scans_integer
  rw [Run.value_ofNat] at hscans
  unfold Digits.ofInt integerTokens
  split
  · exact hscans.symbol rfl rfl
  · exact hscans

theorem Text.Blank.endsNumber_append {g rest : Text} (hg : g.Blank) (hrest : EndsNumber rest) :
    EndsNumber (g ++ rest) := by
  cases g with
  | nil => exact hrest
  | cons c g =>
    have hc : isBlank c = true := hg c List.mem_cons_self
    refine endsNumber_cons (isDigit_of_isBlank hc) ?_ ?_ <;> rintro rfl <;> cases hc

namespace Link

/-- The tokens of an operator and of the integer behind it. -/
def tokens (l : Link) : List Token := .op l.operator :: integerTokens l.operand

theorem ofSymbol?_symbol (l : Link) :
    isBlank l.operator.symbol = false ∧
      Token.ofSymbol? l.operator.symbol = some (.op l.operator) := by
  cases l.operator <;> exact ⟨rfl, rfl⟩

theorem symbol_stops (l : Link) : l.operator.symbol.isDigit = false ∧ l.operator.symbol ≠ '.' ∧
    l.operator.symbol ≠ '/' := by
  cases ho : l.operator with
  | add | sub | mul => decide
  | div => exact absurd ho l.noDivision

theorem endsNumber_text (l : Link) (rest : Text) : EndsNumber (l.text ++ rest) := by
  obtain ⟨hdigit, hpoint, hstroke⟩ := l.symbol_stops
  rw [text, List.append_assoc, List.append_assoc]
  exact l.isBlank_before.endsNumber_append (endsNumber_cons hdigit hpoint hstroke)

theorem scans_text (l : Link) : Scans l.text false l.tokens := by
  obtain ⟨hblank, hsymbol⟩ := l.ofSymbol?_symbol
  have hscans := (((scans_integer l.operand).blanks l.isBlank_after).symbol hblank
    hsymbol).blanks l.isBlank_before
  rw [text, List.append_assoc, List.cons_append]
  exact hscans

end Link

theorem scans_links (links : List Link) :
    Scans (links.flatMap Link.text) false (links.flatMap Link.tokens) ∧
      ∀ rest, EndsNumber rest → EndsNumber (links.flatMap Link.text ++ rest) := by
  induction links with
  | nil => exact ⟨Scans.nil, fun _ h => h⟩
  | cons l links ih =>
    obtain ⟨hscans, hends⟩ := ih
    refine ⟨l.scans_text.append hscans hends, fun rest _ => ?_⟩
    rw [List.flatMap_cons, List.append_assoc]
    exact l.endsNumber_text _

namespace FlatChain

/-- The tokens of a chain. -/
def tokens (c : FlatChain) : List Token := integerTokens c.first ++ c.links.flatMap Link.tokens

theorem scans_text (c : FlatChain) : Scans c.text false c.tokens :=
  (scans_integer c.first).append (scans_links c.links).1 (scans_links c.links).2

end FlatChain

/-! ## Reading -/

theorem run_integer {sum product : Waiting} {k : Nat} {n : Int} {lexemes : List Lexeme}
    (h : lexemes.map Lexeme.token = integerTokens n) :
    run .parser (wanting [] ⟨sum, product, []⟩ k) lexemes =
      .ok (holding [] sum (product.join (integerTree n)) k) := by
  unfold integerTokens at h
  unfold integerTree
  split at h
  · next hn =>
    obtain ⟨⟨_, pos⟩, rest, rfl, rfl, hrest⟩ := List.map_eq_cons_iff.mp h
    obtain ⟨⟨_, pos'⟩, rfl, rfl⟩ := List.map_eq_singleton_iff.mp hrest
    rw [if_pos hn]
    rfl
  · next hn =>
    obtain ⟨⟨_, pos⟩, rfl, rfl⟩ := List.map_eq_singleton_iff.mp h
    rw [if_neg hn]
    rfl

/-- The sum that waits is worth `total` with an operator behind it, and the product is worth `n`. -/
structure Holds (total : Int) (o : Operator) (n : Int) (sum : Waiting) (term : Expr) : Prop where
  eval_join : ∀ {e : Expr} {m : Int}, e.eval = .ok (m : Rat) →
    (sum.join e).eval = .ok ((o.addTo total m : Int) : Rat)
  eval_term : term.eval = .ok (n : Rat)

/-- **One link.** A `*` goes on with the product; every other operator ends it. -/
theorem Link.run_tokens {l : Link} {total n : Int} {o : Operator} {sum : Waiting} {term : Expr}
    {k : Nat} {lexemes : List Lexeme} (h : Holds total o n sum term) (hk : k < maxOperators)
    (hlexemes : lexemes.map Lexeme.token = l.tokens) :
    ∃ sum' term', run .parser (holding [] sum term k) lexemes = .ok (holding [] sum' term' (k + 1)) ∧
      if l.operator = .mul then Holds total o (n * l.operand) sum' term'
      else Holds (o.addTo total n) l.operator l.operand sum' term' := by
  obtain ⟨⟨_, pos⟩, rest, rfl, rfl, hrest⟩ := List.map_eq_cons_iff.mp hlexemes
  have hstep : step .parser (holding [] sum term k) ⟨.op l.operator, pos⟩ = _ :=
    (step_operator [] sum term k l.operator pos).trans (if_pos hk)
  rw [run_cons_of_ok hstep]
  by_cases hmul : l.operator = .mul
  · have hproduct : l.operator.isProduct = true := congrArg Operator.isProduct hmul
    rw [slotAfter, if_pos hproduct, run_integer hrest]
    refine ⟨_, _, rfl, ?_⟩
    rw [if_pos hmul]
    refine ⟨h.eval_join, ?_⟩
    have happly (x y : Rat) : Operator.mul.apply x y = .ok (x * y) :=
      Operator.apply_eq_result fun hdiv => absurd hdiv (by decide)
    rw [Waiting.join, Expr.eval_binary_of_ok h.eval_term (eval_integerTree l.operand), hmul, happly,
      Rat.intCast_mul]
  · have hsum : l.operator.isProduct = false := by
      have hdiv := l.noDivision
      cases ho : l.operator with
      | add | sub => rfl
      | mul => exact absurd ho hmul
      | div => exact absurd ho hdiv
    rw [slotAfter, if_neg (Bool.eq_false_iff.mp hsum), run_integer hrest]
    refine ⟨_, _, rfl, ?_⟩
    rw [if_neg hmul]
    refine ⟨fun {e m} he => ?_, eval_integerTree l.operand⟩
    rw [Waiting.join, Expr.eval_binary_of_ok (h.eval_join h.eval_term) he,
      Operator.apply_eq_addTo hmul l.noDivision]

/-- **More links.** What follows a sum and a product is worth what they are worth with it. -/
theorem run_links {links : List Link} :
    ∀ {total n : Int} {o : Operator} {sum : Waiting} {term : Expr} {k : Nat}
      {lexemes : List Lexeme}, Holds total o n sum term → k + links.length ≤ maxOperators →
      lexemes.map Lexeme.token = links.flatMap Link.tokens →
      ∃ sum' term', run .parser (holding [] sum term k) lexemes =
          .ok (holding [] sum' term' (k + links.length)) ∧
        (sum'.join term').eval = .ok ((FlatChain.onward total o n
          (links.map fun l => (l.operator, l.operand)) : Int) : Rat) := by
  induction links with
  | nil =>
    intro total n o sum term k lexemes h _ hlexemes
    rw [List.flatMap_nil, List.map_eq_nil_iff] at hlexemes
    subst hlexemes
    exact ⟨sum, term, rfl, h.eval_join h.eval_term⟩
  | cons l links ih =>
    intro total n o sum term k lexemes h hk hlexemes
    rw [List.length_cons] at hk
    have hlt : k < maxOperators := by omega
    rw [List.flatMap_cons] at hlexemes
    obtain ⟨here, rest, rfl, hhere, hrest⟩ := List.map_eq_append_iff.mp hlexemes
    obtain ⟨sum', term', hrun, hholds⟩ := Link.run_tokens h hlt hhere
    rw [run_append_of_ok hrun, List.map_cons, FlatChain.onward, List.length_cons,
      ← Nat.add_assoc, Nat.add_right_comm]
    split at hholds
    · next hmul =>
      rw [if_pos hmul]
      exact ih hholds (by omega) hrest
    · next hmul =>
      rw [if_neg hmul]
      exact ih hholds (by omega) hrest

namespace FlatChain

/-- **A whole chain.** What is read of a chain is worth its value. -/
theorem run_tokens {c : FlatChain} {lexemes : List Lexeme} (hk : c.links.length ≤ maxOperators)
    (hlexemes : lexemes.map Lexeme.token = c.tokens) :
    ∃ sum term, run .parser start lexemes = .ok (holding [] sum term c.links.length) ∧
      (sum.join term).eval = .ok ((c.value : Int) : Rat) := by
  obtain ⟨here, rest, rfl, hhere, hrest⟩ := List.map_eq_append_iff.mp hlexemes
  have hfirst : run .parser start here = .ok (holding [] none (integerTree c.first) 0) :=
    run_integer hhere
  have hholds : Holds 0 .add c.first none (integerTree c.first) := by
    refine ⟨fun {e m} he => ?_, eval_integerTree c.first⟩
    rw [Waiting.join, he, Operator.addTo, if_neg (by decide), Int.zero_add]
  have hle : 0 + c.links.length ≤ maxOperators := by omega
  obtain ⟨sum, term, hrun, heval⟩ := run_links hholds hle hrest
  rw [Nat.zero_add] at hrun
  rw [← value_eq_onward] at heval
  exact ⟨sum, term, (run_append_of_ok hfirst rest).trans hrun, heval⟩

end FlatChain

/-! ## Evaluation -/

/-- A character of a chain: it is admitted, and no stroke. -/
def Flat (c : Char) : Prop := isAdmitted c = true ∧ c ≠ '/'

theorem flat_of_mem_ofInt {n : Int} {c : Char} (h : c ∈ Digits.ofInt n) : Flat c := by
  obtain hc | rfl := Digits.isDigit_or_eq_of_mem_ofInt h
  · refine ⟨by rw [isAdmitted, hc, Bool.true_or, Bool.true_or], ?_⟩
    rintro rfl
    cases hc
  · exact ⟨rfl, by decide⟩

theorem Text.Blank.flat {g : Text} (hg : g.Blank) {c : Char} (h : c ∈ g) : Flat c := by
  refine ⟨hg.admitted c h, ?_⟩
  rintro rfl
  cases hg '/' h

theorem Link.flat_text {l : Link} {c : Char} (h : c ∈ l.text) : Flat c := by
  simp only [text, List.mem_append, List.mem_cons] at h
  obtain (h | rfl | h) | h := h
  · exact l.isBlank_before.flat h
  · cases ho : l.operator with
    | add | sub | mul => exact ⟨rfl, by decide⟩
    | div => exact absurd ho l.noDivision
  · exact l.isBlank_after.flat h
  · exact flat_of_mem_ofInt h

namespace FlatChain

theorem flat_text {chain : FlatChain} {c : Char} (h : c ∈ chain.text) : Flat c := by
  obtain h | h := List.mem_append.mp h
  · exact flat_of_mem_ofInt h
  · obtain ⟨l, -, hl⟩ := List.mem_flatMap.mp h
    exact l.flat_text hl

theorem admitted_text (c : FlatChain) : c.text.Admitted := fun _ h => (flat_text h).1

theorem expandMixed_text (c : FlatChain) : c.text.expandMixed = c.text :=
  expandMixed_eq_self fun h => (flat_text h).2 rfl

theorem evaluate_of_length_le {c : FlatChain} (h : c.links.length ≤ maxOperators) :
    evaluate c.text = .ok ((c.value : Int) : Rat) := by
  obtain ⟨lexemes, hscan, hlexemes⟩ := c.scans_text.exists_scan_eq_ok
  obtain ⟨sum, term, hrun, heval⟩ := run_tokens h hlexemes
  have hparse (stop : Nat) : Expr.parse lexemes stop = .ok (sum.join term) := by
    rw [Parser.parse_eq_outcome, outcome, hrun]
    rfl
  rw [← expandMixed_text] at hscan
  rw [evaluate_eq_eval_of_parse c.admitted_text hscan (hparse _), heval]

theorem parse_of_full {before after : List Lexeme} {c : FlatChain} {o : Operator} {pos : Nat}
    (hfull : c.links.length = maxOperators) (hbefore : before.map Lexeme.token = c.tokens)
    (stop : Nat) :
    Expr.parse (before ++ ⟨.op o, pos⟩ :: after) stop = .error (.tooDeep pos) := by
  obtain ⟨sum, term, hrun, -⟩ := run_tokens (Nat.le_of_eq hfull) hbefore
  have hstep : step .parser (holding [] sum term c.links.length) ⟨.op o, pos⟩ = _ :=
    (step_operator [] sum term c.links.length o pos).trans
      (if_neg (by rw [hfull]; exact Nat.lt_irrefl _))
  rw [Parser.parse_eq_outcome, outcome, run_append_of_ok hrun, run_cons, hstep]
  rfl

theorem evaluate_of_full {first : Int} {before after : List Link} {l : Link}
    (h : before.length = maxOperators) :
    evaluate (text ⟨first, before ++ l :: after⟩) =
      .error (.tooDeep (text ⟨first, before⟩ ++ l.before).length) := by
  let front := text ⟨first, before⟩ ++ l.before
  let back := l.after ++ text ⟨l.operand, after⟩
  have htext : text ⟨first, before ++ l :: after⟩ = front ++ l.operator.symbol :: back := by
    simp [text, Link.text, front, back]
  have hfront : Scans front false (tokens ⟨first, before⟩) := by
    have hscans := (scans_text ⟨first, before⟩).append (Scans.nil.blanks l.isBlank_before)
      fun rest hrest => ?_
    · simpa using hscans
    · rw [List.append_nil]
      exact l.isBlank_before.endsNumber_append hrest
  have hback : Scans back false (tokens ⟨l.operand, after⟩) :=
    (scans_text ⟨l.operand, after⟩).blanks l.isBlank_after
  obtain ⟨lexemes, hlexemes, htokens⟩ := hfront.exists_scan_eq_ok
  obtain ⟨lexemes', hlexemes', -⟩ := hback.exists_scanFrom_eq_ok (0 + front.length + 1)
  obtain ⟨hdigit, hpoint, hstroke⟩ := l.symbol_stops
  obtain ⟨hblank, hsymbol⟩ := l.ofSymbol?_symbol
  have hscan : Lexeme.scan (front ++ l.operator.symbol :: back) =
      .ok (lexemes ++ ⟨.op l.operator, 0 + front.length⟩ :: lexemes') := by
    rw [Lexeme.scan, Lexeme.scanFrom_append_stop hdigit hpoint hstroke, ← Lexeme.scan, hlexemes,
      Lexeme.scanFrom_symbol hblank hsymbol, hlexemes']
    rfl
  rw [Nat.zero_add] at hscan
  rw [← htext, ← expandMixed_text] at hscan
  exact evaluate_eq_error_of_parse (admitted_text _) hscan (parse_of_full h htokens _)

/-- **Flat chains.** A chain of at most 1024 operators has its value: what its pieces, each the
product of its integers, make when they are added and subtracted from left to right. A longer one is
refused as too deep where its operator number 1025 stands. -/
theorem evaluate_flatText (c : FlatChain) :
    (c.links.length ≤ 1024 → evaluate c.text = .ok ((c.value : Int) : Rat)) ∧
    (1024 < c.links.length → ∃ before l after, c.links = before ++ l :: after ∧
      before.length = 1024 ∧
      evaluate c.text = .error (.tooDeep (text ⟨c.first, before⟩ ++ l.before).length)) := by
  refine ⟨fun h => evaluate_of_length_le h, fun h => ?_⟩
  obtain ⟨first, links⟩ := c
  have hlinks : links = links.take 1024 ++ links[1024] :: links.drop 1025 := by
    rw [← List.drop_eq_getElem_cons h, List.take_append_drop]
  have hlength : (links.take 1024).length = 1024 := by
    rw [List.length_take]
    exact Nat.min_eq_left (Nat.le_of_lt h)
  have hrefused : evaluate (text ⟨first, links.take 1024 ++ links[1024] :: links.drop 1025⟩) = _ :=
    evaluate_of_full hlength
  rw [← hlinks] at hrefused
  exact ⟨_, _, _, hlinks, hlength, hrefused⟩

/-- The link of `+1`. -/
def plusOne : Link := ⟨.add, 1, [], [], by decide, blank_nil, blank_nil⟩

/-- The chain `1--2 *-3`. -/
def signedProduct : FlatChain :=
  ⟨1, [⟨.sub, -2, [], [], by decide, blank_nil, blank_nil⟩,
    ⟨.mul, -3, [' '], [], by decide, List.forall_mem_singleton.mpr rfl, blank_nil⟩]⟩

/-- A dash behind an operator is a sign; and in `1+1+…+1` with 1025 operators the last one is
refused, at position 2049. -/
theorem evaluate_flatText_signs :
    signedProduct.text = ['1', '-', '-', '2', ' ', '*', '-', '3'] ∧
    signedProduct.links.length ≤ 1024 ∧ evaluate signedProduct.text = .ok (-5) ∧
    evaluate (text ⟨1, List.replicate 1025 plusOne⟩) = .error (.tooDeep 2049) := by
  have hlength : signedProduct.links.length ≤ 1024 := by decide
  have hvalue : signedProduct.value = -5 := by decide
  have heval := (evaluate_flatText signedProduct).1 hlength
  rw [hvalue] at heval
  have hlong : 1024 < (List.replicate 1025 plusOne).length := by
    rw [List.length_replicate]
    decide
  obtain ⟨before, l, after, hlinks, hbefore, hrefused⟩ :=
    (evaluate_flatText ⟨1, List.replicate 1025 plusOne⟩).2 hlong
  have hl (l' : Link) (h : l' ∈ before ++ l :: after) : l' = plusOne :=
    List.eq_of_mem_replicate (hlinks ▸ h)
  have hones : before = List.replicate 1024 plusOne :=
    List.eq_replicate_iff.mpr ⟨hbefore, fun l' h => hl l' (List.mem_append_left _ h)⟩
  have hlast : l = plusOne := hl l (List.mem_append_right _ List.mem_cons_self)
  have hpos : (text ⟨1, before⟩ ++ l.before).length = 2049 := by
    have hone : plusOne.text.length = 2 := rfl
    rw [hones, hlast, text, List.length_append, List.length_append, List.length_flatMap,
      List.map_replicate, hone, List.sum_replicate_nat]
    rfl
  rw [hpos] at hrefused
  exact ⟨rfl, hlength, heval, hrefused⟩

end FlatChain

end ExactLength
