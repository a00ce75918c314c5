import ExactLength.Proofs.Expr.Readback

/-!
# The shape of accepted trees

The tree of an accepted text has a node for each operator of the text, one for each minus sign in
front of a value, and a leaf for each number; parentheses and plus signs in front of a value leave
none. So the tree is no larger than its text. It is low as well, however long the text is: on a way
down there are no more changes of sign than signs nest, and no more operators than the text has.

A plus or a minus joins two values exactly when it stands right behind a number or a closing
parenthesis, so the tokens alone tell which of them are operators.

Results:
* `reads_of_derives`: the nodes and the leaves of a derived tree are its tokens, in order.
* `count_none_le_of_derives`: signs are as deep as they nest.
* `exists_path_length_eq`, `length_path_le`: the height of a tree from what stands on its paths.
* `parse_bounded`: all of these for the trees that the parser accepts.
-/

namespace ExactLength

namespace Token

/-- A number or a closing parenthesis, which ends a value. -/
def closesValue : Token → Bool
  | number _ | rparen => true
  | op _ | lparen => false

/-- The value of a number. -/
def number? : Token → Option Rat
  | number r => some r
  | _ => none

/-- The tokens behind `before`, each with the token in front of it. -/
def pairsFrom (before : Option Token) (tokens : List Token) : List (Option Token × Token) :=
  (before :: tokens.map some).zip tokens

/-- The tokens of a text, each with the token in front of it. -/
def pairs (tokens : List Token) : List (Option Token × Token) := pairsFrom none tokens

/-- The node that a token stands for, told from the token in front of it. A star or a stroke is an
operator between two values, and so is a plus or a minus right behind a value. Any other minus is a
change of sign, which is `none`. -/
def node? : Option Token × Token → Option (Option Operator)
  | (before, op o) =>
    if o.isProduct || before.any closesValue then some (some o)
    else if o = .sub then some none
    else none
  | _ => none

variable {before : Option Token} {t : Token}

theorem pairsFrom_cons (before : Option Token) (t : Token) (ts : List Token) :
    pairsFrom before (t :: ts) = (before, t) :: pairsFrom (some t) ts := rfl

theorem pairsFrom_append (before : Option Token) (ts us : List Token) :
    pairsFrom before (ts ++ us) = pairsFrom before ts ++ pairsFrom (ts.getLast?.or before) us := by
  induction ts generalizing before with
  | nil => rfl
  | cons t ts ih =>
    rw [List.cons_append, pairsFrom_cons, ih, pairsFrom_cons, List.getLast?_cons, Option.or_some]
    rfl

/-- Right behind a value every operator joins two values. -/
theorem node?_behind (h : t.closesValue = true) (o : Operator) :
    node? (some t, op o) = some (some o) := by
  rw [node?, Option.any_some, h, Bool.or_true, if_pos rfl]

theorem node?_plus (h : before.any closesValue = false) : node? (before, op .add) = none := by
  rw [node?, h]
  rfl

theorem node?_minus (h : before.any closesValue = false) :
    node? (before, op .sub) = some none := by
  rw [node?, h]
  rfl

end Token

/-! ## Nodes and tokens -/

open Token

namespace Expr

/-- The operators and changes of sign of a tree in the order in which they are written; a change of
sign is `none`. -/
def nodes : Expr → List (Option Operator)
  | lit _ => []
  | neg e => none :: e.nodes
  | binary o a b => a.nodes ++ some o :: b.nodes

/-- The number of changes of sign in a tree. -/
def negations : Expr → Nat
  | lit _ => 0
  | neg e => e.negations + 1
  | binary _ a b => a.negations + b.negations

theorem countP_isSome_nodes (e : Expr) : e.nodes.countP Option.isSome = e.operators := by
  induction e with
  | lit r => rfl
  | neg e ih => exact ih
  | binary o a b iha ihb =>
    rw [nodes, List.countP_append, List.countP_cons_of_pos rfl, iha, ihb, operators, Nat.add_assoc]

theorem count_none_nodes (e : Expr) : e.nodes.count none = e.negations := by
  induction e with
  | lit r => rfl
  | neg e ih => rw [nodes, List.count_cons_self, ih, negations]
  | binary o a b iha ihb =>
    rw [nodes, List.count_append, List.count_cons_of_ne (Option.some_ne_none o), iha, ihb,
      negations]

end Expr

/-- Where a value is wanted, the tokens tell the nodes and the leaves of `e`, and behind them no
value is wanted. -/
structure Reads (ts : List Token) (e : Expr) : Prop where
  nodes : ∀ before : Option Token, before.any closesValue = false →
    (pairsFrom before ts).filterMap node? = e.nodes
  numbers : ts.filterMap number? = e.leaves
  last : ∃ t, ts.getLast? = some t ∧ t.closesValue = true

namespace Reads

variable {ts us : List Token} {e a b : Expr}

theorem lit (r : Rat) : Reads [number r] (.lit r) :=
  ⟨fun _ _ => rfl, rfl, number r, rfl, rfl⟩

theorem last_cons (h : Reads ts e) (s : Token) :
    ∃ t, (s :: ts).getLast? = some t ∧ t.closesValue = true := by
  obtain ⟨t, ht, hclose⟩ := h.last
  exact ⟨t, by rw [List.getLast?_cons, ht]; rfl, hclose⟩

theorem plus (h : Reads ts e) : Reads (op .add :: ts) e where
  nodes before hb := by
    rw [pairsFrom_cons, List.filterMap_cons_none (node?_plus hb), h.nodes _ rfl]
  numbers := h.numbers
  last := h.last_cons _

theorem minus (h : Reads ts e) : Reads (op .sub :: ts) (.neg e) where
  nodes before hb := by
    rw [pairsFrom_cons, List.filterMap_cons_some (node?_minus hb), h.nodes _ rfl]
    rfl
  numbers := h.numbers
  last := h.last_cons _

theorem paren (h : Reads ts e) : Reads (lparen :: ts ++ [rparen]) e where
  nodes before _ := by
    rw [List.cons_append, pairsFrom_cons, pairsFrom_append, List.filterMap_cons_none rfl,
      List.filterMap_append, h.nodes _ rfl]
    exact List.append_nil e.nodes
  numbers := by
    rw [List.cons_append, List.filterMap_cons_none rfl, List.filterMap_append, h.numbers]
    exact List.append_nil e.leaves
  last := ⟨rparen, List.getLast?_concat, rfl⟩

/-- The operator stands behind a value, so it is the node that joins its operands. -/
theorem binary (ha : Reads ts a) (hb : Reads us b) (o : Operator) :
    Reads (ts ++ op o :: us) (.binary o a b) := by
  obtain ⟨t, ht, hclose⟩ := ha.last
  refine ⟨fun before hbefore => ?_, ?_, ?_⟩
  · rw [pairsFrom_append, ht, Option.some_or, pairsFrom_cons, List.filterMap_append,
      ha.nodes _ hbefore, List.filterMap_cons_some (node?_behind hclose o), hb.nodes _ rfl]
    rfl
  · rw [List.filterMap_append, ha.numbers, List.filterMap_cons_none rfl, hb.numbers]
    rfl
  · obtain ⟨u, hu, hclose'⟩ := hb.last_cons (op o)
    exact ⟨u, by rw [List.getLast?_append, hu]; rfl, hclose'⟩

end Reads

/-- **Nodes.** The nodes and the leaves of a derived tree are those that its tokens tell, by
induction on the derivation. -/
theorem reads_of_derives {level : Level} {ts : List Token} {n k : Nat} {e : Expr}
    (h : Derives level ts n k e) : Reads ts e := by
  induction h with
  | number r => exact .lit r
  | plus _ ih => exact ih.plus
  | minus _ ih => exact ih.minus
  | paren _ ih => exact ih.paren
  | term _ ih => exact ih
  | product _ _ _ iha ihb => exact iha.binary ihb _
  | sum _ ih => exact ih
  | addition _ _ _ iha ihb => exact iha.binary ihb _

/-! ## Paths -/

namespace Expr

/-- The nodes on the way from the root to each number, the numbers taken from left to right; a
change of sign is `none`. -/
def paths : Expr → List (List (Option Operator))
  | lit _ => [[]]
  | neg e => e.paths.map (none :: ·)
  | binary o a b => (a.paths ++ b.paths).map (some o :: ·)

/-- Some path is as long as the tree is high. -/
theorem exists_path_length_eq (e : Expr) : ∃ p ∈ e.paths, p.length = e.height := by
  induction e with
  | lit r => exact ⟨[], List.mem_singleton_self _, rfl⟩
  | neg e ih =>
    obtain ⟨p, hp, hlength⟩ := ih
    exact ⟨none :: p, List.mem_map_of_mem hp, congrArg (· + 1) hlength⟩
  | binary o a b iha ihb =>
    obtain ⟨p, hp, hlength⟩ := iha
    obtain ⟨q, hq, hlength'⟩ := ihb
    rcases Nat.le_total a.height b.height with h | h
    · refine ⟨some o :: q, List.mem_map_of_mem (List.mem_append_right _ hq), ?_⟩
      rw [List.length_cons, hlength', height, Nat.max_eq_right h]
    · refine ⟨some o :: p, List.mem_map_of_mem (List.mem_append_left _ hp), ?_⟩
      rw [List.length_cons, hlength, height, Nat.max_eq_left h]

theorem countP_isSome_le {e : Expr} :
    ∀ p ∈ e.paths, p.countP Option.isSome ≤ e.operators := by
  induction e with
  | lit r =>
    intro p hp
    obtain rfl := List.mem_singleton.1 hp
    exact Nat.le_refl 0
  | neg e ih =>
    intro p hp
    obtain ⟨q, hq, rfl⟩ := List.mem_map.1 hp
    exact ih q hq
  | binary o a b iha ihb =>
    intro p hp
    obtain ⟨q, hq, rfl⟩ := List.mem_map.1 hp
    rw [List.countP_cons_of_pos rfl, operators]
    rcases List.mem_append.1 hq with hq | hq
    · have := iha q hq
      omega
    · have := ihb q hq
      omega

/-- A path holds operators and changes of sign and nothing else. -/
theorem length_path_le {e : Expr} {n : Nat} {p : List (Option Operator)} (hp : p ∈ e.paths)
    (hn : p.count none ≤ n) : p.length ≤ n + e.operators := by
  have hsplit := List.length_eq_countP_add_countP Option.isSome (l := p)
  have hnone : p.countP (fun x => decide ¬ x.isSome = true) = p.count none :=
    List.countP_congr fun x _ => by cases x <;> simp
  have hoperators := countP_isSome_le p hp
  omega

end Expr

/-- **Signs.** On a path of a derived tree there are no more changes of sign than signs and
parentheses nest. -/
theorem count_none_le_of_derives {level : Level} {ts : List Token} {n k : Nat} {e : Expr}
    (h : Derives level ts n k e) : ∀ p ∈ e.paths, p.count none ≤ n := by
  have hjoined {n m : Nat} {a b : Expr} (o : Operator) (ha : ∀ p ∈ a.paths, p.count none ≤ n)
      (hb : ∀ p ∈ b.paths, p.count none ≤ m) :
      ∀ p ∈ (Expr.binary o a b).paths, p.count none ≤ max n m := by
    intro p hp
    obtain ⟨q, hq, rfl⟩ := List.mem_map.1 hp
    rw [List.count_cons_of_ne (Option.some_ne_none o)]
    rcases List.mem_append.1 hq with hq | hq
    · exact Nat.le_trans (ha q hq) (Nat.le_max_left n m)
    · exact Nat.le_trans (hb q hq) (Nat.le_max_right n m)
  induction h with
  | number r =>
    intro p hp
    obtain rfl := List.mem_singleton.1 hp
    exact Nat.le_refl 0
  | plus _ ih => exact fun p hp => Nat.le_succ_of_le (ih p hp)
  | minus _ ih =>
    intro p hp
    obtain ⟨q, hq, rfl⟩ := List.mem_map.1 hp
    rw [List.count_cons_self]
    exact Nat.succ_le_succ (ih q hq)
  | paren _ ih => exact fun p hp => Nat.le_succ_of_le (ih p hp)
  | term _ ih => exact ih
  | product _ _ _ iha ihb => exact hjoined _ iha ihb
  | sum _ ih => exact ih
  | addition _ _ _ iha ihb => exact hjoined _ iha ihb

/-- **Accepted trees.** The nodes of an accepted tree are, in the order of the text, its operators
between values and its other minus signs, and the leaves are its numbers. There are at most 1024
operators. No path from the root to a leaf has more than 256 changes of sign, and none is longer
than 1280. -/
theorem parse_bounded {lexemes : List Lexeme} {stop : Nat} {e : Expr}
    (h : Expr.parse lexemes stop = .ok e) :
    let told := (pairs (lexemes.map Lexeme.token)).filterMap node?
    e.operators ≤ 1024 ∧
    e.nodes = told ∧
    e.operators = told.countP Option.isSome ∧
    e.negations = told.count none ∧
    e.leaves = (lexemes.map Lexeme.token).filterMap number? ∧
    (∀ p ∈ e.paths, p.count none ≤ 256) ∧
    e.height ≤ 1280 := by
  obtain ⟨n, k, hderives, hn, hk⟩ := Parser.derives_of_parse h
  have hreads := reads_of_derives hderives
  have hnodes : (pairs (lexemes.map Lexeme.token)).filterMap node? = e.nodes :=
    hreads.nodes none rfl
  have hoperators : e.operators ≤ 1024 := by
    rw [← hderives.operators_eq]
    exact hk
  have hsigns : ∀ p ∈ e.paths, p.count none ≤ 256 := fun p hp =>
    Nat.le_trans (count_none_le_of_derives hderives p hp) hn
  have hheight : e.height ≤ 1280 := by
    obtain ⟨p, hp, hlength⟩ := e.exists_path_length_eq
    have := Expr.length_path_le hp (hsigns p hp)
    omega
  rw [hnodes]
  exact ⟨hoperators, rfl, e.countP_isSome_nodes.symm, e.count_none_nodes.symm, hreads.numbers.symm,
    hsigns, hheight⟩

/-- In `-(+1 - -2) * 3/8` one minus joins two values and two change a sign. -/
theorem parse_bounded_signs :
    let tokens := [op .sub, lparen, op .add, number 1, op .sub, op .sub, number 2, rparen, op .mul,
      number (3 / 8)]
    let e := Expr.binary .mul (.neg (.binary .sub (.lit 1) (.neg (.lit 2)))) (.lit (3 / 8))
    Expr.parse (tokens.map fun token => ⟨token, 0⟩) 16 = .ok e ∧
    (pairs tokens).filterMap node? = [none, some .sub, none, some .mul] ∧
    e.nodes = [none, some .sub, none, some .mul] ∧ e.operators = 2 ∧ e.negations = 2 ∧
    e.leaves = [1, 2, 3 / 8] ∧ (∀ p ∈ e.paths, p.count none ≤ 256) ∧ e.height ≤ 1280 := by
  intro tokens e
  have hdifference : Derives .sum [op .add, number 1, op .sub, op .sub, number 2] 1 1
      (.binary .sub (.lit 1) (.neg (.lit 2))) :=
    .addition (.sum (.term (.plus (.number 1)))) rfl (.term (.minus (.number 2)))
  have hproduct : Derives .sum tokens 3 2 e :=
    .sum (.product (.term (.minus (.paren hdifference))) rfl (.number (3 / 8)))
  have hderives : Derives .sum
      ((tokens.map fun token => (⟨token, 0⟩ : Lexeme)).map Lexeme.token) 3 2 e := hproduct
  have hparse := parse_of_derives hderives (by decide) (by decide) 16
  obtain ⟨-, hnodes, hoperators, hnegations, hleaves, hsigns, hheight⟩ := parse_bounded hparse
  exact ⟨hparse, rfl, hnodes, hoperators, hnegations, hleaves, hsigns, hheight⟩

end ExactLength
