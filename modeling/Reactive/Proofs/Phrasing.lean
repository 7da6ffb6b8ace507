import Mathlib.Tactic.Common
import Reactive.Proofs.Grouping

/-!
# Reactive.Proofs.Phrasing — expressions as they are written

A tree does not say where parentheses stood.  A `Phrase` is an expression with the parentheses around its operands and
the comma that may close its arguments, so its tokens are the very tokens of a text.

* `Phrase.tokens`, `Phrase.tree`: what a phrase is written with, and what it says.
* `Phrase.Grouped`: operands without parentheses bind as strongly as their operators need.
* `Expr.inOrder`: the tokens of a tree from left to right, without any that only group.
* `ungrouped`: tokens without parentheses that only group and without commas that close arguments, found by looking at
  tokens alone; `ungrouped_tokens`: of a phrase these are the tokens of its tree.
-/

namespace Reactive

/-- An expression as it is written. -/
inductive Phrase
  | literal (value : Literal)
  | name (name : String)
  | this
  /-- An expression in parentheses. -/
  | group (inner : Phrase)
  | member (object : Phrase) (name : String)
  /-- A call; a comma may stand behind the last argument. -/
  | call (callee : Phrase) (args : List Phrase) (trailing : Bool)
  | unary (op : UnaryOp) (operand : Phrase)
  | binary (op : BinaryOp) (left right : Phrase)
  | conditional (condition thenBranch elseBranch : Phrase)
  | lambda (isStatic : Bool) (param : String) (body : Phrase)
deriving Repr

namespace Phrase

mutual

/-- The tokens that a phrase is written with. -/
def tokens : Phrase → List Token
  | literal v => [v.token]
  | name n => [.identifier n]
  | this => [.keyword .this]
  | group e => .symbol .leftParen :: (tokens e ++ [.symbol .rightParen])
  | member o n => tokens o ++ [.symbol .dot, .identifier n]
  | call c args trailing =>
    tokens c ++ .symbol .leftParen ::
      (tokensList args ++ ((if trailing then [.symbol .comma] else []) ++ [.symbol .rightParen]))
  | unary op e => .symbol op.symbol :: tokens e
  | binary op l r => tokens l ++ .symbol op.symbol :: tokens r
  | conditional c t e => tokens c ++ .symbol .question :: (tokens t ++ .symbol .colon :: tokens e)
  | lambda isStatic p b =>
    (if isStatic then [.keyword .static] else []) ++ .identifier p :: .symbol .arrow :: tokens b

/-- The tokens of arguments. -/
def tokensList : List Phrase → List Token
  | [] => []
  | p :: ps => tokens p ++ tokensRest ps

/-- The tokens of further arguments, each behind a comma. -/
def tokensRest : List Phrase → List Token
  | [] => []
  | p :: ps => .symbol .comma :: (tokens p ++ tokensRest ps)

end

mutual

/-- The tree that a phrase says. -/
def tree : Phrase → Expr
  | literal v => .literal v .none
  | name n => .name n .none
  | this => .this .none
  | group e => tree e
  | member o n => .member (tree o) n .none
  | call c args _ => .call (tree c) (trees args) .none
  | unary op e => .unary op (tree e) .none
  | binary op l r => .binary op (tree l) (tree r) .none
  | conditional c t e => .conditional (tree c) (tree t) (tree e) .none
  | lambda isStatic p b => .lambda isStatic p (tree b) .none

/-- The trees of arguments. -/
def trees : List Phrase → List Expr
  | [] => []
  | p :: ps => tree p :: trees ps

end

/-! ### Grouping -/

/-- How strongly the outermost operator binds; what is in parentheses, and what has no operator, binds most strongly. -/
def strength : Phrase → Nat
  | lambda .. => 0
  | conditional .. => 1
  | binary op .. => op.precedence
  | unary .. => 9
  | literal _ | name _ | this | group _ | member .. | call .. => 10

/-- The phrase is a lambda, which is not in parentheses. -/
def isLambda : Phrase → Bool
  | lambda .. => true
  | _ => false

/-- The phrase ends with the body of a lambda, which would take up an operator behind it. -/
def isOpen : Phrase → Bool
  | lambda .. => true
  | unary _ e => isOpen e
  | binary _ _ r => isOpen r
  | conditional _ _ e => isOpen e
  | literal _ | name _ | this | group _ | member .. | call .. => false

/-- The phrase is an operand in front of an operator that needs the strength `least` there. -/
def Leads (least : Nat) (p : Phrase) : Prop := least ≤ p.strength ∧ p.isOpen = false

/-- The phrase is an operand behind an operator that needs the strength `least` there; a lambda may stand there as it
is. -/
def Trails (least : Nat) (p : Phrase) : Prop := p.isLambda = true ∨ least ≤ p.strength

mutual

/-- Every operand binds as strongly as its operator needs: `??` and the conditional group to the right, all others between
two operands to the left.  What stands between `?` and `:` or between commas is enclosed by them. -/
def Grouped : Phrase → Prop
  | literal _ | name _ | this => True
  | group e => Grouped e
  | member o _ => o.Leads 10 ∧ Grouped o
  | call c args trailing => c.Leads 10 ∧ Grouped c ∧ AllGrouped args ∧ (trailing = true → args ≠ [])
  | unary _ e => e.Trails 9 ∧ Grouped e
  | binary op l r =>
    (l.Leads (Expr.operandStrengths op).1 ∧ Grouped l) ∧ r.Trails (Expr.operandStrengths op).2 ∧ Grouped r
  | conditional c t e => (c.Leads 2 ∧ Grouped c) ∧ Grouped t ∧ e.Trails 1 ∧ Grouped e
  | lambda _ _ b => Grouped b

/-- The same of all arguments. -/
def AllGrouped : List Phrase → Prop
  | [] => True
  | p :: ps => Grouped p ∧ AllGrouped ps

end

/-- Only a lambda binds more weakly than the conditional. -/
theorem trails_one (p : Phrase) : p.Trails 1 := by
  cases p with
  | lambda isStatic n b => exact Or.inl rfl
  | binary op l r =>
    refine Or.inr ?_
    show 1 ≤ op.precedence
    cases op <;> decide
  | conditional c t e => exact Or.inr (Nat.le_refl 1)
  | unary op e => exact Or.inr (by decide : 1 ≤ 9)
  | _ => exact Or.inr (by decide : 1 ≤ 10)

/-- No phrase begins with a closing parenthesis. -/
theorem opens_tokens : ∀ p : Phrase, Parse.Opens p.tokens
  | literal v => by
    rw [tokens]
    refine ⟨_, _, rfl, ?_⟩
    cases v <;> exact nofun
  | name n => by
    rw [tokens]
    exact ⟨_, _, rfl, nofun⟩
  | this => by
    rw [tokens]
    exact ⟨_, _, rfl, nofun⟩
  | group e => by
    rw [tokens]
    exact ⟨_, _, rfl, nofun⟩
  | member o n => by
    rw [tokens]
    exact (opens_tokens o).append
  | call c args trailing => by
    rw [tokens]
    exact (opens_tokens c).append
  | unary op e => by
    rw [tokens]
    exact ⟨_, _, rfl, by cases op <;> exact nofun⟩
  | binary op l r => by
    rw [tokens]
    exact (opens_tokens l).append
  | conditional c t e => by
    rw [tokens]
    exact (opens_tokens c).append
  | lambda isStatic n b => by
    rw [tokens]
    cases isStatic <;> exact ⟨_, _, rfl, nofun⟩

end Phrase

/-! ### Trees from left to right -/

namespace Expr

mutual

/-- The tokens of a tree from left to right: its operators, names and constants, and the parentheses and commas of its
calls. -/
def inOrder : Expr → List Token
  | literal v _ => [v.token]
  | name n _ => [.identifier n]
  | this _ => [.keyword .this]
  | member o n _ => inOrder o ++ [.symbol .dot, .identifier n]
  | call c args _ => inOrder c ++ .symbol .leftParen :: (inOrderList args ++ [.symbol .rightParen])
  | unary op e _ => .symbol op.symbol :: inOrder e
  | binary op l r _ => inOrder l ++ .symbol op.symbol :: inOrder r
  | conditional c t e _ => inOrder c ++ .symbol .question :: (inOrder t ++ .symbol .colon :: inOrder e)
  | lambda isStatic p b _ =>
    (if isStatic then [.keyword .static] else []) ++ .identifier p :: .symbol .arrow :: inOrder b

/-- The tokens of arguments. -/
def inOrderList : List Expr → List Token
  | [] => []
  | e :: es => inOrder e ++ inOrderRest es

/-- The tokens of further arguments, each behind a comma. -/
def inOrderRest : List Expr → List Token
  | [] => []
  | e :: es => .symbol .comma :: (inOrder e ++ inOrderRest es)

end

mutual

/-- Spans do not count. -/
theorem inOrder_bare : ∀ e : Expr, e.bare.inOrder = e.inOrder
  | literal _ _ | name _ _ | this _ => rfl
  | member o n _ => by simp only [bare, inOrder, inOrder_bare o]
  | call c args _ => by simp only [bare, inOrder, inOrder_bare c, inOrderList_bare args]
  | unary op e _ => by simp only [bare, inOrder, inOrder_bare e]
  | binary op l r _ => by simp only [bare, inOrder, inOrder_bare l, inOrder_bare r]
  | conditional c t e _ => by simp only [bare, inOrder, inOrder_bare c, inOrder_bare t, inOrder_bare e]
  | lambda isStatic p b _ => by simp only [bare, inOrder, inOrder_bare b]

theorem inOrderList_bare : ∀ es : List Expr, inOrderList (bareList es) = inOrderList es
  | [] => rfl
  | e :: es => by simp only [bareList, inOrderList, inOrder_bare e, inOrderRest_bare es]

theorem inOrderRest_bare : ∀ es : List Expr, inOrderRest (bareList es) = inOrderRest es
  | [] => rfl
  | e :: es => by simp only [bareList, inOrderRest, inOrder_bare e, inOrderRest_bare es]

end

end Expr

/-! ### Tokens that only group -/

/-- An operand ends with the token, so a parenthesis behind it opens arguments. -/
def Token.endsOperand : Token → Bool
  | .integer _ | .float _ | .string _ | .identifier _ => true
  | .keyword k => k = .this || k = .true_ || k = .false_ || k = .null
  | .symbol s => s = .rightParen
  | .endOfFile => false

/-- The tokens without those that only group, where `behind` says whether an operand stands before, and `calls` of each
open parenthesis, the innermost one first, whether it opens arguments. -/
def ungroupedFrom (behind : Bool) (calls : List Bool) : List Token → List Token
  | [] => []
  | t :: ts =>
    if t = .symbol .leftParen then
      (if behind then [t] else []) ++ ungroupedFrom false (behind :: calls) ts
    else if t = .symbol .rightParen then
      (if calls.headD true then [t] else []) ++ ungroupedFrom true calls.tail ts
    else if t = .symbol .comma ∧ headToken ts = .symbol .rightParen then ungroupedFrom false calls ts
    else t :: ungroupedFrom t.endsOperand calls ts

/-- The tokens without parentheses that only group, and without commas in front of a closing parenthesis. -/
def ungrouped (ts : List Token) : List Token := ungroupedFrom false [] ts

section

variable {behind : Bool} {calls : List Bool} {t : Token} {ts : List Token}

theorem ungroupedFrom_leftParen : ungroupedFrom behind calls (.symbol .leftParen :: ts) =
    (if behind then [.symbol .leftParen] else []) ++ ungroupedFrom false (behind :: calls) ts := by
  rw [ungroupedFrom, if_pos rfl]

theorem ungroupedFrom_rightParen {call : Bool} : ungroupedFrom behind (call :: calls) (.symbol .rightParen :: ts) =
    (if call then [.symbol .rightParen] else []) ++ ungroupedFrom true calls ts := by
  rw [ungroupedFrom, if_neg (by decide), if_pos rfl]
  rfl

/-- The comma behind the last argument. -/
theorem ungroupedFrom_trailing : ungroupedFrom behind calls (.symbol .comma :: .symbol .rightParen :: ts) =
    ungroupedFrom false calls (.symbol .rightParen :: ts) := by
  rw [ungroupedFrom, if_neg (by decide), if_neg (by decide), if_pos ⟨rfl, rfl⟩]

/-- The comma in front of an argument. -/
theorem ungroupedFrom_comma (h : Parse.Opens ts) {rest : List Token} :
    ungroupedFrom behind calls (.symbol .comma :: (ts ++ rest)) =
      .symbol .comma :: ungroupedFrom false calls (ts ++ rest) := by
  obtain ⟨u, us, rfl, hu⟩ := h
  rw [ungroupedFrom, if_neg (by decide), if_neg (by decide), if_neg fun h => hu h.2]
  rfl

/-- All other tokens stay. -/
theorem ungroupedFrom_other (hleft : t ≠ .symbol .leftParen) (hright : t ≠ .symbol .rightParen)
    (hcomma : t ≠ .symbol .comma) : ungroupedFrom behind calls (t :: ts) = t :: ungroupedFrom t.endsOperand calls ts := by
  rw [ungroupedFrom, if_neg hleft, if_neg hright, if_neg fun h => hcomma h.1]

theorem ungroupedFrom_literal (v : Literal) : ungroupedFrom behind calls (v.token :: ts) =
    v.token :: ungroupedFrom true calls ts := by
  have hends : v.token.endsOperand = true := by
    cases v with
    | bool b => cases b <;> rfl
    | _ => rfl
  rw [ungroupedFrom_other (by cases v <;> exact nofun) (by cases v <;> exact nofun) (by cases v <;> exact nofun), hends]

theorem ungroupedFrom_identifier (n : String) : ungroupedFrom behind calls (.identifier n :: ts) =
    .identifier n :: ungroupedFrom true calls ts := ungroupedFrom_other nofun nofun nofun

theorem ungroupedFrom_keyword (k : Keyword) : ungroupedFrom behind calls (.keyword k :: ts) =
    .keyword k :: ungroupedFrom (Token.keyword k).endsOperand calls ts := ungroupedFrom_other nofun nofun nofun

/-- A symbol that is no parenthesis and no comma. -/
theorem ungroupedFrom_symbol {s : Symbol} (hleft : s ≠ .leftParen) (hright : s ≠ .rightParen) (hcomma : s ≠ .comma) :
    ungroupedFrom behind calls (.symbol s :: ts) = .symbol s :: ungroupedFrom false calls ts := by
  have hends : (Token.symbol s).endsOperand = false := decide_eq_false hright
  rw [ungroupedFrom_other (by simpa using hleft) (by simpa using hright) (by simpa using hcomma), hends]

theorem ungroupedFrom_unary (op : UnaryOp) : ungroupedFrom behind calls (.symbol op.symbol :: ts) =
    .symbol op.symbol :: ungroupedFrom false calls ts := by
  cases op <;> exact ungroupedFrom_symbol nofun nofun nofun

/-- The end of a call, with or without a comma. -/
theorem ungroupedFrom_closing (behind trailing : Bool) (calls : List Bool) (rest : List Token) :
    ungroupedFrom behind (true :: calls)
        ((if trailing then [.symbol .comma] else []) ++ ([.symbol .rightParen] ++ rest)) =
      .symbol .rightParen :: ungroupedFrom true calls rest := by
  cases trailing with
  | false => exact ungroupedFrom_rightParen
  | true => exact ungroupedFrom_trailing.trans ungroupedFrom_rightParen

theorem ungroupedFrom_binary (op : BinaryOp) : ungroupedFrom behind calls (.symbol op.symbol :: ts) =
    .symbol op.symbol :: ungroupedFrom false calls ts := by
  cases op <;> exact ungroupedFrom_symbol nofun nofun nofun

end

namespace Phrase

mutual

/-- Where an operand may stand, a phrase leaves the tokens of its tree, and an operand stands behind it. -/
theorem ungroupedFrom_tokens : ∀ (p : Phrase) (calls : List Bool) (rest : List Token),
    ungroupedFrom false calls (p.tokens ++ rest) = p.tree.inOrder ++ ungroupedFrom true calls rest
  | literal v, calls, rest => by
    rw [tokens, tree, Expr.inOrder, List.singleton_append, ungroupedFrom_literal]
    rfl
  | name n, calls, rest => by
    rw [tokens, tree, Expr.inOrder, List.singleton_append, ungroupedFrom_identifier]
    rfl
  | this, calls, rest => by
    rw [tokens, tree, Expr.inOrder, List.singleton_append, ungroupedFrom_keyword]
    rfl
  | group e, calls, rest => by
    rw [tokens, tree, List.cons_append, List.append_assoc, ungroupedFrom_leftParen, ungroupedFrom_tokens e,
      List.singleton_append, ungroupedFrom_rightParen]
    rfl
  | member o n, calls, rest => by
    rw [tokens, tree, Expr.inOrder, List.append_assoc, ungroupedFrom_tokens o, List.append_assoc]
    show _ ++ ungroupedFrom true calls (.symbol .dot :: .identifier n :: rest) = _
    rw [ungroupedFrom_symbol (s := .dot) nofun nofun nofun, ungroupedFrom_identifier]
    rfl
  | call c args trailing, calls, rest => by
    rw [tokens, tree, Expr.inOrder, List.append_assoc, ungroupedFrom_tokens c, List.append_assoc, List.cons_append,
      ungroupedFrom_leftParen, if_pos rfl, List.append_assoc, List.append_assoc, ungroupedFrom_tokensList args trailing,
      List.cons_append, List.cons_append, List.append_assoc]
    rfl
  | unary op e, calls, rest => by
    rw [tokens, tree, Expr.inOrder, List.cons_append, ungroupedFrom_unary, ungroupedFrom_tokens e]
    rfl
  | binary op l r, calls, rest => by
    rw [tokens, tree, Expr.inOrder, List.append_assoc, ungroupedFrom_tokens l, List.append_assoc, List.cons_append,
      ungroupedFrom_binary, ungroupedFrom_tokens r]
    rfl
  | conditional c t e, calls, rest => by
    rw [tokens, tree, Expr.inOrder, List.append_assoc, ungroupedFrom_tokens c, List.append_assoc, List.cons_append,
      ungroupedFrom_symbol (s := .question) nofun nofun nofun, List.append_assoc, ungroupedFrom_tokens t,
      List.cons_append, ungroupedFrom_symbol (s := .colon) nofun nofun nofun, ungroupedFrom_tokens e, List.cons_append,
      List.append_assoc]
    rfl
  | lambda isStatic n b, calls, rest => by
    have hbody (behind : Bool) : ungroupedFrom behind calls (.identifier n :: .symbol .arrow :: (b.tokens ++ rest)) =
        .identifier n :: .symbol .arrow :: (b.tree.inOrder ++ ungroupedFrom true calls rest) := by
      rw [ungroupedFrom_identifier, ungroupedFrom_symbol (s := .arrow) nofun nofun nofun, ungroupedFrom_tokens b]
    rw [tokens, tree, Expr.inOrder]
    cases isStatic with
    | false => exact hbody false
    | true =>
      show ungroupedFrom false calls (.keyword .static :: .identifier n :: .symbol .arrow :: (b.tokens ++ rest)) = _
      rw [ungroupedFrom_keyword, hbody]
      rfl

/-- The same of arguments up to the closing parenthesis. -/
theorem ungroupedFrom_tokensList : ∀ (ps : List Phrase) (trailing : Bool) (calls : List Bool) (rest : List Token),
    ungroupedFrom false (true :: calls)
        (tokensList ps ++ ((if trailing then [.symbol .comma] else []) ++ ([.symbol .rightParen] ++ rest))) =
      Expr.inOrderList (trees ps) ++ .symbol .rightParen :: ungroupedFrom true calls rest
  | [], trailing, calls, rest => by
    rw [tokensList, trees, Expr.inOrderList]
    exact ungroupedFrom_closing false trailing calls rest
  | p :: ps, trailing, calls, rest => by
    rw [tokensList, trees, Expr.inOrderList, List.append_assoc, ungroupedFrom_tokens p,
      ungroupedFrom_tokensRest ps trailing, List.append_assoc]

/-- The same of further arguments. -/
theorem ungroupedFrom_tokensRest : ∀ (ps : List Phrase) (trailing : Bool) (calls : List Bool) (rest : List Token),
    ungroupedFrom true (true :: calls)
        (tokensRest ps ++ ((if trailing then [.symbol .comma] else []) ++ ([.symbol .rightParen] ++ rest))) =
      Expr.inOrderRest (trees ps) ++ .symbol .rightParen :: ungroupedFrom true calls rest
  | [], trailing, calls, rest => by
    rw [tokensRest, trees, Expr.inOrderRest]
    exact ungroupedFrom_closing true trailing calls rest
  | p :: ps, trailing, calls, rest => by
    rw [tokensRest, trees, Expr.inOrderRest, List.cons_append, List.append_assoc, ungroupedFrom_comma p.opens_tokens,
      ungroupedFrom_tokens p, ungroupedFrom_tokensRest ps trailing, List.cons_append, List.append_assoc]

end

/-- The tokens of a phrase, but for those that only group, are the tokens of its tree. -/
theorem ungrouped_tokens (p : Phrase) : ungrouped p.tokens = p.tree.inOrder := by
  have h := ungroupedFrom_tokens p [] []
  rwa [List.append_nil, ungroupedFrom, List.append_nil] at h

end Phrase

end Reactive
