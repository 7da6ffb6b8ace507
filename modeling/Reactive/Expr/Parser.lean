import Reactive.Expr
import Reactive.Token.Cursor

/-!
# Reactive.Expr.Parser — reading an expression

Operators are read by strength: `expression depth least` reads an operand and then as many operators as bind more
strongly than `least`, each with its further operands.  At most 256 expressions may be open inside each other, and
`depth` counts how many still may; every rule below takes the reader of nested expressions as its argument `sub`, so
the recursion is on `depth` alone.
-/

namespace Reactive.Parse

/-- How strongly a token binds the expression before it; zero if it does not go on with an expression. -/
def strength : Token → Nat
  | .symbol .question => 1
  | .symbol .leftParen | .symbol .dot => 10
  | .symbol s => ((BinaryOp.ofSymbol? s).map BinaryOp.precedence).getD 0
  | _ => 0

/-- Operators that group to the right: `a ?? b ?? c` is `a ?? (b ?? c)`, and so with the conditional. -/
def groupsRight (t : Token) : Bool := t = .symbol .question || t = .symbol .coalesce

/-- The token goes on with an expression that is read for operators stronger than `least`. -/
def continues (least : Nat) (t : Token) : Bool :=
  let s := strength t
  s ≠ 0 && (least < s || (s = least && groupsRight t))

section

variable (sub : Nat → Parse Expr)

/-- A lambda, `static` or not. -/
def lambda : Parse Expr := do
  let start ← currentSpan
  let isStatic ← accept (.keyword .static)
  let (param, _) ← identifier
  expect (.symbol .arrow)
  let body ← sub 0
  return .lambda isStatic param body (start.through body.span)

/-- An expression of one token. -/
def atom (build : Span → Expr) : Parse Expr := do
  let span ← currentSpan
  advance
  return build span

/-- An operand: a constant, a name, a lambda, an operand with its sign, or an expression in parentheses, which gets the
span of these. -/
def operand : Parse Expr := do
  let span ← currentSpan
  match ← current with
  | .integer v => atom (.literal (.int v))
  | .float v => atom (.literal (.float v))
  | .string v => atom (.literal (.string v))
  | .keyword .true_ => atom (.literal (.bool true))
  | .keyword .false_ => atom (.literal (.bool false))
  | .keyword .null => atom (.literal .null)
  | .keyword .this => atom .this
  | .keyword .static => lambda sub
  | .identifier name => do
    if (← get).peek = .symbol .arrow then lambda sub else atom (.name name)
  | .symbol .bang => do
    advance
    let e ← sub 9
    return .unary .not e (span.through e.span)
  | .symbol .minus => do
    advance
    let e ← sub 9
    return .unary .negate e (span.through e.span)
  | .symbol .leftParen => do
    advance
    let inner ← sub 0
    expect (.symbol .rightParen)
    return inner.withSpan (span.through (← previousSpan))
  | found => fail (.notExpression found)

/-- The expression that goes on from `left` with the next token, which is an operator of the strength given. -/
def extend (left : Expr) : Parse Expr := do
  match ← current with
  | .symbol .dot => do
    advance
    let (name, span) ← identifier
    return .member left name (left.span.through span)
  | .symbol .leftParen => do
    advance
    let args ← listedBefore (.symbol .rightParen) (sub 0) (← remaining)
    expect (.symbol .rightParen)
    return .call left args (left.span.through (← previousSpan))
  | .symbol .question => do
    advance
    let thenBranch ← sub 0
    expect (.symbol .colon)
    let elseBranch ← sub 0
    return .conditional left thenBranch elseBranch (left.span.through elseBranch.span)
  | .symbol s =>
    match BinaryOp.ofSymbol? s with
    | some op => do
      advance
      let right ← sub op.precedence
      return .binary op left right (left.span.through right.span)
    | none => return left
  | _ => return left

/-- The operators that follow `left` and bind more strongly than `least`. -/
def chain (least : Nat) : Nat → Expr → Parse Expr
  | 0, left => return left
  | n + 1, left => do
    if continues least (← current) then chain least n (← extend sub left) else return left

end

/-- An expression of operators that bind more strongly than `least`, with at most `depth` expressions open. -/
def expressionWithin : Nat → Nat → Parse Expr
  | 0, _ => fail .tooDeep
  | depth + 1, least => do
    let left ← operand (expressionWithin depth)
    chain (expressionWithin depth) least (← remaining) left

/-- The greatest number of expressions open inside each other. -/
def maxDepth : Nat := 256

/-- An expression. -/
def expression : Parse Expr := expressionWithin maxDepth 0

end Reactive.Parse

namespace Reactive

/-- Why a text is not what it should be: faults of its words, or else of its grammar. -/
inductive SyntaxError
  | lex (errors : List LexError)
  | parse (errors : List ParseError)
deriving DecidableEq, Repr

namespace SyntaxError

/-- The wording: how many errors there are, and the first of them. -/
def message : SyntaxError → String
  | lex errors => toString errors.length ++ " lex error(s), first: " ++ (errors.head?.map LexError.message).getD ""
  | parse errors =>
    toString errors.length ++ " parse error(s), first: " ++ (errors.head?.map ParseError.display).getD ""

/-- Every error with its place. -/
def locations : SyntaxError → List (Span × String)
  | lex errors => errors.map fun e => (e.span, e.message)
  | parse errors => errors.map fun e => (e.span, e.message)

end SyntaxError

/-- The expression that a whole text says. -/
def Expr.parse (text : String) : Except SyntaxError Expr :=
  match tokenize text with
  | .error errors => .error (.lex errors)
  | .ok stream =>
    match Parse.expression stream.cursor with
    | .error e _ => .error (.parse [e])
    | .ok e c =>
      if c.atEnd then .ok e else .error (.parse [⟨.unexpected c.current [.endOfFile], c.currentSpan⟩])

end Reactive
