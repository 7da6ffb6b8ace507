import Reactive.Span
import Reactive.Token

/-!
# Reactive.Expr — expressions of member bodies

The tree of an expression with a span at every node, and what the analysis asks of it: which members of the class it
reads (`Expr.memberReads`) and whether it is a projection `this.To(static x => body)`.
-/

namespace Reactive

/-- A constant. -/
inductive Literal
  | null
  | bool (value : Bool)
  | int (value : Int64)
  | float (value : Double)
  | string (value : String)
deriving DecidableEq, Repr, Inhabited

/-- An operator before its operand. -/
inductive UnaryOp
  | not | negate
deriving DecidableEq, Repr

/-- An operator between its operands. -/
inductive BinaryOp
  | add | subtract | multiply | divide | modulo
  | equal | notEqual | less | lessEqual | greater | greaterEqual
  | and | or | coalesce
deriving DecidableEq, Repr

/-- The symbol of an operator. -/
def UnaryOp.symbol : UnaryOp → Symbol
  | not => .bang
  | negate => .minus

/-- The symbol of an operator. -/
def BinaryOp.symbol : BinaryOp → Symbol
  | add => .plus
  | subtract => .minus
  | multiply => .star
  | divide => .slash
  | modulo => .percent
  | equal => .equal
  | notEqual => .notEqual
  | less => .less
  | lessEqual => .lessEqual
  | greater => .greater
  | greaterEqual => .greaterEqual
  | and => .andAnd
  | or => .orOr
  | coalesce => .coalesce

/-- Every binary operator. -/
def BinaryOp.all : List BinaryOp :=
  [.add, .subtract, .multiply, .divide, .modulo, .equal, .notEqual, .less, .lessEqual, .greater, .greaterEqual,
    .and, .or, .coalesce]

/-- The binary operator of a symbol. -/
def BinaryOp.ofSymbol? (s : Symbol) : Option BinaryOp := BinaryOp.all.find? (·.symbol = s)

theorem BinaryOp.ofSymbol?_symbol (op : BinaryOp) : BinaryOp.ofSymbol? op.symbol = some op := by
  cases op <;> decide

/-- How strongly an operator binds its operands, from 2 on; 1 is left to the conditional, 9 to the unary operators and
10 to calls and member accesses. -/
def BinaryOp.precedence : BinaryOp → Nat
  | coalesce => 2
  | or => 3
  | and => 4
  | equal | notEqual => 5
  | less | lessEqual | greater | greaterEqual => 6
  | add | subtract => 7
  | multiply | divide | modulo => 8

/-- An expression; every node carries the span of its text. -/
inductive Expr
  | literal (value : Literal) (span : Span)
  | name (name : String) (span : Span)
  | this (span : Span)
  | member (object : Expr) (name : String) (span : Span)
  | call (callee : Expr) (args : List Expr) (span : Span)
  | unary (op : UnaryOp) (operand : Expr) (span : Span)
  | binary (op : BinaryOp) (left right : Expr) (span : Span)
  | conditional (condition thenBranch elseBranch : Expr) (span : Span)
  | lambda (isStatic : Bool) (param : String) (body : Expr) (span : Span)
deriving Repr, Inhabited

namespace Expr

/-- The span of the whole expression. -/
def span : Expr → Span
  | literal _ s | name _ s | this s | member _ _ s | call _ _ s | unary _ _ s | binary _ _ _ s
  | conditional _ _ _ s | lambda _ _ _ s => s

/-- The expression with another span at its root. -/
def withSpan (s : Span) : Expr → Expr
  | literal v _ => literal v s
  | name n _ => name n s
  | this _ => this s
  | member o n _ => member o n s
  | call c as _ => call c as s
  | unary op e _ => unary op e s
  | binary op l r _ => binary op l r s
  | conditional c t e _ => conditional c t e s
  | lambda st p b _ => lambda st p b s

@[simp] theorem span_withSpan (s : Span) (e : Expr) : (e.withSpan s).span = s := by cases e <;> rfl

mutual

/-- The expression without its spans: what it says, wherever it was written. -/
def bare : Expr → Expr
  | literal v _ => literal v .none
  | name n _ => name n .none
  | this _ => this .none
  | member o n _ => member (bare o) n .none
  | call c as _ => call (bare c) (bareList as) .none
  | unary op e _ => unary op (bare e) .none
  | binary op l r _ => binary op (bare l) (bare r) .none
  | conditional c t e _ => conditional (bare c) (bare t) (bare e) .none
  | lambda st p b _ => lambda st p (bare b) .none

/-- Expressions without their spans. -/
def bareList : List Expr → List Expr
  | [] => []
  | e :: es => bare e :: bareList es

end

@[simp] theorem bare_withSpan (s : Span) (e : Expr) : (e.withSpan s).bare = e.bare := by cases e <;> rfl

/-! ### Projections -/

/-- The expression is `this`. -/
def isThis : Expr → Bool
  | this _ => true
  | _ => false

/-- The expression is `this.To`, whose call projects the instance. -/
def isProjector : Expr → Bool
  | member object n _ => n == "To" && object.isThis
  | _ => false

/-- The parameter and the body of `this.To(static x => body)`. -/
def staticProjection? : Expr → Option (String × Expr)
  | call callee [lambda true param body _] _ => if callee.isProjector then some (param, body) else none
  | _ => none

/-! ### Reads of members -/

/-- The receivers that name host helpers and no members. -/
def hostReceivers : List String := ["string", "Math"]

/-- A read of a member of the class. -/
structure Read where
  name : String
  span : Span
deriving DecidableEq, Repr

mutual

/-- The members that an expression reads, in order, with `bound` the parameters of the lambdas around it. -/
def readsIn (bound : List String) : Expr → List Read
  | literal _ _ | this _ => []
  | name n s => if bound.contains n || hostReceivers.contains n then [] else [⟨n, s⟩]
  | member (this _) n s => [⟨n, s⟩]
  | member (name r s') n s => if bound.contains r then [⟨n, s⟩] else readsIn bound (name r s')
  | member o _ _ => readsIn bound o
  | call callee args _ =>
    (if callee.isProjector then [] else readsIn bound callee) ++ readsInAll bound args
  | unary _ e _ => readsIn bound e
  | binary _ l r _ => readsIn bound l ++ readsIn bound r
  | conditional c t e _ => readsIn bound c ++ readsIn bound t ++ readsIn bound e
  | lambda _ p b _ => readsIn (p :: bound) b

/-- The members that expressions read, in order. -/
def readsInAll (bound : List String) : List Expr → List Read
  | [] => []
  | e :: es => readsIn bound e ++ readsInAll bound es

end

/-- The members of the class that an expression reads, in order. -/
def memberReads (e : Expr) : List Read := readsIn [] e

end Expr

end Reactive
