import Reactive.Expr
import Reactive.Text.Quoted

/-!
# Reactive.Expr.Printer — the text of an expression

An expression is printed with the parentheses that its grouping needs and no others: `textAt least e` is the text of
`e` where only operators that bind at least as strongly as `least` may stand bare.
-/

namespace Reactive

/-- The text of a constant, in parentheses if it is a negative number where only operands may stand. -/
def Literal.textAt (least : Nat) : Literal → String
  | null => "null"
  | bool b => if b then "true" else "false"
  | int i =>
    let text := toString i.toInt
    if i < 0 && least ≥ 9 then "(" ++ text ++ ")" else text
  | float x => if x.isNegative && least ≥ 9 then "(" ++ x.sourceText ++ ")" else x.sourceText
  | string s => Text.quoted s

namespace Expr

/-- The text in parentheses, if they are needed. -/
def parenthesized (needed : Bool) (text : String) : String :=
  if needed then "(" ++ text ++ ")" else text

/-- The expression is a negation: behind a minus sign it needs parentheses, lest two signs meet. -/
def isNegation : Expr → Bool
  | unary .negate _ _ => true
  | _ => false

/-- The least strength of the left operand and of the right operand: `??` groups to the right, the others to the
left. -/
def operandStrengths (op : BinaryOp) : Nat × Nat :=
  if op = .coalesce then (op.precedence + 1, op.precedence) else (op.precedence, op.precedence + 1)

mutual

/-- The text of an expression where operators weaker than `least` need parentheses. -/
def textAt (least : Nat) : Expr → String
  | literal v _ => v.textAt least
  | name n _ => n
  | this _ => "this"
  | member o n _ => textAt 10 o ++ "." ++ n
  | call c args _ => textAt 10 c ++ "(" ++ textList args ++ ")"
  | unary op e _ =>
    parenthesized (least > 9) <|
      op.symbol.text ++
        if op = .negate && e.isNegation then "(" ++ textAt 0 e ++ ")" else textAt 9 e
  | binary op l r _ =>
    parenthesized (op.precedence < least) <|
      textAt (operandStrengths op).1 l ++ " " ++ op.symbol.text ++ " " ++ textAt (operandStrengths op).2 r
  | conditional c t e _ =>
    parenthesized (least > 1) <| textAt 2 c ++ " ? " ++ textAt 1 t ++ " : " ++ textAt 1 e
  | lambda isStatic p b _ =>
    parenthesized (least > 0) <| (if isStatic then "static " else "") ++ p ++ " => " ++ textAt 0 b

/-- The texts of arguments. -/
def textList : List Expr → String
  | [] => ""
  | e :: es => textAt 0 e ++ textRest es

/-- The texts of further arguments, each behind a comma. -/
def textRest : List Expr → String
  | [] => ""
  | e :: es => ", " ++ textAt 0 e ++ textRest es

end

/-- The text of an expression. -/
def text (e : Expr) : String := textAt 0 e

end Expr

end Reactive
