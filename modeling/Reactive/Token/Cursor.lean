import Reactive.Token.Lexer

/-!
# Reactive.Token.Cursor — reading a token stream

A `Cursor` is what is left of a token stream.  A rule of the grammar is a `Parse`: from a cursor it gives a result or
an error, and in both cases the cursor at which it stopped, so that reading can go on behind an error.  Loops count
down from the number of tokens left, which every round lowers.
-/

namespace Reactive

/-- Why a rule of the grammar failed. -/
inductive ParseFault
  /-- Another token stands where one of `expected` has to. -/
  | unexpected (found : Token) (expected : List Token)
  /-- An attribute argument is no constant. -/
  | notConstant (found : Token)
  /-- No expression begins with the token. -/
  | notExpression (found : Token)
  /-- No accessor begins with the token. -/
  | notAccessor (found : Token)
  /-- A property declares an accessor twice. -/
  | duplicateAccessor (name : String)
  /-- Expressions are nested too deeply. -/
  | tooDeep
deriving DecidableEq, Repr

/-- A fault of the grammar with its place. -/
structure ParseError where
  fault : ParseFault
  span : Span
deriving DecidableEq, Repr

/-- How a message names the tokens that may stand somewhere. -/
def describeExpected : List Token → String
  | [] => "more input"
  | [t] => t.describe
  | ts => "one of " ++ ", ".intercalate (ts.map Token.describe)

namespace ParseError

/-- The wording of a fault of the grammar. -/
def message (e : ParseError) : String :=
  match e.fault with
  | .unexpected .endOfFile expected => "Unexpected end of file, expected " ++ describeExpected expected
  | .unexpected found expected => "Unexpected " ++ found.describe ++ ", expected " ++ describeExpected expected
  | .notConstant found => "Attribute arguments must be constants, found " ++ found.describe
  | .notExpression found => "Expected an expression, found " ++ found.describe
  | .notAccessor found => "Expected 'get' or 'set', found " ++ found.describe
  | .duplicateAccessor name => "Accessor '" ++ name ++ "' is declared more than once"
  | .tooDeep => "Expression nesting is too deep"

/-- The wording with the place. -/
def display (e : ParseError) : String := e.message ++ " at " ++ e.span.place

end ParseError

/-- What is left of a token stream. -/
structure Cursor where
  /-- The span of the token read last. -/
  previous : Option Span
  /-- The tokens left. -/
  tokens : List (Token × Span)
  /-- The empty span at the end of the text. -/
  stop : Span
deriving DecidableEq, Repr

namespace Cursor

/-- The next token. -/
def current (c : Cursor) : Token :=
  match c.tokens with
  | [] => .endOfFile
  | t :: _ => t.1

/-- The span of the next token. -/
def currentSpan (c : Cursor) : Span :=
  match c.tokens with
  | [] => c.stop
  | t :: _ => t.2

/-- The token behind the next one. -/
def peek (c : Cursor) : Token :=
  match c.tokens with
  | _ :: t :: _ => t.1
  | _ => .endOfFile

/-- The span of the token read last; at the start, of the next one. -/
def previousSpan (c : Cursor) : Span := c.previous.getD c.currentSpan

/-- The cursor behind the next token; at the end it stays. -/
def advance (c : Cursor) : Cursor :=
  match c.tokens with
  | [] => c
  | t :: ts => { c with previous := some t.2, tokens := ts }

/-- All tokens have been read. -/
def atEnd (c : Cursor) : Bool := c.tokens.isEmpty

theorem length_advance (c : Cursor) : c.advance.tokens.length = c.tokens.length - 1 := by
  unfold advance; split <;> simp_all

/-- The cursor at the first of `tokens` that satisfies `p`, or at the end. -/
def skipTo (p : Token → Bool) (previous : Option Span) (stop : Span) : List (Token × Span) → Cursor
  | [] => ⟨previous, [], stop⟩
  | t :: ts => if p t.1 then ⟨previous, t :: ts, stop⟩ else skipTo p (some t.2) stop ts

/-- The cursor at the next token that satisfies `p`, or at the end. -/
def seek (p : Token → Bool) (c : Cursor) : Cursor := skipTo p c.previous c.stop c.tokens

/-- The cursor behind the end of the member that `tokens` are in, `depth` braces being open: behind a semicolon outside
braces, or behind the brace that closes them and a semicolon that may follow; a brace that closes the class stays. -/
def skipMember (previous : Option Span) (stop : Span) : Nat → List (Token × Span) → Cursor
  | _, [] => ⟨previous, [], stop⟩
  | depth, (t, s) :: ts =>
    if t = .symbol .leftBrace then skipMember (some s) stop (depth + 1) ts
    else if t = .symbol .rightBrace then
      match depth with
      | 0 => ⟨previous, (t, s) :: ts, stop⟩
      | 1 =>
        let c : Cursor := ⟨some s, ts, stop⟩
        if c.current = .symbol .semicolon then c.advance else c
      | d + 2 => skipMember (some s) stop (d + 1) ts
    else if t = .symbol .semicolon && depth = 0 then ⟨some s, ts, stop⟩
    else skipMember (some s) stop depth ts

/-- The cursor behind the member it is in. -/
def memberEnd (c : Cursor) : Cursor := skipMember c.previous c.stop 0 c.tokens

/-- The cursor at the next place, behind one token at least, where a class may begin. -/
def classStart (c : Cursor) : Cursor :=
  c.advance.seek fun t => t = .keyword .class_ || t = .symbol .leftBracket

/-- The cursor behind the next semicolon. -/
def pastSemicolon (c : Cursor) : Cursor := (c.seek (· = .symbol .semicolon)).advance

end Cursor

/-- The cursor before the first token of a stream. -/
def TokenStream.cursor (s : TokenStream) : Cursor := ⟨none, s.tokens, s.stop⟩

/-- A rule of the grammar. -/
abbrev Parse := EStateM ParseError Cursor

namespace Parse

/-- The next token. -/
def current : Parse Token := return (← get).current

/-- The span of the next token. -/
def currentSpan : Parse Span := return (← get).currentSpan

/-- The span of the token read last. -/
def previousSpan : Parse Span := return (← get).previousSpan

/-- The number of tokens left. -/
def remaining : Parse Nat := return (← get).tokens.length

/-- Reads a token, whatever it is. -/
def advance : Parse Unit := modify Cursor.advance

/-- Fails at the next token. -/
def fail {α : Type} (fault : ParseFault) : Parse α := do throw ⟨fault, ← currentSpan⟩

/-- Fails because the next token is none of `expected`. -/
def unexpected {α : Type} (expected : List Token) : Parse α := do fail (.unexpected (← current) expected)

/-- Whether the next token is `t`. -/
def check (t : Token) : Parse Bool := return (← current) = t

/-- Reads `t` if it comes next. -/
def accept (t : Token) : Parse Bool := do
  if ← check t then
    advance
    return true
  else return false

/-- Reads `t`, which has to come next. -/
def expect (t : Token) : Parse Unit := do
  unless ← accept t do unexpected [t]

/-- Reads a name. -/
def identifier : Parse (String × Span) := do
  let span ← currentSpan
  match ← current with
  | .identifier name =>
    advance
    return (name, span)
  | _ => unexpected [.identifier ""]

/-- One or more items with commas between them. -/
def separated {α : Type} (item : Parse α) : Nat → Parse (List α)
  | 0 => return [← item]
  | n + 1 => do
    let a ← item
    if ← accept (.symbol .comma) then return a :: (← separated item n) else return [a]

/-- Items with commas between them, before a token that closes the list; a comma may stand before that. -/
def listedBefore {α : Type} (close : Token) (item : Parse α) : Nat → Parse (List α)
  | 0 => do if ← check close then return [] else return [← item]
  | n + 1 => do
    if ← check close then return []
    let a ← item
    if ← accept (.symbol .comma) then return a :: (← listedBefore close item n) else return [a]

/-- The segments of a name behind its first one, each behind a point. -/
def dotted (name : String) : Nat → Parse String
  | 0 => return name
  | n + 1 => do
    if ← accept (.symbol .dot) then
      let (segment, _) ← identifier
      dotted (name ++ "." ++ segment) n
    else return name

/-- A dotted name. -/
def qualifiedName : Parse String := do
  let (name, _) ← identifier
  dotted name (← remaining)

end Parse

end Reactive
