import Reactive.Span
import Reactive.Token
import Reactive.Text.Quoted

/-!
# Reactive.Token.Lexer — splitting a text into tokens

`pieces` cuts a text into consecutive pieces, each the longest that one rule allows: white space and comments, tokens,
and faults.  The pieces concatenate to the text (`flatten_pieces`).  `place` gives each piece its span, and `tokenize`
keeps the tokens if there is no fault, and all the faults otherwise.
-/

namespace Reactive

/-- Why a piece of text is no token. -/
inductive LexFault
  | unexpectedCharacter (char : Char)
  | unterminatedString
  | numberOutOfRange (text : String)
deriving DecidableEq, Repr

/-- A fault of the text with its place. -/
structure LexError where
  fault : LexFault
  span : Span
deriving DecidableEq, Repr

/-- The wording of a fault of the text. -/
def LexError.message (e : LexError) : String :=
  match e.fault with
  | .unexpectedCharacter c => "unexpected character '" ++ c.toString ++ "' at " ++ e.span.place
  | .unterminatedString => "string starting at " ++ e.span.place ++ " is never closed"
  | .numberOutOfRange text => "number '" ++ text ++ "' at " ++ e.span.place ++ " is out of range"

/-- What a piece of text is. -/
inductive Lexeme
  | skipped
  | token (t : Token)
  | fault (f : LexFault)
deriving DecidableEq, Repr

namespace Lexer

/-! ### Character classes (all of them ASCII) -/

/-- Space, tab, carriage return or line feed. -/
def isSpace (c : Char) : Bool := c = ' ' || c = '\t' || c = '\r' || c = '\n'

/-- May begin a name. -/
def isNameStart (c : Char) : Bool := c.isAlpha || c = '_'

/-- May continue a name. -/
def isNameChar (c : Char) : Bool := c.isAlphanum || c = '_'

/-- May continue a number. -/
def isDigitOrGap (c : Char) : Bool := c.isDigit || c = '_'

/-! ### One piece -/

/-- The keyword or identifier with a spelling. -/
def word (cs : List Char) : Token :=
  let s := String.ofList cs
  match Keyword.ofText? s with
  | some k => .keyword k
  | none => .identifier s

/-- The digits of a number, without the gaps between them. -/
def digits (cs : List Char) : List Char := cs.filter (· ≠ '_')

/-- The integer with a spelling; it has to fit 64 bits with a sign. -/
def integer (cs : List Char) : Lexeme :=
  let n := Double.natOfDigits (digits cs)
  if n < 1 <<< 63 then .token (.integer (Int64.ofNat n)) else .fault (.numberOutOfRange (String.ofList cs))

/-- The characters of `cs` up to the end of a string whose quote has been read, and whether that end is a quote; an
open string reaches as far as whole items do: a plain character, or a backslash with a character behind it, none of
them a line feed. -/
def stringEnd : List Char → Nat × Bool
  | [] => (0, false)
  | ['\\'] => (0, false)
  | '\\' :: c :: cs => if c = '\n' then (0, false) else let (n, closed) := stringEnd cs; (n + 2, closed)
  | c :: cs =>
    if c = '"' then (1, true)
    else if c = '\n' then (0, false)
    else let (n, closed) := stringEnd cs; (n + 1, closed)

/-- The characters of `cs` up to and with the first `*/`, or all of them. -/
def commentEnd : List Char → Nat
  | [] => 0
  | '*' :: '/' :: _ => 2
  | _ :: cs => commentEnd cs + 1

/-- A number that begins with the digit `c`: a point belongs to it only with a digit behind. -/
def number (c : Char) (cs : List Char) : Lexeme × Nat :=
  let n := (cs.takeWhile isDigitOrGap).length
  let whole := c :: cs.take n
  match cs.drop n with
  | '.' :: d :: rest =>
    if d.isDigit then
      let more := rest.takeWhile isDigitOrGap
      (.token (.float (Double.ofDigits false (digits whole) (digits (d :: more)) 0)), n + 2 + more.length)
    else (integer whole, n)
  | _ => (integer whole, n)

/-- A symbol that begins with `c`, of two characters if possible. -/
def symbol (c : Char) (cs : List Char) : Lexeme × Nat :=
  match cs.head?.bind (Symbol.ofPair? c) with
  | some s => (.token (.symbol s), 1)
  | none =>
    match Symbol.ofChar? c with
    | some s => (.token (.symbol s), 0)
    | none => (.fault (.unexpectedCharacter c), 0)

/-- The piece that begins with `c`, and how many characters of `cs` belong to it. -/
def next (c : Char) (cs : List Char) : Lexeme × Nat :=
  if isSpace c then (.skipped, (cs.takeWhile isSpace).length)
  else if isNameStart c then
    let more := cs.takeWhile isNameChar
    (.token (word (c :: more)), more.length)
  else if c.isDigit then number c cs
  else if c = '"' then
    let (n, closed) := stringEnd cs
    if closed then (.token (.string (String.ofList (Text.unescape (cs.take (n - 1))))), n)
    else (.fault .unterminatedString, n)
  else
    match c, cs with
    | '/', '/' :: rest => (.skipped, 1 + (rest.takeWhile (· ≠ '\n')).length)
    | '/', '*' :: rest => (.skipped, 1 + commentEnd rest)
    | _, _ => symbol c cs

/-! ### The whole text -/

/-- A stretch of text with what it is. -/
structure Piece where
  text : List Char
  lexeme : Lexeme
deriving DecidableEq, Repr

/-- The text cut into pieces. -/
def pieces : List Char → List Piece
  | [] => []
  | c :: cs =>
    let r := next c cs
    ⟨c :: cs.take r.2, r.1⟩ :: pieces (cs.drop r.2)
termination_by cs => cs.length
decreasing_by simp only [List.length_drop, List.length_cons]; omega

/-- Nothing of the text is lost between the pieces. -/
theorem flatten_pieces (cs : List Char) : (pieces cs).flatMap Piece.text = cs := by
  induction h : cs.length using Nat.strongRecOn generalizing cs with
  | _ n ih =>
    cases cs with
    | nil => simp [pieces]
    | cons c cs =>
      rw [pieces, List.flatMap_cons, ih _ _ _ rfl]
      · simp
      · simp only [List.length_drop, List.length_cons] at h ⊢; omega

/-- The pieces with their spans, the first one starting at `p`. -/
def place (p : Position) : List Piece → List (Lexeme × Span)
  | [] => []
  | piece :: rest =>
    let q := p.after piece.text
    (piece.lexeme, .between p q) :: place q rest

/-- The token of a placed piece. -/
def placedToken? : Lexeme × Span → Option (Token × Span)
  | (.token t, span) => some (t, span)
  | _ => none

/-- The fault of a placed piece. -/
def placedFault? : Lexeme × Span → Option LexError
  | (.fault f, span) => some ⟨f, span⟩
  | _ => none

end Lexer

/-- The tokens of a text with their spans, and the empty span behind the last character. -/
structure TokenStream where
  tokens : List (Token × Span)
  stop : Span
deriving DecidableEq, Repr

/-- The tokens with the end of the file as the last one. -/
def TokenStream.withEnd (s : TokenStream) : List (Token × Span) := s.tokens ++ [(.endOfFile, s.stop)]

/-- The tokens of a text, or every fault in it. -/
def tokenize (text : String) : Except (List LexError) TokenStream :=
  let cs := text.toList
  let placed := Lexer.place .origin (Lexer.pieces cs)
  let stop := Position.origin.after cs
  match placed.filterMap Lexer.placedFault? with
  | [] => .ok ⟨placed.filterMap Lexer.placedToken?, .between stop stop⟩
  | faults => .error faults

end Reactive
