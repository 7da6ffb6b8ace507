import Reactive.Decimal

/-!
# Reactive.Token — the words of a class declaration

Keywords, literals, names and symbols, and how a message names each of them.  Contextual words such as `partial` or
`get` are plain identifiers.
-/

namespace Reactive

/-- A reserved word. -/
inductive Keyword
  | using_ | namespace_ | class_ | this | static | true_ | false_ | null
deriving DecidableEq, Repr

/-- The spelling of a reserved word. -/
def Keyword.text : Keyword → String
  | using_ => "using"
  | namespace_ => "namespace"
  | class_ => "class"
  | this => "this"
  | static => "static"
  | true_ => "true"
  | false_ => "false"
  | null => "null"

/-- Every reserved word. -/
def Keyword.all : List Keyword := [.using_, .namespace_, .class_, .this, .static, .true_, .false_, .null]

/-- The reserved word with a spelling. -/
def Keyword.ofText? (s : String) : Option Keyword := Keyword.all.find? (·.text == s)

/-- An operator or a delimiter. -/
inductive Symbol
  | plus | minus | star | slash | percent | bang
  | assign | equal | notEqual | less | lessEqual | greater | greaterEqual
  | andAnd | orOr | question | coalesce | arrow | dot | colon
  | leftParen | rightParen | leftBrace | rightBrace | leftBracket | rightBracket | semicolon | comma
deriving DecidableEq, Repr

/-- The spelling of a symbol. -/
def Symbol.text : Symbol → String
  | plus => "+"
  | minus => "-"
  | star => "*"
  | slash => "/"
  | percent => "%"
  | bang => "!"
  | assign => "="
  | equal => "=="
  | notEqual => "!="
  | less => "<"
  | lessEqual => "<="
  | greater => ">"
  | greaterEqual => ">="
  | andAnd => "&&"
  | orOr => "||"
  | question => "?"
  | coalesce => "??"
  | arrow => "=>"
  | dot => "."
  | colon => ":"
  | leftParen => "("
  | rightParen => ")"
  | leftBrace => "\x7b"
  | rightBrace => "\x7d"
  | leftBracket => "["
  | rightBracket => "]"
  | semicolon => ";"
  | comma => ","

/-- The symbol that two characters spell together. -/
def Symbol.ofPair? : Char → Char → Option Symbol
  | '=', '=' => some .equal
  | '!', '=' => some .notEqual
  | '<', '=' => some .lessEqual
  | '>', '=' => some .greaterEqual
  | '&', '&' => some .andAnd
  | '|', '|' => some .orOr
  | '?', '?' => some .coalesce
  | '=', '>' => some .arrow
  | _, _ => none

/-- The symbol that one character spells alone. -/
def Symbol.ofChar? : Char → Option Symbol
  | '+' => some .plus
  | '-' => some .minus
  | '*' => some .star
  | '/' => some .slash
  | '%' => some .percent
  | '!' => some .bang
  | '=' => some .assign
  | '<' => some .less
  | '>' => some .greater
  | '?' => some .question
  | '.' => some .dot
  | ':' => some .colon
  | '(' => some .leftParen
  | ')' => some .rightParen
  | '\x7b' => some .leftBrace
  | '\x7d' => some .rightBrace
  | '[' => some .leftBracket
  | ']' => some .rightBracket
  | ';' => some .semicolon
  | ',' => some .comma
  | _ => none

/-- A word of the input. -/
inductive Token
  | keyword (word : Keyword)
  | identifier (name : String)
  | integer (value : Int64)
  | float (value : Double)
  | string (value : String)
  | symbol (sign : Symbol)
  | endOfFile
deriving DecidableEq, Repr

namespace Token

instance : Inhabited Token := ⟨endOfFile⟩

instance : Coe Symbol Token := ⟨symbol⟩

instance : Coe Keyword Token := ⟨keyword⟩

/-- How a message names the token. -/
def describe : Token → String
  | keyword w => "'" ++ w.text ++ "'"
  | identifier name => "identifier '" ++ name ++ "'"
  | integer value => "integer " ++ toString value.toInt
  | float value => "number " ++ value.plainText
  | string value => "string \"" ++ value ++ "\""
  | symbol s => "'" ++ s.text ++ "'"
  | endOfFile => "'end of file'"

/-- The name, if the token is an identifier. -/
def name? : Token → Option String
  | identifier name => some name
  | _ => none

end Token

theorem Keyword.ofText?_text (k : Keyword) : Keyword.ofText? k.text = some k := by
  cases k <;> decide

end Reactive
