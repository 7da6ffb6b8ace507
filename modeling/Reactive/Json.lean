/-!
# Reactive.Json — JSON values and their texts

A JSON value keeps its numbers as they are written and the fields of an object in order.  `compact` writes a value
without white space and `pretty` with two spaces of indentation a level; reading is in `Reactive.Json.Reader`, and what
the text of a number stands for in `Reactive.Json.Number`.
-/

namespace Reactive

/-- A JSON value. -/
inductive Json
  | null
  | bool (value : Bool)
  | number (text : String)
  | string (value : String)
  | array (items : List Json)
  | object (fields : List (String × Json))
  /-- A string, or an object with a name, that holds half of a pair of surrogates: it is well formed and can be passed
  over, but has no text. -/
  | textless
deriving Inhabited, Repr

namespace Json

/-! ### Building -/

/-- An integer. -/
def int (i : Int) : Json := number (toString i)

/-- A natural number. -/
def nat (n : Nat) : Json := number (toString n)

/-- A string, or null. -/
def optString : Option String → Json
  | some s => string s
  | none => null

/-! ### Taking apart -/

/-- The first field of a name. -/
def field? (j : Json) (name : String) : Option Json :=
  match j with
  | object fields => fields.lookup name
  | _ => none

/-- The string, if it is one. -/
def string? : Json → Option String
  | string s => some s
  | _ => none

/-- The items, if it is an array. -/
def array? : Json → Option (List Json)
  | array items => some items
  | _ => none

/-- The truth value, if it is one. -/
def bool? : Json → Option Bool
  | bool b => some b
  | _ => none

/-! ### Writing -/

/-- One character of a string. -/
def writeChar (c : Char) : List Char :=
  if c = '"' then ['\\', '"']
  else if c = '\\' then ['\\', '\\']
  else if c = '\x08' then ['\\', 'b']
  else if c = '\x0c' then ['\\', 'f']
  else if c = '\n' then ['\\', 'n']
  else if c = '\r' then ['\\', 'r']
  else if c = '\t' then ['\\', 't']
  else if c.toNat < 32 then
    ['\\', 'u', '0', '0', Nat.digitChar (c.toNat / 16), Nat.digitChar (c.toNat % 16)]
  else [c]

/-- A string with its quotes. -/
def writeString (s : String) : String := "\"" ++ String.ofList (s.toList.flatMap writeChar) ++ "\""

mutual

/-- The text of a value without white space. -/
def compact : Json → String
  | null | textless => "null"
  | bool b => if b then "true" else "false"
  | number text => text
  | string s => writeString s
  | array items => "[" ++ compactItems items ++ "]"
  | object fields => "\x7b" ++ compactFields fields ++ "\x7d"

/-- The texts of items with commas between them. -/
def compactItems : List Json → String
  | [] => ""
  | [j] => compact j
  | j :: js => compact j ++ "," ++ compactItems js

/-- The texts of fields with commas between them. -/
def compactFields : List (String × Json) → String
  | [] => ""
  | [(name, j)] => writeString name ++ ":" ++ compact j
  | (name, j) :: fs => writeString name ++ ":" ++ compact j ++ "," ++ compactFields fs

end

/-- A new line, indented. -/
def newLine (depth : Nat) : String := "\n" ++ String.ofList (List.replicate (2 * depth) ' ')

mutual

/-- The text of a value that stands `depth` levels deep, with a line for each item and field. -/
def prettyAt (depth : Nat) : Json → String
  | null | textless => "null"
  | bool b => if b then "true" else "false"
  | number text => text
  | string s => writeString s
  | array [] => "[]"
  | array (j :: js) => "[" ++ prettyItems (depth + 1) (j :: js) ++ newLine depth ++ "]"
  | object [] => "\x7b\x7d"
  | object (f :: fs) => "\x7b" ++ prettyFields (depth + 1) (f :: fs) ++ newLine depth ++ "\x7d"

/-- Items, each on a line of its own. -/
def prettyItems (depth : Nat) : List Json → String
  | [] => ""
  | [j] => newLine depth ++ prettyAt depth j
  | j :: js => newLine depth ++ prettyAt depth j ++ "," ++ prettyItems depth js

/-- Fields, each on a line of its own. -/
def prettyFields (depth : Nat) : List (String × Json) → String
  | [] => ""
  | [(name, j)] => newLine depth ++ writeString name ++ ": " ++ prettyAt depth j
  | (name, j) :: fs => newLine depth ++ writeString name ++ ": " ++ prettyAt depth j ++ "," ++ prettyFields depth fs

end

/-- The text of a value on several lines. -/
def pretty (j : Json) : String := prettyAt 0 j

end Json

end Reactive
