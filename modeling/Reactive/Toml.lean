import Reactive.Text.Lines

/-!
# Reactive.Toml — configuration documents

The part of the format that configurations use: tables, keys with points, strings without escapes, integers, truth
values, arrays on one line, and comments.  A document is the list of its values under their full paths, together with the
tables that have a header; no table and no value may be given twice.
-/

namespace Reactive

/-- A value of a document. -/
inductive TomlValue
  | string (value : String)
  | integer (value : Int)
  | bool (value : Bool)
  | array (items : List TomlValue)
deriving Repr, Inhabited

namespace TomlValue

/-- The string, if it is one. -/
def string? : TomlValue → Option String
  | string s => some s
  | _ => none

/-- The truth value, if it is one. -/
def bool? : TomlValue → Option Bool
  | bool b => some b
  | _ => none

/-- The strings of an array, if it holds nothing else. -/
def strings? : TomlValue → Option (List String)
  | array items => items.mapM string?
  | _ => none

end TomlValue

namespace Toml

/-! ### Words -/

/-- Space or tab. -/
def isBlank (c : Char) : Bool := c = ' ' || c = '\t'

/-- The text behind blanks. -/
def skipBlank (cs : List Char) : List Char := cs.dropWhile isBlank

/-- May stand in strings and comments. -/
def isPlain (c : Char) : Bool := c = '\t' || (c.toNat ≥ 32 && c.toNat ≠ 127)

/-- May stand in a key without quotes. -/
def isKeyChar (c : Char) : Bool := c.isAlphanum || c = '_' || c = '-'

/-- A string behind its quote, and what follows it. -/
def readString (cs : List Char) : Option (String × List Char) :=
  let inside := cs.takeWhile fun c => c ≠ '"' && c ≠ '\\' && isPlain c
  match cs.drop inside.length with
  | '"' :: rest => some (String.ofList inside, rest)
  | _ => none

/-- One key, and what follows it. -/
def readKey : List Char → Option (String × List Char)
  | '"' :: cs => readString cs
  | cs =>
    let key := cs.takeWhile isKeyChar
    if key.isEmpty then none else some (String.ofList key, cs.drop key.length)

/-- Keys with points between them, at most `fuel` and one, and what follows them and blanks. -/
def readKeys : Nat → List Char → Option (List String × List Char)
  | 0, _ => none
  | fuel + 1, cs => do
    let (key, rest) ← readKey (skipBlank cs)
    match skipBlank rest with
    | '.' :: more =>
      let (keys, rest) ← readKeys fuel more
      return (key :: keys, rest)
    | rest => return ([key], rest)

/-! ### Values -/

/-- The value of a digit below a base. -/
def digit? (base : Nat) (c : Char) : Option Nat :=
  let n :=
    if c.isDigit then c.toNat - '0'.toNat
    else if 'a' ≤ c && c ≤ 'f' then c.toNat - 'a'.toNat + 10
    else if 'A' ≤ c && c ≤ 'F' then c.toNat - 'A'.toNat + 10
    else base
  if n < base then some n else none

/-- The number of digits with single underscores between them. -/
def readDigits (base : Nat) (cs : List Char) : Option Nat :=
  let groups := cs.splitOn '_'
  if groups.any List.isEmpty then none
  else (groups.flatten.mapM (digit? base)).map fun ds => ds.foldl (fun n d => n * base + d) 0

/-- A decimal number without a sign, and without a zero before other digits. -/
def readDecimal (cs : List Char) : Option Nat :=
  if cs.head? = some '0' && cs.length > 1 then none else readDigits 10 cs

/-- The integer with a spelling; it has to fit 64 bits with a sign. -/
def readInteger (word : List Char) : Option Int := do
  let n : Int ← match word with
    | '+' :: cs => (readDecimal cs).map Int.ofNat
    | '-' :: cs => (readDecimal cs).map fun n => -(n : Int)
    | '0' :: 'x' :: cs => (readDigits 16 cs).map Int.ofNat
    | '0' :: 'o' :: cs => (readDigits 8 cs).map Int.ofNat
    | '0' :: 'b' :: cs => (readDigits 2 cs).map Int.ofNat
    | cs => (readDecimal cs).map Int.ofNat
  if Int64.minValue.toInt ≤ n && n ≤ Int64.maxValue.toInt then some n else none

/-- May stand in a word without quotes. -/
def isWordChar (c : Char) : Bool := c.isAlphanum || c = '_' || c = '+' || c = '-' || c = '.' || c = ':'

/-- The value of a word. -/
def readWord (word : List Char) : Option TomlValue :=
  if word = "true".toList then some (.bool true)
  else if word = "false".toList then some (.bool false)
  else (readInteger word).map .integer

/-- The items of an array behind its bracket, and what follows the array. -/
def readItems (value : List Char → Option (TomlValue × List Char)) :
    Nat → List Char → Option (List TomlValue × List Char)
  | 0, _ => none
  | fuel + 1, cs =>
    match skipBlank cs with
    | ']' :: rest => some ([], rest)
    | cs => do
      let (item, rest) ← value cs
      match skipBlank rest with
      | ',' :: rest =>
        let (items, rest) ← readItems value fuel rest
        return (item :: items, rest)
      | ']' :: rest => return ([item], rest)
      | _ => none

/-- A value with at most `depth` arrays inside each other, and what follows it. -/
def readValue : Nat → List Char → Option (TomlValue × List Char)
  | 0, _ => none
  | depth + 1, cs =>
    match cs with
    | '"' :: rest => (readString rest).map fun (s, rest) => (.string s, rest)
    | '[' :: rest =>
      (readItems (readValue depth) (rest.length + 1) rest).map fun (items, rest) => (.array items, rest)
    | _ => do
      let word := cs.takeWhile isWordChar
      return (← readWord word, cs.drop word.length)

/-! ### Lines -/

/-- What a line says. -/
inductive Line
  | blank
  | header (path : List String)
  | value (keys : List String) (value : TomlValue)
deriving Repr

/-- Nothing but blanks and a comment is left of the line. -/
def isRest (cs : List Char) : Bool :=
  match skipBlank cs with
  | [] => true
  | '#' :: comment => comment.all isPlain
  | _ => false

/-- What a line says, if it is well formed. -/
def readLine (line : List Char) : Option Line :=
  match skipBlank line with
  | '[' :: rest => do
    match ← readKeys (rest.length + 1) rest with
    | (path, ']' :: rest) => if isRest rest then some (.header path) else none
    | _ => none
  | cs =>
    if isRest cs then some .blank
    else do
      match ← readKeys (cs.length + 1) cs with
      | (keys, '=' :: rest) =>
        let (value, rest) ← readValue (rest.length + 1) (skipBlank rest)
        if isRest rest then some (.value keys value) else none
      | _ => none

end Toml

/-- A document: the tables that have a header, the values under their paths, and the tables on the way to keys with
points. -/
structure TomlDocument where
  headers : List (List String)
  values : List (List String × TomlValue)
  dotted : List (List String)
deriving Repr

namespace TomlDocument

/-- What a list begins with, neither empty nor the list itself. -/
def innerPaths (table : List String) (keys : List String) : List (List String) :=
  (List.range keys.length).filterMap fun n => if n = 0 then none else some (table ++ keys.take n)

/-- A document that says nothing. -/
def empty : TomlDocument := ⟨[], [], []⟩

/-- The document with one more header; the table must neither have been given before nor lie in a value. -/
def addHeader? (d : TomlDocument) (path : List String) : Option TomlDocument :=
  if d.headers.contains path || d.dotted.contains path || d.values.any (·.1.isPrefixOf path) then none
  else some { d with headers := d.headers ++ [path] }

/-- The document with one more value under the header of `table`.  There must be no value and no table in its place or
on the way to it, unless the table is one that only keys with points lead to. -/
def addValue? (d : TomlDocument) (table keys : List String) (v : TomlValue) : Option TomlDocument :=
  let path := table ++ keys
  let inner := innerPaths table keys
  if d.values.any (fun e => e.1.isPrefixOf path || path.isPrefixOf e.1)
      || d.headers.any fun h => (path :: inner).any (·.isPrefixOf h) then none
  else some { d with values := d.values ++ [(path, v)], dotted := d.dotted ++ inner }

/-- The document with what lines say, `table` being the one under whose header they stand. -/
def addLines? (d : TomlDocument) (table : List String) : List Toml.Line → Option TomlDocument
  | [] => some d
  | .blank :: rest => addLines? d table rest
  | .header path :: rest => d.addHeader? path >>= fun d => addLines? d path rest
  | .value keys v :: rest => d.addValue? table keys v >>= fun d => addLines? d table rest

/-- The document that a text says. -/
def parse? (text : String) : Option TomlDocument :=
  (Text.linesFrom [] text.toList).mapM Toml.readLine >>= empty.addLines? []

/-- The value under a path. -/
def value? (d : TomlDocument) (path : List String) : Option TomlValue := d.values.lookup path

/-- The names of what a table holds. -/
def names (d : TomlDocument) (path : List String) : List String :=
  List.eraseDups <| (d.headers ++ d.values.map Prod.fst).filterMap fun p =>
    if path.isPrefixOf p then p[path.length]? else none

/-- Under a path there is an array or a table that holds nothing. -/
def isVacant (d : TomlDocument) (path : List String) : Bool :=
  match d.value? path with
  | some (.array items) => items.isEmpty
  | some _ => false
  | none => (d.names path).isEmpty

/-- There is a table under a path. -/
def hasTable (d : TomlDocument) (path : List String) : Bool :=
  d.headers.any (path.isPrefixOf ·) || d.values.any fun e => path.isPrefixOf e.1 && path.length < e.1.length

end TomlDocument

end Reactive
