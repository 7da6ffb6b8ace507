import Reactive.Json

/-!
# Reactive.Json.Reader — reading JSON

`Json.parse?` reads one value with nothing but white space around it.  The grammar is the strict one: no leading
zeros, and no bare control characters in strings.  A string in which half of a pair of surrogates stands alone is well
formed, but has no text.
-/

namespace Reactive.Json

/-- White space between the parts of a value. -/
def isBlank (c : Char) : Bool := c = ' ' || c = '\n' || c = '\t' || c = '\r'

/-- The text behind white space. -/
def skipBlank (cs : List Char) : List Char := cs.dropWhile isBlank

/-! ### Strings -/

/-- The value of a hexadecimal digit. -/
def hexDigit? (c : Char) : Option Nat :=
  if '0' ≤ c ∧ c ≤ '9' then some (c.toNat - '0'.toNat)
  else if 'a' ≤ c ∧ c ≤ 'f' then some (c.toNat - 'a'.toNat + 10)
  else if 'A' ≤ c ∧ c ≤ 'F' then some (c.toNat - 'A'.toNat + 10)
  else none

/-- The number that four hexadecimal digits stand for. -/
def hexUnit? (a b c d : Char) : Option Nat := do
  let a ← hexDigit? a
  let b ← hexDigit? b
  let c ← hexDigit? c
  let d ← hexDigit? d
  return ((a * 16 + b) * 16 + c) * 16 + d

/-- The character that a backslash and a letter stand for. -/
def simpleEscape? : Char → Option Char
  | '"' => some '"'
  | '\\' => some '\\'
  | '/' => some '/'
  | 'b' => some '\x08'
  | 'f' => some '\x0c'
  | 'n' => some '\n'
  | 'r' => some '\r'
  | 't' => some '\t'
  | _ => none

/-- The character of a unit that stands alone, or of two units that are a pair of surrogates. -/
def pairChar? (high low : Nat) : Option Char :=
  if 0xD800 ≤ high ∧ high < 0xDC00 ∧ 0xDC00 ≤ low ∧ low < 0xE000 then
    some (Char.ofNat (0x10000 + (high - 0xD800) * 0x400 + (low - 0xDC00)))
  else none

/-- The characters of a string whose opening quote has been read, and the text behind its closing quote. -/
def readString : List Char → Option (List Char × List Char)
  | [] => none
  | '\\' :: 'u' :: a :: b :: c :: d :: cs => do
    let unit ← hexUnit? a b c d
    if 0xD800 ≤ unit ∧ unit < 0xE000 then
      match cs with
      | '\\' :: 'u' :: a' :: b' :: c' :: d' :: cs => do
        let char ← pairChar? unit (← hexUnit? a' b' c' d')
        let (s, rest) ← readString cs
        return (char :: s, rest)
      | _ => none
    else do
      let (s, rest) ← readString cs
      return (Char.ofNat unit :: s, rest)
  | '\\' :: c :: cs => do
    let char ← simpleEscape? c
    let (s, rest) ← readString cs
    return (char :: s, rest)
  | c :: cs =>
    if c = '"' then some ([], cs)
    else if c = '\\' || c.toNat < 32 then none
    else do
      let (s, rest) ← readString cs
      return (c :: s, rest)

/-- A quote that nothing escapes ends the string. -/
theorem readString_quote (cs : List Char) : readString ('"' :: cs) = some ([], cs) := by
  rw [readString, if_pos rfl] <;> simp

/-- The text behind the closing quote of a string whose opening quote has been read, whatever its units stand for. -/
def skipString : List Char → Option (List Char)
  | [] => none
  | '\\' :: 'u' :: a :: b :: c :: d :: cs => if (hexUnit? a b c d).isSome then skipString cs else none
  | '\\' :: c :: cs => if (simpleEscape? c).isSome then skipString cs else none
  | c :: cs => if c = '"' then some cs else if c = '\\' || c.toNat < 32 then none else skipString cs

/-- A string whose opening quote has been read, if it has a text, and what stands behind its closing quote. -/
def readText (cs : List Char) : Option (Option String × List Char) :=
  match readString cs with
  | some (s, rest) => some (some (String.ofList s), rest)
  | none => (skipString cs).map fun rest => (none, rest)

/-! ### Numbers -/

/-- A run of digits, at least one, and the text behind it. -/
def readDigits (cs : List Char) : Option (List Char × List Char) :=
  match cs.takeWhile Char.isDigit with
  | [] => none
  | ds => some (ds, cs.dropWhile Char.isDigit)

/-- The digits before the point: a zero alone, or digits that do not begin with one. -/
def readWhole (cs : List Char) : Option (List Char × List Char) := do
  let (ds, rest) ← readDigits cs
  if ds.head? = some '0' && ds.length > 1 then none else return (ds, rest)

/-- A point and digits, if there is a point. -/
def readFraction : List Char → Option (List Char × List Char)
  | '.' :: cs => do
    let (ds, rest) ← readDigits cs
    return ('.' :: ds, rest)
  | cs => some ([], cs)

/-- A mark, a sign and digits, if there is a mark. -/
def readExponent : List Char → Option (List Char × List Char)
  | c :: cs =>
    if c = 'e' || c = 'E' then do
      let (sign, cs) := match cs with
        | '+' :: cs => (['+'], cs)
        | '-' :: cs => (['-'], cs)
        | cs => ([], cs)
      let (ds, rest) ← readDigits cs
      return (c :: sign ++ ds, rest)
    else some ([], c :: cs)
  | [] => some ([], [])

/-- The text of a number, and the text behind it. -/
def readNumber (cs : List Char) : Option (List Char × List Char) := do
  let (sign, cs) := match cs with
    | '-' :: cs => (['-'], cs)
    | cs => ([], cs)
  let (whole, cs) ← readWhole cs
  let (fraction, cs) ← readFraction cs
  let (exponent, cs) ← readExponent cs
  return (sign ++ whole ++ fraction ++ exponent, cs)

/-! ### Values -/

/-- The text behind a word that has to come next. -/
def readWord (word : List Char) (cs : List Char) : Option (List Char) :=
  if cs.take word.length = word then some (cs.drop word.length) else none

/-- The items of an array up to its closing bracket; at least one has to follow, and there are at most `fuel`. -/
def readItems (value : List Char → Option (Json × List Char)) : Nat → List Char → Option (List Json × List Char)
  | 0, _ => none
  | fuel + 1, cs => do
    let (item, cs) ← value cs
    match skipBlank cs with
    | ',' :: cs => do
      let (items, rest) ← readItems value fuel cs
      return (item :: items, rest)
    | ']' :: rest => some ([item], rest)
    | _ => none

/-- The fields of an object up to its closing brace; at least one has to follow, and there are at most `fuel`. -/
def readFields (value : List Char → Option (Json × List Char)) :
    Nat → List Char → Option (List (Option String × Json) × List Char)
  | 0, _ => none
  | fuel + 1, cs =>
    match skipBlank cs with
    | '"' :: cs => do
      let (name, cs) ← readText cs
      match skipBlank cs with
      | ':' :: cs => do
        let (item, cs) ← value cs
        match skipBlank cs with
        | ',' :: cs => do
          let (fields, rest) ← readFields value fuel cs
          return ((name, item) :: fields, rest)
        | '\x7d' :: rest => some ([(name, item)], rest)
        | _ => none
      | _ => none
    | _ => none

/-- The object of fields, if all their names have a text. -/
def ofFields (fields : List (Option String × Json)) : Json :=
  match fields.mapM fun f => f.1.map (·, f.2) with
  | some fields => .object fields
  | none => .textless

/-- A value with white space before it, and the text behind; the value has at most `fuel` levels. -/
def readValue : Nat → List Char → Option (Json × List Char)
  | 0, _ => none
  | fuel + 1, cs =>
    match skipBlank cs with
    | [] => none
    | '"' :: cs => (readText cs).map fun (text, rest) => (text.elim .textless .string, rest)
    | '[' :: cs =>
      match skipBlank cs with
      | ']' :: rest => some (.array [], rest)
      | _ => (readItems (readValue fuel) cs.length cs).map fun (items, rest) => (.array items, rest)
    | '\x7b' :: cs =>
      match skipBlank cs with
      | '\x7d' :: rest => some (.object [], rest)
      | _ => (readFields (readValue fuel) cs.length cs).map fun (fields, rest) => (ofFields fields, rest)
    | 't' :: cs => (readWord "rue".toList cs).map (.bool true, ·)
    | 'f' :: cs => (readWord "alse".toList cs).map (.bool false, ·)
    | 'n' :: cs => (readWord "ull".toList cs).map (.null, ·)
    | cs => (readNumber cs).map fun (text, rest) => (.number (String.ofList text), rest)

/-- The value that a whole text stands for. -/
def parse? (text : String) : Option Json :=
  let cs := text.toList
  match readValue (cs.length + 1) cs with
  | some (j, rest) => if skipBlank rest = [] then some j else none
  | none => none

end Reactive.Json
