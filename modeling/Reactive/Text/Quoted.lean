import Reactive.Text.Printable

/-!
# Reactive.Text.Quoted — string literals

Two written forms of a string.  In a class declaration a backslash takes the next character out of its role, with four
letters of its own: `escape` writes this form and `unescape` reads it.  A listing escapes also every character that
is not printable, by its code point in hexadecimal.
-/

namespace Reactive.Text

/-! ### Literals of a declaration -/

/-- One character of a literal. -/
def escapeChar (c : Char) : List Char :=
  if c = '"' then ['\\', '"']
  else if c = '\\' then ['\\', '\\']
  else if c = '\n' then ['\\', 'n']
  else if c = '\r' then ['\\', 'r']
  else if c = '\t' then ['\\', 't']
  else if c = '\x00' then ['\\', '0']
  else [c]

/-- The inside of the literal that stands for the text. -/
def escape (cs : List Char) : List Char := cs.flatMap escapeChar

/-- The character that a backslash and `c` stand for. -/
def escaped (c : Char) : Char :=
  if c = 'n' then '\n' else if c = 'r' then '\r' else if c = 't' then '\t' else if c = '0' then '\x00' else c

/-- The text that the inside of a literal stands for. -/
def unescape : List Char → List Char
  | [] => []
  | '\\' :: c :: cs => escaped c :: unescape cs
  | c :: cs => if c = '\\' then [] else c :: unescape cs

/-- The text as a literal of a declaration. -/
def quoted (s : String) : String :=
  "\"" ++ String.ofList (escape s.toList) ++ "\""

theorem unescape_escape (cs : List Char) : unescape (escape cs) = cs := by
  induction cs with
  | nil => rfl
  | cons c cs ih =>
    unfold escape at ih ⊢
    simp only [List.flatMap_cons, escapeChar]
    repeat' split
    all_goals simp_all [unescape, escaped]

/-! ### Literals of a listing -/

/-- A code point in hexadecimal between braces. -/
def unicodeEscape (c : Char) : List Char :=
  ['\\', 'u', '\x7b'] ++ Nat.toDigits 16 c.toNat ++ ['\x7d']

/-- One character of a listed literal. -/
def listedChar (c : Char) : List Char :=
  if c = '"' || c = '\\' || c = '\n' || c = '\r' || c = '\t' || c = '\x00' then escapeChar c
  else if isPrintable c then [c]
  else unicodeEscape c

/-- The text as a literal of a listing. -/
def listed (s : String) : String :=
  "\"" ++ String.ofList (s.toList.flatMap listedChar) ++ "\""

end Reactive.Text
