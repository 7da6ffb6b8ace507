import Reactive.Files

/-!
# Reactive.PathPattern — choosing files by patterns

In a part of a path `?` stands for one character, `*` for any number of them and brackets for one of some characters,
or for none of them behind an exclamation mark.  A part `**` stands for any number of folders.  A pattern without any of
these is a path, and the file has to be there.
-/

namespace Reactive

/-- What stands for characters of a name. -/
inductive Glyph
  | char (c : Char)
  | any
  | many
  /-- A character of one of the ranges, or of none of them. -/
  | oneOf (negated : Bool) (ranges : List (Char × Char))
deriving DecidableEq, Repr

namespace Glyph

/-- The ranges between brackets. -/
def ranges : List Char → List (Char × Char)
  | a :: '-' :: b :: rest => (a, b) :: ranges rest
  | a :: rest => (a, a) :: ranges rest
  | [] => []

/-- The characters up to the next closing bracket, of which the first one is no end, and those behind it. -/
def bracket? (cs : List Char) : Option (List Char × List Char) :=
  match cs with
  | [] => none
  | a :: rest =>
    match rest.dropWhile (· ≠ ']') with
    | [] => none
    | _ :: behind => some (a :: rest.takeWhile (· ≠ ']'), behind)

/-- Brackets, what is before having been read, and what follows them. -/
def class? (cs : List Char) : Option (Glyph × List Char) :=
  match cs with
  | '!' :: rest => (bracket? rest).map fun (inside, behind) => (.oneOf true (ranges inside), behind)
  | _ => (bracket? cs).map fun (inside, behind) => (.oneOf false (ranges inside), behind)

/-- The glyphs of a part of a path; at most `fuel` are read. -/
def read? : Nat → List Char → Option (List Glyph)
  | _, [] => some []
  | 0, _ => none
  | fuel + 1, '?' :: cs => (read? fuel cs).map (any :: ·)
  | _, '*' :: '*' :: _ => none
  | fuel + 1, '*' :: cs => (read? fuel cs).map (many :: ·)
  | fuel + 1, '[' :: cs => do
    let (glyph, rest) ← class? cs
    return glyph :: (← read? fuel rest)
  | fuel + 1, c :: cs => (read? fuel cs).map (char c :: ·)

/-- The glyph stands for the character. -/
def accepts : Glyph → Char → Bool
  | char a, c => a = c
  | oneOf negated ranges, c => negated != ranges.any fun r => r.1 ≤ c && c ≤ r.2
  | _, _ => true

/-- The glyphs stand for the characters. -/
def acceptAll : List Glyph → List Char → Bool
  | [], cs => cs.isEmpty
  | many :: gs, [] => acceptAll gs []
  | many :: gs, c :: cs => acceptAll gs (c :: cs) || acceptAll (many :: gs) cs
  | _ :: _, [] => false
  | g :: gs, c :: cs => g.accepts c && acceptAll gs cs
termination_by gs cs => gs.length + cs.length

end Glyph

/-- A part of a pattern. -/
inductive PatternPart
  | literal (name : String)
  | glyphs (gs : List Glyph)
  /-- Any number of folders. -/
  | anyDepth
deriving DecidableEq, Repr

namespace PathPattern

/-- The characters that make a path a pattern. -/
def isSpecial (c : Char) : Bool := c = '*' || c = '?' || c = '['

/-- The part of a pattern that is written so. -/
def part? (text : String) : Option PatternPart :=
  if text = "**" then some .anyDepth
  else if text.toList.any isSpecial then (Glyph.read? text.length text.toList).map .glyphs
  else some (.literal text)

/-- The parts of a pattern, without an empty one at the end. -/
def parts? (pattern : String) : Option (List PatternPart) :=
  let texts := Path.split pattern
  (if texts.getLast? = some "" then texts.dropLast else texts).mapM part?

section

variable (files : Files)

/-- The files in a folder that the last part of a pattern names. -/
def lastNames (way : List String) : PatternPart → List String
  | .literal name => (files.fileNames way).filter (· = name)
  | .glyphs gs => (files.fileNames way).filter fun name => Glyph.acceptAll gs name.toList
  | .anyDepth => []

/-- The folders in a folder that a part of a pattern names. -/
def innerNames (way : List String) : PatternPart → List String
  | .literal name => (files.folderNames way).filter (· = name)
  | .glyphs gs => (files.folderNames way).filter fun name => Glyph.acceptAll gs name.toList
  | .anyDepth => []

/-- Where a step leads from the folder at `way`, whose path is `shown`: to itself, or to the folder above. -/
def step? (shown : String) (way : List String) (name : String) : Option (String × List String) :=
  if name = "." then some (if shown.isEmpty then shown else Path.join shown ".", way)
  else if name = ".." && !way.isEmpty then some (Path.join shown "..", way.dropLast)
  else none

/-- The steps that glyphs stand for; they have to begin with a point. -/
def steps : PatternPart → List String
  | .glyphs (.char '.' :: gs) => [".", ".."].filter fun name => Glyph.acceptAll (.char '.' :: gs) name.toList
  | _ => []

/-- Where a part of a pattern leads from a folder; behind any number of folders it leads to entries only. -/
def branches (behindAny : Bool) (shown : String) (way : List String) (part : PatternPart) :
    List (String × List String) :=
  match part with
  | .literal "" => if behindAny || shown.isEmpty then [] else [(shown, way)]
  | .literal "." => if behindAny then [] else (step? shown way ".").toList
  | .literal ".." => if behindAny then [] else (step? shown way "..").toList
  | part =>
    (innerNames files way part).map (fun name => (Path.join shown name, way ++ [name]))
      ++ if behindAny then [] else (steps part).filterMap (step? shown way)

/-- The paths of the files below a folder that a pattern names; `shown` is the path of the folder. -/
def walk (behindAny : Bool) (shown : String) (way : List String) : List PatternPart → List String
  | [] => []
  | [last] => (lastNames files way last).map (Path.join shown)
  | .anyDepth :: rest =>
    (files.foldersBelow way).flatMap fun below => walk true (below.foldl Path.join shown) (way ++ below) rest
  | part :: rest => (branches files behindAny shown way part).flatMap fun (shown, way) => walk false shown way rest

/-- The paths of the files that a pattern names; none if the pattern is not well formed. -/
def matches? (pattern : String) : Option (List String) := do
  let parts ← parts? pattern
  if pattern.toList.head? = some '/' || pattern.toList.getLast? = some '/' then return []
  return walk files false "" [] parts

end

end PathPattern

/-- Why inputs are not found. -/
inductive InputError
  | missing (path : String)
  | invalidPattern (pattern : String)
deriving DecidableEq, Repr

/-- The wording of the error. -/
def InputError.message : InputError → String
  | missing path => "input '" ++ path ++ "' does not exist"
  | invalidPattern pattern => "invalid glob pattern '" ++ pattern ++ "'"

namespace Files

/-- The files that one pattern names. -/
def select (f : Files) (pattern : String) : Except InputError (List String) :=
  if pattern.toList.any PathPattern.isSpecial then
    match PathPattern.matches? f pattern with
    | some paths => .ok paths
    | none => .error (.invalidPattern pattern)
  else if f.isFile pattern then .ok [pattern]
  else .error (.missing pattern)

/-- The files that patterns name, in order, each once. -/
def discover (f : Files) (patterns : List String) : Except InputError (List String) :=
  (patterns.mapM f.select).map fun found => Path.sorted found.flatten

end Files

end Reactive
