import Reactive.Path

/-!
# Reactive.Files — the files below a folder

Files hold text and are known by the names on their way from the folder.  A folder is there if some file is below it.
What lies outside is not seen.
-/

namespace Reactive

/-- Files below a folder, each with the names on its way and its text. -/
structure Files where
  entries : List (List String × String)
deriving DecidableEq, Repr, Inhabited

namespace Files

/-- The text of a file. -/
def text? (f : Files) (way : List String) : Option String := f.entries.lookup way

/-- There is a folder. -/
def isFolder (f : Files) (way : List String) : Bool :=
  way.isEmpty || f.entries.any fun e => way.isPrefixOf e.1 && way.length < e.1.length

/-- The entries with a text for a file. -/
def putIn (way : List String) (text : String) : List (List String × String) → List (List String × String)
  | [] => [(way, text)]
  | e :: rest => if e.1 = way then (way, text) :: rest else e :: putIn way text rest

/-- The files with a text for one of them. -/
def put (f : Files) (way : List String) (text : String) : Files := ⟨putIn way text f.entries⟩

/-! ### Following paths -/

/-- The way that parts of a path lead, `way` being gone already; a step back needs a folder to step back from, and
nothing leads outside. -/
def follow (f : Files) (way : List String) : List PathPart → Option (List String)
  | [] => some way
  | .root :: _ => none
  | .here :: rest => follow f way rest
  | .parent :: rest => if way.isEmpty || !f.isFolder way then none else follow f way.dropLast rest
  | .name s :: rest => follow f (way ++ [s]) rest

/-- The path asks for a folder by how it ends. -/
def endsAsFolder (path : String) : Bool :=
  match (Path.split path).getLast? with
  | some last => last == "" || last == "." || last == ".."
  | none => true

/-- The way to the file that a path names. -/
def locate? (f : Files) (path : String) : Option (List String) :=
  if endsAsFolder path then none
  else (f.follow [] (Path.parts path)).filter fun way => (f.text? way).isSome

/-- There is a file at a path. -/
def isFile (f : Files) (path : String) : Bool := (f.locate? path).isSome

/-- The text of the file at a path. -/
def read? (f : Files) (path : String) : Option String := f.locate? path >>= f.text?

/-- There is a file or a folder at a path. -/
def isThere (f : Files) (path : String) : Bool :=
  f.isFile path || ((f.follow [] (Path.parts path)).map f.isFolder).getD false

/-- The files of a list of paths with texts. -/
def ofList (entries : List (String × String)) : Files :=
  entries.foldl (fun f e => f.put ((Path.split e.1).filter fun s => s ≠ "" && s ≠ ".") e.2) ⟨[]⟩

/-- The paths of all files with their texts. -/
def toList (f : Files) : List (String × String) := f.entries.map fun e => ("/".intercalate e.1, e.2)

/-! ### Writing -/

/-- A list of names and all that it begins with. -/
def beginnings : List String → List (List String)
  | [] => [[]]
  | a :: as => [] :: (beginnings as).map (a :: ·)

/-- The way to a folder that is to be there; none if it leads outside. -/
def wayTo (way : List String) : List PathPart → Option (List String)
  | [] => some way
  | .root :: _ => none
  | .here :: rest => wayTo way rest
  | .parent :: rest => if way.isEmpty then none else wayTo way.dropLast rest
  | .name s :: rest => wayTo (way ++ [s]) rest

/-- The way to a folder that is there or can be made: no file stands in it. -/
def folder? (f : Files) (path : String) : Option (List String) :=
  (wayTo [] (Path.parts path)).filter fun way => (beginnings way).all fun p => (f.text? p).isNone

/-- The files with a text in a folder; none if a folder has the name. -/
def write? (f : Files) (folder : List String) (name text : String) : Option Files :=
  let way := folder ++ Path.split name
  if f.isFolder way then none else some (f.put way text)

/-! ### Listing a folder -/

/-- The names of the files in a folder. -/
def fileNames (f : Files) (way : List String) : List String :=
  f.entries.filterMap fun e =>
    match e.1.drop way.length with
    | [name] => if way.isPrefixOf e.1 then some name else none
    | _ => none

/-- The names of the folders in a folder. -/
def folderNames (f : Files) (way : List String) : List String :=
  List.eraseDups <| f.entries.filterMap fun e =>
    match e.1.drop way.length with
    | name :: _ :: _ => if way.isPrefixOf e.1 then some name else none
    | _ => none

/-- The ways from a folder to itself and to all folders below it. -/
def foldersBelow (f : Files) (way : List String) : List (List String) :=
  List.eraseDups <| [] :: f.entries.flatMap fun e =>
    if way.isPrefixOf e.1 then beginnings (e.1.drop way.length).dropLast else []

end Files

end Reactive
