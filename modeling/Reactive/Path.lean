/-!
# Reactive.Path — paths as they are written

Paths are compared by their parts, not by their letters: empty parts and points inside a path say nothing, and `a/b`
comes before `a-b/c` because `a` comes before `a-b`.
-/

namespace Reactive

/-- A part of a path. -/
inductive PathPart
  | root
  /-- A point at the start. -/
  | here
  | parent
  | name (text : String)
deriving DecidableEq, Repr

namespace PathPart

/-- The kinds of parts, in their order. -/
def rank : PathPart → Nat
  | root => 0
  | here => 1
  | parent => 2
  | name _ => 3

/-- The order of parts. -/
def before (a b : PathPart) : Bool :=
  match a, b with
  | name s, name t => s < t
  | _, _ => a.rank < b.rank

end PathPart

namespace Path

/-- The texts between slashes. -/
def split (path : String) : List String := (path.toList.splitOn '/').map String.ofList

/-- The part that stands behind the start of a path; empty parts and points say nothing. -/
def innerPart? : String → Option PathPart
  | "" => none
  | "." => none
  | ".." => some .parent
  | s => some (.name s)

/-- The parts of a path. -/
def parts (path : String) : List PathPart :=
  match split path with
  | "" :: rest => (if rest.isEmpty then [] else [.root]) ++ rest.filterMap innerPart?
  | "." :: rest => .here :: rest.filterMap innerPart?
  | segments => segments.filterMap innerPart?

/-- The order of paths: the first part that differs decides, and a path comes before the paths below it. -/
def before : List PathPart → List PathPart → Bool
  | [], _ :: _ => true
  | _, [] => false
  | a :: as, b :: bs => if a = b then before as bs else a.before b

/-- Paths in order, each once. -/
def sorted (paths : List String) : List String :=
  dedup (paths.mergeSort fun a b => !before (parts b) (parts a))
where
  /-- The list without the paths that equal the one before them. -/
  dedup : List String → List String
    | a :: b :: rest => if parts a = parts b then dedup (a :: rest) else a :: dedup (b :: rest)
    | short => short
  termination_by paths => paths.length

/-- A path below another one; below the empty path it stands alone. -/
def join (folder name : String) : String :=
  if folder.isEmpty then name
  else if folder.toList.getLast? = some '/' then folder ++ name
  else folder ++ "/" ++ name

end Path

end Reactive
