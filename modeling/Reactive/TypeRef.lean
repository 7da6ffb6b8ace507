/-!
# Reactive.TypeRef — references to types

A type is named by a dotted name, may have type arguments and may be nullable.  Types are compared and handed on as
texts; `TypeRef.text` is the one spelling of a type.
-/

namespace Reactive

/-- A type as it is named in a declaration. -/
structure TypeRef where
  /-- The dotted name. -/
  name : String
  /-- The type arguments. -/
  args : List TypeRef
  /-- A question mark follows. -/
  nullable : Bool
deriving Repr, Inhabited

/-- The segments of a dotted name. -/
def segments (name : String) : List String :=
  (name.toList.splitOn '.').map String.ofList

/-- The last segment of a dotted name. -/
def lastSegment (name : String) : String :=
  (segments name).getLast?.getD ""

namespace TypeRef

mutual

private def decEq : (a b : TypeRef) → Decidable (a = b)
  | ⟨n, as, q⟩, ⟨m, bs, r⟩ =>
    match decEqList as bs with
    | isTrue h =>
      if hn : n = m ∧ q = r then isTrue (by rw [h, hn.1, hn.2])
      else isFalse fun e => hn (by cases e; exact ⟨rfl, rfl⟩)
    | isFalse h => isFalse fun e => h (by cases e; rfl)

private def decEqList : (as bs : List TypeRef) → Decidable (as = bs)
  | [], [] => isTrue rfl
  | [], _ :: _ => isFalse nofun
  | _ :: _, [] => isFalse nofun
  | a :: as, b :: bs =>
    match decEq a b, decEqList as bs with
    | isTrue h, isTrue h' => isTrue (by rw [h, h'])
    | isFalse h, _ => isFalse fun e => h (by cases e; rfl)
    | _, isFalse h => isFalse fun e => h (by cases e; rfl)

end

instance : DecidableEq TypeRef := decEq

mutual

/-- The spelling of a type. -/
def text : TypeRef → String
  | ⟨name, args, nullable⟩ => name ++ textArgs args ++ if nullable then "?" else ""

/-- The spelling of type arguments with their brackets. -/
def textArgs : List TypeRef → String
  | [] => ""
  | t :: ts => "<" ++ text t ++ textRest ts

/-- The spelling of further type arguments and the closing bracket. -/
def textRest : List TypeRef → String
  | [] => ">"
  | t :: ts => ", " ++ text t ++ textRest ts

end

/-- The last segment of the name. -/
def baseName (t : TypeRef) : String := lastSegment t.name

/-- The type is `void`. -/
def isVoid (t : TypeRef) : Bool := t.name == "void"

/-- The type is the truth values, and not nullable. -/
def isBool (t : TypeRef) : Bool :=
  !t.nullable && (t.name == "bool" || t.name == "Boolean" || t.name == "System.Boolean")

end TypeRef

end Reactive
