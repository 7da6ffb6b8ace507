import Reactive.Declaration

/-!
# Reactive.Annotation — the annotations of reactive classes

Six attributes mean something to the analysis.  Each has constructors, whose parameters are bound by position, and
named parameters.  `Shape.bindPositional?` chooses the first constructor that accepts the arguments.
-/

namespace Reactive

/-- The kinds of annotations. -/
inductive AnnotationKind
  /-- A property whose setter announces changes. -/
  | reactive
  /-- A value that is derived from properties. -/
  | derived
  /-- A method that is exposed as a command. -/
  | command
  /-- A property whose value depends on the locale. -/
  | localized
  /-- A property whose changes are announced for others, too. -/
  | notifyFor
  /-- A property that follows an observable. -/
  | observable
deriving DecidableEq, Repr

namespace AnnotationKind

/-- The name of the attribute. -/
def text : AnnotationKind → String
  | reactive => "Reactive"
  | derived => "Derived"
  | command => "Command"
  | localized => "Localized"
  | notifyFor => "NotifyFor"
  | observable => "ObservableAsProperty"

/-- Every kind. -/
def all : List AnnotationKind := [reactive, derived, command, localized, notifyFor, observable]

/-- The kind of an attribute; what stands before the last point of its name does not count. -/
def ofName? (name : String) : Option AnnotationKind := all.find? (·.text == lastSegment name)

end AnnotationKind

/-- The type of a parameter. -/
inductive ParamType
  | bool
  | string
  /-- One of the constants of an enumeration, with the name of the enumeration before it. -/
  | oneOf (name : String) (constants : List String)
deriving DecidableEq, Repr

namespace ParamType

/-- How messages name the type. -/
def text : ParamType → String
  | bool => "bool"
  | string => "string"
  | oneOf name _ => name

/-- A path ends with an enumeration and one of its constants. -/
def endsWith (name : String) (constants : List String) (path : List String) : Bool :=
  match path.reverse with
  | constant :: enumeration :: _ => enumeration == name && constants.contains constant
  | _ => false

/-- The constant is of the type; null is a string. -/
def accepts : ParamType → Constant → Bool
  | bool, .bool _ => true
  | string, .string _ => true
  | string, .null => true
  | oneOf name constants, .path path => endsWith name constants path
  | _, _ => false

end ParamType

/-- How many arguments a parameter takes. -/
inductive Arity
  | required
  | optional
  /-- All arguments that are left. -/
  | variadic
deriving DecidableEq, Repr

/-- A parameter of an annotation. -/
structure Parameter where
  name : String
  type : ParamType
  arity : Arity
deriving DecidableEq, Repr

/-- The constructors of an annotation, in the order in which they are tried, and its named parameters. -/
structure Shape where
  constructors : List (List Parameter)
  named : List Parameter
deriving DecidableEq, Repr

/-- The modes of caching, as they are written. -/
def cacheMode : ParamType := .oneOf "CacheMode" ["Disabled", "EagerAtInit", "LazyOnFirstAccess"]

/-- The shape of each annotation. -/
def AnnotationKind.shape : AnnotationKind → Shape
  | reactive => ⟨[[], [⟨"Check", .bool, .required⟩]], [⟨"Check", .bool, .optional⟩]⟩
  | derived =>
    ⟨[[⟨"Sources", .string, .variadic⟩], [⟨"CacheMode", cacheMode, .required⟩, ⟨"Sources", .string, .variadic⟩]],
      [⟨"CacheMode", cacheMode, .optional⟩, ⟨"NotifyOnInitialValue", .bool, .optional⟩,
        ⟨"Property", .string, .optional⟩]⟩
  | command => ⟨[[]], [⟨"CanExecute", .string, .optional⟩]⟩
  | localized =>
    ⟨[[⟨"ResourceName", .string, .required⟩, ⟨"KeyPropertyName", .string, .required⟩,
        ⟨"ObjectName", .string, .optional⟩, ⟨"Retain", .bool, .optional⟩]],
      [⟨"ObjectName", .string, .optional⟩, ⟨"Retain", .bool, .optional⟩]⟩
  | notifyFor => ⟨[[⟨"Targets", .string, .variadic⟩]], []⟩
  | observable => ⟨[[]], []⟩

namespace Shape

/-- The greatest number of positional arguments, unless a constructor takes any number. -/
def maxPositional? (s : Shape) : Option Nat :=
  if s.constructors.any (·.any (·.arity = .variadic)) then none
  else some ((s.constructors.map List.length).foldl max 0)

/-- Arguments bound to parameters by position, if all of them are taken. -/
def bindTo? : List Parameter → List Constant → Option (List (String × Constant))
  | [], [] => some []
  | [], _ :: _ => none
  | p :: ps, values =>
    match p.arity, values with
    | .variadic, values => do
      guard (values.all p.type.accepts)
      return (p.name, .list values) :: (← bindTo? ps [])
    | .required, [] => none
    | .optional, [] => bindTo? ps []
    | _, v :: vs => do
      guard (p.type.accepts v)
      return (p.name, v) :: (← bindTo? ps vs)

/-- Arguments bound to the parameters of the first constructor that accepts them. -/
def bindPositional? (s : Shape) (values : List Constant) : Option (List (String × Constant)) :=
  s.constructors.findSome? (bindTo? · values)

/-- The named parameter of a name. -/
def named? (s : Shape) (name : String) : Option Parameter := s.named.find? (·.name == name)

end Shape

/-- An annotation of a member with its arguments under the names of their parameters. -/
structure Annotation where
  kind : AnnotationKind
  /-- The name of the member. -/
  target : String
  positional : List (String × Constant)
  named : List (String × Constant)
  span : Span
deriving Repr

namespace Annotation

/-- An argument by the name of its parameter; a named one wins. -/
def get? (a : Annotation) (name : String) : Option Constant :=
  (a.named.lookup name).or (a.positional.lookup name)

/-- A truth value, or the default. -/
def bool (a : Annotation) (name : String) (default : Bool) : Bool :=
  ((a.get? name).bind Constant.bool?).getD default

/-- A string that is not empty. -/
def string? (a : Annotation) (name : String) : Option String :=
  ((a.get? name).bind Constant.string?).filter (!·.isEmpty)

/-- Strings: the ones in a list, or a single one. -/
def strings (a : Annotation) (name : String) : List String :=
  match a.get? name with
  | some (.list items) => items.filterMap Constant.string?
  | some (.string s) => [s]
  | _ => []

/-- The last segment of a path. -/
def constant? (a : Annotation) (name : String) : Option String :=
  match a.get? name with
  | some (.path segments) => segments.getLast?
  | _ => none

end Annotation

end Reactive
