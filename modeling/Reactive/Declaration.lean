import Reactive.Expr
import Reactive.TypeRef

/-!
# Reactive.Declaration — class declarations

What a declaration file says: its `using` directives, its namespace, and classes with properties and methods, each
under its attributes and modifiers.  A `DeclarationSet` is a file together with the conventions that tell reactive
classes from others.
-/

namespace Reactive

/-- A modifier of a class or a member. -/
inductive Modifier
  | public_ | private_ | protected_ | internal | partial_ | abstract | sealed | static | async | virtual
  | override | readonly
deriving DecidableEq, Repr

namespace Modifier

/-- The spelling of a modifier. -/
def text : Modifier → String
  | public_ => "public"
  | private_ => "private"
  | protected_ => "protected"
  | internal => "internal"
  | partial_ => "partial"
  | abstract => "abstract"
  | sealed => "sealed"
  | static => "static"
  | async => "async"
  | virtual => "virtual"
  | override => "override"
  | readonly => "readonly"

/-- The modifiers that are spelled by contextual words; `static` is a keyword. -/
def contextual : List Modifier :=
  [public_, private_, protected_, internal, partial_, abstract, sealed, async, virtual, override, readonly]

/-- The modifier that a contextual word spells. -/
def ofWord? (word : String) : Option Modifier := contextual.find? (·.text == word)

/-- The modifier says who may see the member. -/
def isAccessibility : Modifier → Bool
  | public_ | private_ | protected_ | internal => true
  | _ => false

end Modifier

/-- The constant value of an attribute argument. -/
inductive Constant
  | null
  | bool (value : Bool)
  | int (value : Int64)
  | float (value : Double)
  | string (value : String)
  | path (segments : List String)
  | list (items : List Constant)
deriving Repr, Inhabited

namespace Constant

mutual

/-- How a message shows a constant; a string stands in quotes as it is. -/
def text : Constant → String
  | null => "null"
  | bool b => if b then "true" else "false"
  | int i => toString i.toInt
  | float x => x.plainText
  | string s => "\"" ++ s ++ "\""
  | path segments => ".".intercalate segments
  | list items => "[" ++ textItems items ++ "]"

/-- Constants with commas between them. -/
def textItems : List Constant → String
  | [] => ""
  | [c] => text c
  | c :: cs => text c ++ ", " ++ textItems cs

end

/-- The truth value, if it is one. -/
def bool? : Constant → Option Bool
  | bool b => some b
  | _ => none

/-- The string, if it is one. -/
def string? : Constant → Option String
  | string s => some s
  | _ => none

end Constant

/-- An argument of an attribute, with its name if it has one. -/
structure AttributeArg where
  name : Option String
  value : Constant
  span : Span
deriving Repr, Inhabited

/-- An attribute on a member. -/
structure Attribute where
  name : String
  args : List AttributeArg
  span : Span
deriving Repr, Inhabited

/-- A `get` or `set` accessor; without a body it is automatic. -/
structure Accessor where
  body : Option Expr
  span : Span
deriving Repr, Inhabited

/-- What is declared of a property. -/
structure PropertyDecl where
  type : TypeRef
  getter : Option Accessor
  setter : Option Accessor
  initializer : Option Expr
deriving Repr, Inhabited

/-- The expression of the getter, if it has one. -/
def PropertyDecl.getterBody? (p : PropertyDecl) : Option Expr := p.getter.bind (·.body)

/-- A parameter of a method. -/
structure Param where
  name : String
  type : TypeRef
  span : Span
deriving Repr, Inhabited

/-- What is declared of a method; without a body it is implemented elsewhere. -/
structure MethodDecl where
  returnType : TypeRef
  params : List Param
  body : Option Expr
deriving Repr, Inhabited

/-- What kind of member it is. -/
inductive MemberKind
  | property (decl : PropertyDecl)
  | method (decl : MethodDecl)
deriving Repr, Inhabited

/-- A member of a class. -/
structure MemberDecl where
  name : String
  attributes : List Attribute
  modifiers : List Modifier
  kind : MemberKind
  nameSpan : Span
  span : Span
deriving Repr, Inhabited

namespace MemberDecl

/-- The property, if the member is one. -/
def property? (m : MemberDecl) : Option PropertyDecl :=
  match m.kind with
  | .property p => some p
  | .method _ => none

/-- The method, if the member is one. -/
def method? (m : MemberDecl) : Option MethodDecl :=
  match m.kind with
  | .property _ => none
  | .method d => some d

end MemberDecl

/-- A class declaration. -/
structure ClassDecl where
  name : String
  typeParams : List String
  modifiers : List Modifier
  bases : List TypeRef
  members : List MemberDecl
  nameSpan : Span
  span : Span
deriving Repr, Inhabited

namespace ClassDecl

/-- Some entry of the base list has the unqualified name. -/
def derivesFrom (c : ClassDecl) (name : String) : Bool := c.bases.any (·.baseName == name)

/-- The first member of a name. -/
def member? (c : ClassDecl) (name : String) : Option MemberDecl := c.members.find? (·.name == name)

/-- The name with its type parameters. -/
def displayName (c : ClassDecl) : String :=
  if c.typeParams.isEmpty then c.name else c.name ++ "<" ++ ", ".intercalate c.typeParams ++ ">"

end ClassDecl

/-- A declaration file. -/
structure SourceFile where
  usings : List String
  namespaceName : Option String
  classes : List ClassDecl
deriving Repr, Inhabited

/-- The names that tell reactive classes from others. -/
structure Conventions where
  /-- The interface that marks a class as reactive. -/
  interface : String
  /-- The base class that calls the init method on construction. -/
  extensibleBase : String
  /-- The generated method that completes the construction. -/
  initMethod : String
deriving DecidableEq, Repr

instance : Inhabited Conventions := ⟨"IReactiveObject", "ReactiveObjectBase", "InitializeReactiveObject"⟩

/-- A parsed file with its name, its text and the conventions in force. -/
structure DeclarationSet where
  sourceName : String
  sourceText : String
  file : SourceFile
  conventions : Conventions
deriving Repr, Inhabited

namespace DeclarationSet

/-- The last class of a name. -/
def class? (s : DeclarationSet) (name : String) : Option ClassDecl :=
  s.file.classes.reverse.find? (·.name == name)

/-- The class is marked as reactive, by the interface or by the base that implements it. -/
def isReactive (s : DeclarationSet) (c : ClassDecl) : Bool :=
  c.derivesFrom s.conventions.interface || c.derivesFrom s.conventions.extensibleBase

/-- The base of the class calls the init method. -/
def derivesExtensibleBase (s : DeclarationSet) (c : ClassDecl) : Bool :=
  c.derivesFrom s.conventions.extensibleBase

end DeclarationSet

end Reactive
