import Reactive.Declaration
import Reactive.Graph

/-!
# Reactive.Model — what is generated for a class

A `ClassModel` holds everything that generation needs to know about one class: its properties, which of them are
reactive, how derived values are computed and cached, the commands and the locale bindings.  Properties and derived
values are known by number.
-/

namespace Reactive

/-- What a property is in generated code. -/
inductive PropertyRole
  | plain
  /-- Its setter announces changes. -/
  | mutable
  | derived (id : DerivedId)
deriving DecidableEq, Repr

/-- A property of the class, declared or added. -/
structure PropertyInfo where
  name : String
  type : TypeRef
  hasSetter : Bool
  role : PropertyRole
  /-- Added for a derived method. -/
  synthesized : Bool
  accessibility : Option String
  span : Span
deriving DecidableEq, Repr

/-- The properties of a class, of distinct names; the number of a property is its index. -/
abbrev MemberTable := List PropertyInfo

namespace MemberTable

/-- The number of the property of a name. -/
def resolve? (t : MemberTable) (name : String) : Option PropertyId := t.findIdx? (·.name == name)

/-- The property of a name. -/
def find? (t : MemberTable) (name : String) : Option PropertyInfo := List.find? (·.name == name) t

/-- The table with another role for a property. -/
def setRole (t : MemberTable) (id : PropertyId) (role : PropertyRole) : MemberTable :=
  t.modify id fun info => { info with role := role }

end MemberTable

/-- A property with a generated slot and a setter that announces changes. -/
structure MutableProperty where
  id : PropertyId
  name : String
  type : TypeRef
  /-- A write announces a change even if the value stays the same. -/
  skipsEqualityCheck : Bool
  initializer : Option Expr
  slot : String
  span : Span
deriving Repr

/-- When a derived value is computed. -/
inductive CachePolicy
  /-- At every read. -/
  | disabled
  /-- On initialization and when a source changes. -/
  | eager
  /-- At the first read and when a source changes. -/
  | lazy
deriving DecidableEq, Repr

namespace CachePolicy

/-- The policy with a written name. -/
def ofName? : String → Option CachePolicy
  | "Disabled" => some disabled
  | "EagerAtInit" => some eager
  | "LazyOnFirstAccess" => some lazy
  | _ => none

/-- The written name of a policy. -/
def text : CachePolicy → String
  | disabled => "Disabled"
  | eager => "EagerAtInit"
  | lazy => "LazyOnFirstAccess"

/-- The value is kept. -/
def isCached (p : CachePolicy) : Bool := p ≠ disabled

end CachePolicy

/-- Where a derived value is declared. -/
inductive DerivedOrigin
  | property
  | method (name : String)
  /-- A getter that builds an observable helper. -/
  | observable
deriving DecidableEq, Repr

/-- How a derived value is computed. -/
inductive Recompute
  /-- By an expression of the instance. -/
  | inline (body : Expr)
  /-- By a hoisted function, given by its number. -/
  | hoisted (id : Nat)
  | method (name : String)
deriving Repr

/-- The fields of a cached value. -/
structure DerivedSlot where
  value : String
  /-- Whether a lazy value has been computed. -/
  flag : Option String
deriving DecidableEq, Repr

/-- A derived value. -/
structure DerivedProperty where
  property : PropertyId
  name : String
  type : TypeRef
  origin : DerivedOrigin
  /-- Without it the getter stays as it is written, and changes are only announced. -/
  recompute : Option Recompute
  cache : CachePolicy
  notifiesInitially : Bool
  slot : Option DerivedSlot
  sources : List PropertyId
  span : Span
deriving Repr

namespace DerivedProperty

/-- The getter is generated. -/
def replacesGetter (d : DerivedProperty) : Bool := d.recompute.isSome

/-- The value comes from an observable helper. -/
def isObservable (d : DerivedProperty) : Bool := d.origin = .observable

end DerivedProperty

/-- A function of the instance, given by the name that its body has for it. -/
structure StaticFunction where
  name : String
  param : String
  body : Expr
  returnType : TypeRef
deriving Repr

/-- A function that is hoisted out of the projection of a derived value. -/
structure HoistedFunction extends StaticFunction where
  owner : DerivedId
deriving Repr

/-- The property that says whether a command may run. -/
structure Enablement where
  property : PropertyId
  name : String
deriving DecidableEq, Repr

/-- A command of an annotated method. -/
structure CommandModel where
  method : String
  property : String
  slot : String
  argumentType : Option TypeRef
  /-- The type of the result, without the task around it; none if there is no result. -/
  returnType : Option TypeRef
  isAsync : Bool
  /-- Without it the command may always run. -/
  enablement : Option Enablement
  span : Span
deriving DecidableEq, Repr

/-- A localized property with the property that holds its key. -/
structure LocaleBinding where
  key : PropertyId
  keyName : String
  target : PropertyId
  targetName : String
  /-- The value stays when the key changes. -/
  retain : Bool
  span : Span
deriving DecidableEq, Repr

/-- The bindings of one locale object. -/
structure LocaleGrouping where
  /-- None for the common object. -/
  name : Option String
  bindings : List LocaleBinding
deriving DecidableEq, Repr

/-- The locale objects of one registry. -/
structure LocaleGroup where
  registry : String
  groupings : List LocaleGrouping
deriving DecidableEq, Repr

/-- A name with its type parameters. -/
def withTypeParams (name : String) (params : List String) : String :=
  if params.isEmpty then name else name ++ "<" ++ ", ".intercalate params ++ ">"

/-- A name in its namespace. -/
def qualify (space : Option String) (name : String) : String :=
  match space with
  | some s => s ++ "." ++ name
  | none => name

/-- The class that receives generated members. -/
structure ClassHeader where
  name : String
  namespaceName : Option String
  usings : List String
  typeParams : List String
  accessibility : Option String
  isAbstract : Bool
deriving DecidableEq, Repr

namespace ClassHeader

/-- The name with its type parameters. -/
def displayName (h : ClassHeader) : String := withTypeParams h.name h.typeParams

/-- The name in its namespace. -/
def fullName (h : ClassHeader) : String := qualify h.namespaceName h.displayName

end ClassHeader

/-- Everything that generation needs to know about a class. -/
structure ClassModel where
  header : ClassHeader
  /-- The base calls the init method. -/
  derivesExtensibleBase : Bool
  initMethod : String
  members : MemberTable
  mutableProperties : List MutableProperty
  /-- The derived values; their numbers are their indices. -/
  derived : List DerivedProperty
  graph : DependencyGraph
  statics : List HoistedFunction
  commands : List CommandModel
  localeGroups : List LocaleGroup
  /-- The hooks that the class implements. -/
  declaredHooks : List String
  span : Span
deriving Repr

namespace ClassModel

/-- The property that a derived value is exposed as. -/
def propertyOf (m : ClassModel) (id : DerivedId) : PropertyId :=
  (m.derived[id]?.map DerivedProperty.property).getD 0

/-- The derived values that a write to a property affects, in the order in which they are recomputed. -/
def propagation (m : ClassModel) (source : PropertyId) : List DerivedId :=
  m.graph.propagation m.propertyOf source

/-- The derived values among the sources of a derived value. -/
def derivedSources (m : ClassModel) (id : DerivedId) : List DerivedId :=
  ((m.derived[id]?.map DerivedProperty.sources).getD []).filterMap fun source =>
    match m.members[source]?.map PropertyInfo.role with
    | some (.derived d) => some d
    | _ => none

/-- The derived values in `order` and behind them those that `id` needs and itself, leaving out the ones in `order` and
those being visited. -/
def visitForInit (m : ClassModel) : Nat → List DerivedId → List DerivedId → DerivedId → List DerivedId
  | 0, _, order, _ => order
  | depth + 1, visiting, order, id =>
    if order.contains id || visiting.contains id then order
    else (m.derivedSources id).foldl (visitForInit m depth (id :: visiting)) order ++ [id]

/-- All derived values, each behind those that it is computed from. -/
def initializationOrder (m : ClassModel) : List DerivedId :=
  (List.range m.derived.length).foldl (m.visitForInit (m.derived.length + 1) []) []

/-- The class implements the hook. -/
def declaresHook (m : ClassModel) (hook : String) : Bool := m.declaredHooks.contains hook

end ClassModel

end Reactive
