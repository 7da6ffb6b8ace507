import Reactive.Model
import Reactive.Naming
import Reactive.Patch.Module

/-!
# Reactive.Fragment — generated members before they are written

What is generated for a class, in terms of its own slots, properties, hooks and commands.  A `GeneratedMember` is a
whole member; `GeneratedMember.fragments` takes it apart into the pieces that a back-end receives one by one, and a
back-end decides how a slot is stored and how a change is announced.
-/

namespace Reactive

/-- A value that a statement reads. -/
inductive Operand
  /-- The parameter `value`. -/
  | argument
  /-- A field of the instance. -/
  | slot (name : String)
  /-- An expression of the instance. -/
  | expression (body : Expr)
  /-- A hoisted function, applied to the instance. -/
  | application (function : String)
  /-- The result of a method without parameters. -/
  | method (name : String)
  | bool (value : Bool)
  /-- The value of the observable helper in a slot; while the slot is empty, the default of the type. -/
  | helperValue (slot : String) (type : TypeRef)
deriving Repr, Inhabited

/-- How a command is constructed at its first use. -/
structure CommandFactory where
  method : String
  argumentType : Option TypeRef
  returnType : Option TypeRef
  isAsync : Bool
  /-- The property that says whether the command may run. -/
  enablement : Option String
deriving DecidableEq, Repr, Inhabited

/-- A statement of a generated method. -/
inductive Statement
  /-- Return if `value` equals the slot. -/
  | returnIfUnchanged (slot : String)
  /-- Keep the slot as `oldValue`. -/
  | captureOld (slot : String)
  | raiseChanging (property : String)
  | raiseChanged (property : String)
  /-- Call a change hook with `oldValue` and `value`. -/
  | callHook (hook : String)
  /-- Store `value`. -/
  | storeValue (slot : String)
  | callMethod (method : String) (passesValue : Bool)
  /-- Store and announce a value that differs from the slot. -/
  | setIfChanged (slot : String) (value : Operand) (property : String)
  | store (slot : String) (value : Operand)
  | ifUnset (flag : String) (body : List Statement)
  | ret (value : Operand)
  /-- Return the command in the slot, constructing it first if there is none. -/
  | returnCommand (slot : String) (factory : CommandFactory)
  /-- Register the instance with a locale registry, and call the registration `object`. -/
  | registerLocale (registry : String) (grouping : Option String) (object : String)
  | addLocaleProperty (object key target : String) (retain : Bool)
deriving Repr, Inhabited

/-- How messages name a statement. -/
def Statement.label : Statement → String
  | returnIfUnchanged _ => "return-if-unchanged"
  | captureOld _ => "capture-old"
  | raiseChanging _ => "raise-changing"
  | raiseChanged _ => "raise-changed"
  | callHook _ => "call-hook"
  | storeValue _ => "store-value"
  | callMethod .. => "call-method"
  | setIfChanged .. => "set-if-changed"
  | store .. => "store"
  | ifUnset .. => "if-unset"
  | ret _ => "return"
  | returnCommand .. => "return-command"
  | registerLocale .. => "register-locale-object"
  | addLocaleProperty .. => "add-locale-property"

/-- A generated field. -/
structure FieldDecl where
  name : String
  type : TypeRef
  role : FieldRole
  /-- The initial value that the property declares. -/
  initializer : Option Expr
deriving Repr

/-- A change hook. -/
structure HookDecl where
  name : String
  valueType : TypeRef
  /-- The class has a body for it. -/
  isImplemented : Bool
deriving DecidableEq, Repr

/-- A property whose accessors are generated. -/
structure PropertySignature where
  name : String
  type : TypeRef
  accessibility : Option String
  /-- The class does not declare it. -/
  synthesized : Bool
  hasSetter : Bool
deriving DecidableEq, Repr

/-- What a generated method is for. -/
inductive MethodKind
  | getter (property : String)
  | setter (property : String)
  | raiseAndSet (property : String)
  | recompute (property : String)
  | commandGetter (property : String)
  /-- The init method; it may override the one of the base. -/
  | init (isOverride : Bool)
deriving DecidableEq, Repr

/-- The head of a generated method. -/
structure MethodSignature where
  name : String
  kind : MethodKind
  params : List (String × TypeRef)
  returnType : Option TypeRef
deriving DecidableEq, Repr

namespace MethodSignature

/-- The head of a getter. -/
def getter (property : String) (type : TypeRef) : MethodSignature :=
  ⟨Naming.getter property, .getter property, [], some type⟩

/-- The head of a setter. -/
def setter (property : String) (type : TypeRef) : MethodSignature :=
  ⟨Naming.setter property, .setter property, [("value", type)], none⟩

end MethodSignature

/-- A piece of a class that receives members. -/
inductive Fragment
  | beginClass (header : ClassHeader)
  | field (decl : FieldDecl)
  | function (decl : StaticFunction)
  | hook (decl : HookDecl)
  | property (signature : PropertySignature)
  | beginMethod (signature : MethodSignature)
  | statement (s : Statement)
  | endMethod
  /-- The declared initial value of a property goes through its setter. -/
  | redirect (property setter : String)
deriving Repr

/-- A generated member. -/
inductive GeneratedMember
  | field (decl : FieldDecl)
  | function (decl : StaticFunction)
  | hook (decl : HookDecl)
  | property (signature : PropertySignature)
  | method (signature : MethodSignature) (body : List Statement)
  | redirect (property setter : String)
deriving Repr

/-- The pieces of a member. -/
def GeneratedMember.fragments : GeneratedMember → List Fragment
  | field decl => [.field decl]
  | function decl => [.function decl]
  | hook decl => [.hook decl]
  | property signature => [.property signature]
  | method signature body => .beginMethod signature :: body.map .statement ++ [.endMethod]
  | redirect p s => [.redirect p s]

end Reactive
