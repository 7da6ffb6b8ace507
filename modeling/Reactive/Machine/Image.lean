import Reactive.Declaration
import Reactive.Machine.Error
import Reactive.Naming
import Reactive.Patch.Lowering
import Reactive.Table

/-!
# Reactive.Machine.Image — loadable classes

A `ClassImage` is a class as it is compiled from its declaration alone (`ClassImage.baseline`): automatic properties
store into a field of their own, and bodies are lowered as they are written.  A body without instructions stays opaque.
`ClassImage.apply` makes the edits of a patch module one by one; one that does not fit ends it, and the edits before it
remain made.
-/

namespace Reactive

/-- A property of a loadable class, with the names of its accessors. -/
structure PropertyDef where
  type : String
  getter : Option String
  setter : Option String
deriving DecidableEq, Repr

/-- Where a declared initial value goes. -/
inductive InitTarget
  | field (name : String)
  | setter (name : String)
deriving DecidableEq, Repr

/-- A declared initial value, which is computed on construction. -/
structure Initializer where
  property : String
  code : CompiledMethod
  target : InitTarget
deriving DecidableEq, Repr

/-- A loadable class. -/
structure ClassImage where
  name : String
  /-- The base calls the init method on construction. -/
  derivesBase : Bool
  initMethod : String
  /-- The fields with their types, in the order of declaration. -/
  fields : List (String × String)
  properties : Table PropertyDef
  methods : Table CompiledMethod
  statics : Table CompiledMethod
  /-- The declared methods without a body. -/
  externs : List String
  /-- The declared bodies that have no instructions, and why. -/
  opaqueBodies : Table Unsupported
  initializers : List Initializer
deriving DecidableEq, Repr

namespace ClassImage

/-- The class with a method in place of any of its name. -/
def putMethod (c : ClassImage) (m : CompiledMethod) : ClassImage := { c with methods := c.methods.put m.name m }

/-! ### The class as it is declared -/

/-- The class with a declared body, which stays opaque if it has no instructions. -/
def define (c : ClassImage) (name : String) (params : List String) (body : Expr) :
    Except RuntimeError ClassImage :=
  match CompiledMethod.ofBody name (.ofInstance params) body with
  | .ok m => .ok (c.putMethod m)
  | .error (.unsupported _ reason) => .ok { c with opaqueBodies := c.opaqueBodies.put name reason }
  | .error e => .error (.notCompiled e)

/-- The getter that reads a field. -/
def fieldGetter (property field : String) : CompiledMethod :=
  ⟨Naming.getter property, 0, 0, [.loadField field, .ret]⟩

/-- The setter that writes a field. -/
def fieldSetter (property field : String) : CompiledMethod :=
  ⟨Naming.setter property, 1, 0, [.loadArg 0, .storeField field, .retVoid]⟩

/-- The name of the code of an initial value. -/
def initializerName (property : String) : String := "init_" ++ property

/-- The class with the getter of a declared property. -/
def defineGetter (c : ClassImage) (name : String) (p : PropertyDecl) : Except RuntimeError ClassImage :=
  match p.getter with
  | none => .ok c
  | some ⟨some body, _⟩ => c.define (Naming.getter name) [] body
  | some ⟨none, _⟩ =>
    let field := Naming.autoField name
    .ok ({ c with fields := c.fields ++ [(field, p.type.text)] }.putMethod (fieldGetter name field))

/-- The class with the initial value of a declared property. -/
def defineInitializer (c : ClassImage) (name : String) (p : PropertyDecl) : Except RuntimeError ClassImage :=
  match p.initializer with
  | none => .ok c
  | some body =>
    match CompiledMethod.ofBody (initializerName name) (.ofInstance []) body with
    | .ok code =>
      .ok { c with initializers := c.initializers ++ [⟨name, code, .field (Naming.autoField name)⟩] }
    | .error e => .error (.notCompiled e)

/-- The class with a declared property. -/
def defineProperty (c : ClassImage) (name : String) (p : PropertyDecl) : Except RuntimeError ClassImage := do
  let c ← c.defineGetter name p
  let c := if p.setter.isSome then c.putMethod (fieldSetter name (Naming.autoField name)) else c
  let c ← c.defineInitializer name p
  return { c with
    properties := c.properties.put name
      ⟨p.type.text, p.getter.map fun _ => Naming.getter name, p.setter.map fun _ => Naming.setter name⟩ }

/-- The class with a declared member. -/
def defineMember (c : ClassImage) (m : MemberDecl) : Except RuntimeError ClassImage :=
  match m.kind with
  | .property p => c.defineProperty m.name p
  | .method ⟨_, params, some body⟩ => c.define m.name (params.map Param.name) body
  | .method ⟨_, _, none⟩ =>
    .ok { c with externs := if c.externs.contains m.name then c.externs else c.externs ++ [m.name] }

/-- A class without members. -/
def bare (name : String) (derivesBase : Bool) (initMethod : String) : ClassImage :=
  ⟨name, derivesBase, initMethod, [], [], [], [], [], [], []⟩

/-- The class as it is compiled from its declaration alone. -/
def baseline (d : ClassDecl) (conventions : Conventions) : Except RuntimeError ClassImage :=
  d.members.foldlM defineMember (bare d.name (d.derivesFrom conventions.extensibleBase) conventions.initMethod)

/-! ### Patches -/

/-- A step of patching a class: a failing one leaves the class as it is by then. -/
abbrev Patching := EStateM RuntimeError ClassImage

/-- Fails because an edit does not fit. -/
def misfit (reason : Misfit) : Patching Unit := do throw (.misfit (← get).name reason)

/-- The initializers with another target for the first one of a property. -/
def redirect (property setter : String) : List Initializer → Option (List Initializer)
  | [] => none
  | i :: rest =>
    if i.property = property then some ({ i with target := .setter setter } :: rest)
    else (redirect property setter rest).map (i :: ·)

/-- Makes an edit. -/
def applyEdit (e : PatchEdit) : Patching Unit := do
  let c ← get
  match e with
  | .addField name type _ =>
    if c.fields.any (·.1 == name) then misfit (.fieldExists name)
    else set { c with fields := c.fields ++ [(name, type)] }
  | .addStatic m => set { c with statics := c.statics.put m.name m }
  | .addProperty name type getter =>
    if c.properties.has name then misfit (.propertyExists name)
    else set { c with properties := c.properties.put name ⟨type, some getter, none⟩ }
  | .addMethod m =>
    if c.methods.has m.name || c.opaqueBodies.has m.name then misfit (.methodExists m.name)
    else set (c.putMethod m)
  | .replaceBody m =>
    if c.methods.has m.name || c.opaqueBodies.has m.name then
      set ({ c with opaqueBodies := c.opaqueBodies.drop m.name }.putMethod m)
    else misfit (.nothingToReplace m.name)
  | .redirectInitializer property setter =>
    match redirect property setter c.initializers with
    | some initializers => set { c with initializers }
    | none => misfit (.noInitializer property)

/-- Makes the edits of a module, which has to be intact and of this class. -/
def apply (m : PatchModule) : Patching Unit := do
  unless m.isIntact do throw (.checksumMismatch m.checksum m.computeChecksum)
  unless m.className = (← get).name do misfit (.otherTarget m.className)
  m.edits.forM applyEdit

/-- The class with the edits of a module. -/
def patched (c : ClassImage) (m : PatchModule) : Except RuntimeError ClassImage :=
  match apply m c with
  | .ok _ c => .ok c
  | .error e _ => .error e

/-- A declared class with the edits of a module. -/
def ofPatched (d : ClassDecl) (conventions : Conventions) (m : PatchModule) : Except RuntimeError ClassImage := do
  (← baseline d conventions).patched m

end ClassImage

end Reactive
