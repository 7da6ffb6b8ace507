import Reactive.Machine.Image
import Reactive.Machine.Value

/-!
# Reactive.Machine.State — what a machine holds

Loaded classes, the objects, commands and locale registrations that were created, and a log of everything that can be
observed.  Objects, commands and registrations are numbered in the order of their creation.  A `Run` changes the machine
and gives a value, or stops; what it has done to the machine by then remains.
-/

namespace Reactive

/-- Something that can be observed from outside. -/
inductive Event
  | changing (object : Nat) (property : String)
  | changed (object : Nat) (property : String)
  | hook (object : Nat) (name : String) (args : List Value)
  /-- A method without a body was called. -/
  | invoked (object : Nat) (method : String) (args : List Value)
  | canExecuteChanged (command : Nat) (canExecute : Bool)
deriving DecidableEq, Repr

/-- A command that was created. -/
structure CommandState where
  owner : Nat
  spec : CommandSpec
  enabled : Bool
deriving DecidableEq, Repr

/-- A binding of a locale registration. -/
structure LocaleEntry where
  key : String
  target : String
  retain : Bool
deriving DecidableEq, Repr

/-- An instance that is registered with a locale registry. -/
structure LocaleRegistration where
  registry : String
  grouping : Option String
  owner : Nat
  bindings : List LocaleEntry
deriving DecidableEq, Repr

/-- An object. -/
structure Instance where
  image : ClassImage
  fields : Table Value
deriving DecidableEq, Repr

/-- A machine. -/
structure Machine where
  classes : Table ClassImage
  objects : List Instance
  commands : List CommandState
  locales : List LocaleRegistration
  /-- What was observed, in order. -/
  events : List Event
deriving DecidableEq, Repr

namespace Machine

/-- A machine without classes. -/
def empty : Machine := ⟨[], [], [], [], []⟩

instance : Inhabited Machine := ⟨empty⟩

/-- The machine with a class in place of any of its name. -/
def load (m : Machine) (image : ClassImage) : Machine := { m with classes := m.classes.put image.name image }

/-- The value in a field of an object. -/
def field? (m : Machine) (object : Nat) (name : String) : Option Value :=
  m.objects[object]?.bind (·.fields.find? name)

/-- The machine without what was observed so far. -/
def clearEvents (m : Machine) : Machine := { m with events := [] }

end Machine

/-- Why a run gives no value. -/
inductive Stop
  | failed (error : RuntimeError)
  /-- The run was longer than allowed. -/
  | exhausted
deriving DecidableEq, Repr

/-- A computation on a machine. -/
abbrev Run := EStateM Stop Machine

namespace Run

/-- Fails. -/
def fail {α : Type} (e : RuntimeError) : Run α := throw (.failed e)

/-- Fails because of a value of a type that does not fit. -/
def typeFault {α : Type} (fault : TypeFault) : Run α := fail (.typeFault fault)

/-- A value, or a failure. -/
def ofExcept {α : Type} : Except RuntimeError α → Run α
  | .ok a => pure a
  | .error e => fail e

/-- A value that has to be there. -/
def ofOption {α : Type} (e : RuntimeError) : Option α → Run α
  | some a => pure a
  | none => fail e

/-- Logs something that can be observed. -/
def log (e : Event) : Run Unit := modify fun m => { m with events := m.events ++ [e] }

/-! ### Objects and their fields -/

/-- An object by its number. -/
def instance_ (object : Nat) : Run Instance := do
  ofOption (.invalidObject object) (← get).objects[object]?

/-- The value in a field. -/
def loadField (object : Nat) (field : String) : Run Value := do
  let i ← instance_ object
  ofOption (.unknownMember i.image.name field) (i.fields.find? field)

/-- Stores a value in a field. -/
def storeField (object : Nat) (field : String) (value : Value) : Run Unit := do
  discard (instance_ object)
  modify fun m =>
    { m with objects := m.objects.modify object fun i => { i with fields := i.fields.put field value } }

/-- Creates an object with the default values of its fields. -/
def allocate (image : ClassImage) : Run Nat := do
  let id := (← get).objects.length
  let fields := Table.ofList (image.fields.map fun (name, type) => (name, Value.defaultOf type))
  modify fun m => { m with objects := m.objects ++ [⟨image, fields⟩] }
  return id

/-- The name of an accessor of a property. -/
def accessor (object : Nat) (property : String) (pick : PropertyDef → Option String) : Run String := do
  let image := (← instance_ object).image
  ofOption (.unknownMember image.name property) ((image.properties.find? property).bind pick)

/-! ### Commands and locale registrations -/

/-- A command by its number. -/
def command_ (id : Nat) : Run CommandState := do
  ofOption (.typeFault (.unknownCommand id)) (← get).commands[id]?

/-- Creates a command. -/
def addCommand (owner : Nat) (spec : CommandSpec) (enabled : Bool) : Run Nat := do
  let id := (← get).commands.length
  modify fun m => { m with commands := m.commands ++ [⟨owner, spec, enabled⟩] }
  return id

/-- Enables or disables a command, which is logged if it changes anything. -/
def setEnabled (id : Nat) (enabled : Bool) : Run Unit := do
  let c ← command_ id
  if c.enabled ≠ enabled then
    modify fun m => { m with commands := m.commands.modify id fun c => { c with enabled := enabled } }
    log (.canExecuteChanged id enabled)

/-- Registers an object with a locale registry. -/
def addRegistration (owner : Nat) (registry : String) (grouping : Option String) : Run Nat := do
  let id := (← get).locales.length
  modify fun m => { m with locales := m.locales ++ [⟨registry, grouping, owner, []⟩] }
  return id

/-- Adds a binding to a registration. -/
def addBinding (id : Nat) (entry : LocaleEntry) : Run Unit := do
  discard (ofOption (.typeFault (.unknownRegistration id)) (← get).locales[id]?)
  modify fun m =>
    { m with locales := m.locales.modify id fun r => { r with bindings := r.bindings ++ [entry] } }

end Run

end Reactive
