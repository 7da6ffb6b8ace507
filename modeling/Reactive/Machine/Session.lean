import Reactive.Machine.Run

/-!
# Reactive.Machine.Session — using a machine from outside

Constructing objects, reading and writing properties, calling methods and executing commands.  Each takes the greatest
number of instructions in one call; `ample` is more than any run ends with.
-/

namespace Reactive.Run

/-- More instructions than a call ends with. -/
def ample : Nat := 1 <<< 48

variable (fuel : Nat)

/-- Stores an initial value. -/
def runInitializer (object : Nat) (i : Initializer) : Run Unit := do
  let v ← enterFirst fuel ⟨i.code, object, [], []⟩
  match i.target with
  | .field name => storeField object name v
  | .setter name => discard (invoke (enterFirst fuel) [] object name [v])

/-- Constructs an object: its initial values are stored, and its init method is called if its base does so.  An object
whose construction fails remains. -/
def construct (className : String) : Run Nat := do
  let image ← ofOption (.unknownClass className) ((← get).classes.find? className)
  let id ← allocate image
  image.initializers.forM (runInitializer fuel id)
  if image.derivesBase && image.methods.has image.initMethod then
    discard (invoke (enterFirst fuel) [] id image.initMethod [])
  return id

/-- Reads a property. -/
def getProperty (object : Nat) (property : String) : Run Value := read (enterFirst fuel) [] object property

/-- Writes a property. -/
def setProperty (object : Nat) (property : String) (value : Value) : Run Unit := do
  let setter ← accessor object property PropertyDef.setter
  discard (invoke (enterFirst fuel) [] object setter [value])

/-- Calls a method. -/
def call (object : Nat) (method : String) (args : List Value) : Run Value :=
  invoke (enterFirst fuel) [] object method args

/-- The command that a property gives. -/
def command (object : Nat) (property : String) : Run Nat := do
  match ← getProperty fuel object property with
  | .command id => return id
  | v => typeFault (.notCommand property v.typeName)

/-- Whether a command may be executed. -/
def canExecute (id : Nat) : Run Bool := return (← command_ id).enabled

/-- Executes a command that is enabled; one that takes an argument gets null if none is given. -/
def execute (id : Nat) (argument : Option Value) : Run Value := do
  let c ← command_ id
  unless c.enabled do fail (.commandDisabled id)
  call fuel c.owner c.spec.method (if c.spec.takesArgument then [argument.getD .null] else [])

end Reactive.Run
