import Reactive.Machine.State

/-!
# Reactive.Machine.Run — running methods

`step` executes one instruction, given a way to enter methods; `body` goes through the instructions of one method; and
`enter` runs a method in which at most `depth` calls are open at a time.  Behind the last instruction a method returns
null.  Every change of a property has the commands of the object evaluated that the property enables; while one is
evaluated, it is not evaluated again.
-/

namespace Reactive

/-- A method that is being run, with what does not change meanwhile. -/
structure Activation where
  method : CompiledMethod
  receiver : Nat
  args : List Value
  /-- The commands that are being evaluated. -/
  refreshing : List Nat
deriving Repr

/-- What changes while a method is being run. -/
structure Frame where
  /-- The index of the next instruction. -/
  next : Nat
  /-- The operands, the last one first. -/
  stack : List Value
  locals : List Value
deriving DecidableEq, Repr

namespace Frame

/-- Before the first instruction of a method. -/
def start (m : CompiledMethod) : Frame := ⟨0, [], List.replicate m.localCount.toNat .null⟩

/-- With one more operand. -/
def push (f : Frame) (v : Value) : Frame := { f with stack := v :: f.stack }

/-- Before another instruction. -/
def jump (f : Frame) (target : UInt64) : Frame := { f with next := target.toNat }

/-- The last `n` operands in their order, and the frame without them. -/
def popMany? (f : Frame) (n : Nat) : Option (List Value × Frame) :=
  if f.stack.length < n then none else some ((f.stack.take n).reverse, { f with stack := f.stack.drop n })

end Frame

/-- What an instruction leads to. -/
inductive Outcome
  | go (frame : Frame)
  | returned (value : Value)
deriving DecidableEq, Repr

/-- A way to run a method. -/
abbrev Enter := Activation → Run Value

namespace Run

/-- The last operand, and the frame without it. -/
def pop (f : Frame) : Run (Value × Frame) :=
  match f.stack with
  | v :: rest => return (v, { f with stack := rest })
  | [] => fail .stackUnderflow

/-- The last operands. -/
def popMany (f : Frame) (n : UInt8) : Run (List Value × Frame) := ofOption .stackUnderflow (f.popMany? n.toNat)

/-- The last operand, which has to be a truth value. -/
def popBool (f : Frame) : Run (Bool × Frame) := do
  let (v, f) ← pop f
  let b ← ofOption (.typeFault (.condition v.typeName)) v.bool?
  return (b, f)

section

variable (enter : Enter)

/-! ### Calls -/

/-- Calls a method by its name; a call of a method without a body is logged. -/
def invoke (refreshing : List Nat) (object : Nat) (name : String) (args : List Value) : Run Value := do
  let image := (← instance_ object).image
  match image.methods.find? name with
  | some method => enter ⟨method, object, args, refreshing⟩
  | none =>
    if image.externs.contains name then
      log (.invoked object name args)
      return .null
    else
      match image.opaqueBodies.find? name with
      | some reason => fail (.opaqueBody name reason)
      | none => fail (.unknownMember image.name name)

/-- Reads a property. -/
def read (refreshing : List Nat) (object : Nat) (property : String) : Run Value := do
  invoke enter refreshing object (← accessor object property PropertyDef.getter) []

/-- Calls a hook of an object, if its class implements it. -/
def callHook (refreshing : List Nat) (object : Nat) (name : String) (args : List Value) : Run Unit := do
  log (.hook object name args)
  if (← instance_ object).image.methods.has name then
    discard (invoke enter refreshing object name args)

/-- Applies a hoisted function to an object. -/
def applyStatic (refreshing : List Nat) (object : Nat) (name : String) : Run Value := do
  let image := (← instance_ object).image
  let function ← ofOption (.unknownMember image.name name) (image.statics.find? name)
  enter ⟨function, object, [.object object], refreshing⟩

/-! ### Commands -/

/-- Whether a property enables the commands of an object. -/
def enablement (refreshing : List Nat) (object : Nat) (property : String) : Run Bool := do
  let v ← read enter refreshing object property
  ofOption (.typeFault (.gate property v.typeName)) v.bool?

/-- Creates a command. -/
def newCommand (refreshing : List Nat) (owner : Nat) (spec : CommandSpec) : Run Nat := do
  match spec.canExecute with
  | some property => addCommand owner spec (← enablement enter refreshing owner property)
  | none => addCommand owner spec true

/-- The commands of an object that a property enables. -/
def gated (commands : List CommandState) (object : Nat) (property : String) : List Nat :=
  (List.range commands.length).filter fun i =>
    match commands[i]? with
    | some c => c.owner = object && c.spec.canExecute = some property
    | none => false

/-- Evaluates commands that a property enables. -/
def refreshAll (refreshing : List Nat) (object : Nat) (property : String) : List Nat → Run Unit
  | [] => pure ()
  | id :: rest => do
    unless refreshing.contains id do
      setEnabled id (← enablement enter (id :: refreshing) object property)
    refreshAll refreshing object property rest

/-- Announces that a property has changed. -/
def raiseChanged (refreshing : List Nat) (object : Nat) (property : String) : Run Unit := do
  log (.changed object property)
  refreshAll enter refreshing object property (gated (← get).commands object property)

/-! ### Instructions -/

/-- Reads a property of a value. -/
def readOf (refreshing : List Nat) (name : String) : Value → Run Value
  | .object id => read enter refreshing id name
  | .string s => ofExcept (Value.stringMember s name [])
  | v => typeFault (.readOf name v.typeName)

/-- Calls a method of a value. -/
def callOn (refreshing : List Nat) (name : String) (args : List Value) : Value → Run Value
  | .object id => invoke enter refreshing id name args
  | .string s => ofExcept (Value.stringMember s name args)
  | v => typeFault (.callOn name v.typeName)

/-- Executes an instruction; the frame is already before the one that follows. -/
def step (a : Activation) (f : Frame) : Instruction → Run Outcome
  | .pushNull => return .go (f.push .null)
  | .pushBool b => return .go (f.push (.bool b))
  | .pushInt i => return .go (f.push (.int i))
  | .pushFloat x => return .go (f.push (.float x))
  | .pushString s => return .go (f.push (.string s))
  | .pushDefault type => return .go (f.push (.defaultOf type))
  | .loadThis => return .go (f.push (.object a.receiver))
  | .loadArg index => do
    let v ← ofOption (.typeFault (.argumentRange a.method.name index.toNat)) a.args[index.toNat]?
    return .go (f.push v)
  | .loadLocal index => do
    let v ← ofOption (.typeFault (.localRange index.toNat)) f.locals[index.toNat]?
    return .go (f.push v)
  | .storeLocal index => do
    let (v, f) ← pop f
    if index.toNat < f.locals.length then return .go { f with locals := f.locals.set index.toNat v }
    else typeFault (.localRange index.toNat)
  | .loadField name => return .go (f.push (← loadField a.receiver name))
  | .storeField name => do
    let (v, f) ← pop f
    storeField a.receiver name v
    return .go f
  | .getProperty name => do
    let (v, f) ← pop f
    return .go (f.push (← readOf enter a.refreshing name v))
  | .callMethod name argc => do
    let (args, f) ← popMany f argc
    let (v, f) ← pop f
    return .go (f.push (← callOn enter a.refreshing name args v))
  | .callHook name argc => do
    let (args, f) ← popMany f argc
    callHook enter a.refreshing a.receiver name args
    return .go f
  | .callStatic name => do
    let (v, f) ← pop f
    match v with
    | .object id => return .go (f.push (← applyStatic enter a.refreshing id name))
    | v => typeFault (.staticOn name v.typeName)
  | .callHost name argc => do
    let (args, f) ← popMany f argc
    return .go (f.push (← ofExcept (Value.callHost name args)))
  | .unary op => do
    let (v, f) ← pop f
    return .go (f.push (← ofExcept (v.unary op)))
  | .binary op => do
    let (right, f) ← pop f
    let (left, f) ← pop f
    return .go (f.push (← ofExcept (Value.binary op left right)))
  | .dup => do
    let (v, _) ← pop f
    return .go (f.push v)
  | .pop => return .go (← pop f).2
  | .jump target => return .go (f.jump target)
  | .jumpIfFalse target => do
    let (b, f) ← popBool f
    return .go (if b then f else f.jump target)
  | .jumpIfTrue target => do
    let (b, f) ← popBool f
    return .go (if b then f.jump target else f)
  | .jumpIfNotNull target => do
    let (v, rest) ← pop f
    return .go (if v = .null then rest else f.jump target)
  | .raiseChanging property => do
    log (.changing a.receiver property)
    return .go f
  | .raiseChanged property => do
    raiseChanged enter a.refreshing a.receiver property
    return .go f
  | .newCommand spec => return .go (f.push (.command (← newCommand enter a.refreshing a.receiver spec)))
  | .registerLocale registry grouping =>
    return .go (f.push (.locale (← addRegistration a.receiver registry grouping)))
  | .addLocaleProperty key target retain => do
    let (v, f) ← pop f
    match v with
    | .locale id =>
      addBinding id ⟨key, target, retain⟩
      return .go f
    | _ => typeFault .notRegistration
  | .ret => return .returned (← pop f).1
  | .retVoid => return .returned .null

/-- Executes at most `fuel` instructions of a method, the value being the one it returns. -/
def body (a : Activation) : Nat → Frame → Run Value
  | 0, _ => throw .exhausted
  | fuel + 1, f =>
    match a.method.code[f.next]? with
    | none => return .null
    | some i => do
      match ← step enter a { f with next := f.next + 1 } i with
      | .go f => body a fuel f
      | .returned v => return v

end

/-- Runs a method in which at most `depth` calls are open at a time, itself included, and at most `fuel` instructions are
executed in each. -/
def enter (fuel : Nat) : Nat → Enter
  | 0, _ => fail .stackOverflow
  | depth + 1, a => body (enter fuel depth) a fuel (.start a.method)

/-- The greatest number of open calls. -/
def maxDepth : Nat := 256

/-- Runs a method from outside. -/
def enterFirst (fuel : Nat) : Enter := enter fuel maxDepth

end Run

end Reactive
