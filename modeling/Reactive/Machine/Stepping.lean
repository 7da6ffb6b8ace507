import Reactive.Machine.Session

/-!
# Reactive.Machine.Stepping — running methods one step after another

An `Interpreter` runs methods on a machine without entering one inside another: the frame of a caller waits on a stack
until its callee returns.  Evaluating a command or an initial value opens a run of its own; what waits for the value of
that is on the stack too, and above it the number of open calls when the run was opened.  The interpreter counts the
open calls, which are never more than `Run.maxDepth`, and has the set of the commands that are being evaluated.  When
something fails, whatever waits is dropped, and what was counted when a run was opened is restored.
-/

namespace Reactive

/-- A call of a method. -/
structure Call where
  method : CompiledMethod
  receiver : Nat
  args : List Value
deriving DecidableEq, Repr

/-- The frame of a caller when its callee has returned; not every caller wants the value. -/
def Frame.resumed (wanted : Bool) (v : Value) (f : Frame) : Frame := if wanted then f.push v else f

/-- What calling a member by its name leads to. -/
inductive Dispatch
  | enters (call : Call)
  /-- There is nothing to run. -/
  | finished (value : Value)
deriving DecidableEq, Repr

/-- What an instruction leads to. -/
inductive Progress
  | goes (frame : Frame)
  | returns (value : Value)
  /-- The frame waits for a method. -/
  | calls (call : Call) (wanted : Bool) (frame : Frame)
  /-- The frame waits until commands that a property enables are evaluated. -/
  | refreshes (property : String) (commands : List Nat) (frame : Frame)
  /-- The frame waits for a command that a property enables. -/
  | creates (spec : CommandSpec) (property : String) (frame : Frame)
deriving DecidableEq, Repr

namespace Run

/-! ### Members -/

/-- Looks a method up; a call of a method without a body is logged. -/
def dispatch (object : Nat) (name : String) (args : List Value) : Run Dispatch := do
  let image := (← instance_ object).image
  match image.methods.find? name with
  | some method => return .enters ⟨method, object, args⟩
  | none =>
    if image.externs.contains name then
      log (.invoked object name args)
      return .finished .null
    else
      match image.opaqueBodies.find? name with
      | some reason => fail (.opaqueBody name reason)
      | none => fail (.unknownMember image.name name)

/-- Looks the getter of a property up. -/
def dispatchGetter (object : Nat) (property : String) : Run Dispatch := do
  dispatch object (← accessor object property PropertyDef.getter) []

/-! ### Instructions -/

/-- Calls a member from a frame. -/
def callFrom (found : Run Dispatch) (wanted : Bool) (f : Frame) : Run Progress := do
  match ← found with
  | .enters call => return .calls call wanted f
  | .finished v => return .goes (f.resumed wanted v)

/-- Executes an instruction that calls nothing. -/
def simple (c : Call) (f : Frame) (i : Instruction) : Run Progress := do
  match ← step (fun _ => throw .exhausted) ⟨c.method, c.receiver, c.args, []⟩ f i with
  | .go f => return .goes f
  | .returned v => return .returns v

/-- Executes an instruction up to where it would have to wait; the frame is already before the one that follows. -/
def progress (c : Call) (f : Frame) : Instruction → Run Progress
  | .getProperty name => do
    let (v, f) ← pop f
    match v with
    | .object id => callFrom (dispatchGetter id name) true f
    | .string s => return .goes (f.push (← ofExcept (Value.stringMember s name [])))
    | v => typeFault (.readOf name v.typeName)
  | .callMethod name argc => do
    let (args, f) ← popMany f argc
    let (v, f) ← pop f
    match v with
    | .object id => callFrom (dispatch id name args) true f
    | .string s => return .goes (f.push (← ofExcept (Value.stringMember s name args)))
    | v => typeFault (.callOn name v.typeName)
  | .callHook name argc => do
    let (args, f) ← popMany f argc
    log (.hook c.receiver name args)
    if (← instance_ c.receiver).image.methods.has name then callFrom (dispatch c.receiver name args) false f
    else return .goes f
  | .callStatic name => do
    let (v, f) ← pop f
    match v with
    | .object id =>
      let image := (← instance_ id).image
      let function ← ofOption (.unknownMember image.name name) (image.statics.find? name)
      return .calls ⟨function, id, [.object id]⟩ true f
    | v => typeFault (.staticOn name v.typeName)
  | .raiseChanged property => do
    log (.changed c.receiver property)
    return .refreshes property (gated (← get).commands c.receiver property) f
  | .newCommand spec => do
    match spec.canExecute with
    | some property => return .creates spec property f
    | none => return .goes (f.push (.command (← addCommand c.receiver spec true)))
  | i => simple c f i

/-- Creates an object, the initial values of which are not yet stored. -/
def newObject (className : String) : Run (Nat × ClassImage) := do
  let image ← ofOption (.unknownClass className) ((← get).classes.find? className)
  return (← allocate image, image)

/-- Whether a property enables commands, by its value. -/
def gateOf (property : String) (v : Value) : Run Bool := ofOption (.typeFault (.gate property v.typeName)) v.bool?

end Run

/-- What waits for a value. -/
inductive Pending
  /-- A caller. -/
  | frame (call : Call) (wanted : Bool) (frame : Frame)
  /-- A run, with the number of calls that were open before it. -/
  | run (base : Nat)
  /-- A command that is being created. -/
  | creation (owner : Nat) (spec : CommandSpec) (property : String)
  /-- A command that is being evaluated, and those to be evaluated then. -/
  | evaluation (object : Nat) (property : String) (id : Nat) (rest : List Nat)
  /-- Whoever asked for the command that a property gives. -/
  | commandOf (property : String)
  /-- An initial value that is being computed, and those to be computed then. -/
  | initialValue (object : Nat) (image : ClassImage) (target : InitTarget) (rest : List Initializer)
  /-- An object whose setter stores an initial value. -/
  | construction (object : Nat) (image : ClassImage) (rest : List Initializer)
deriving DecidableEq, Repr

/-- What is done next. -/
inductive Control
  /-- A method is entered. -/
  | calling (call : Call)
  /-- A method is run. -/
  | running (call : Call) (frame : Frame)
  /-- Commands that a property enables are evaluated. -/
  | refreshing (object : Nat) (property : String) (commands : List Nat)
  /-- Initial values are computed and stored. -/
  | constructing (object : Nat) (image : ClassImage) (rest : List Initializer)
  /-- A value is given to what waits for it. -/
  | giving (value : Value)
  /-- What waits is dropped. -/
  | failing (e : Stop)
  /-- Nothing: what was asked for is done, or has failed. -/
  | resting (result : Except Stop Unit)
deriving Repr

/-- A machine, and what is being done on it. -/
structure Interpreter where
  machine : Machine
  /-- How many calls are open. -/
  depth : Nat
  /-- The commands that are being evaluated. -/
  refreshing : List Nat
  /-- What waits, the last that began to do so first. -/
  stack : List Pending
  control : Control
deriving Repr

namespace Interpreter

/-- Before anything was loaded. -/
def idle : Interpreter := ⟨.empty, 0, [], [], .resting (.ok ())⟩

/-- Nothing is done any more. -/
def AtRest (s : Interpreter) : Prop := ∃ result, s.control = .resting result

/-- What came of the last thing that was asked for. -/
def result? (s : Interpreter) : Option (EStateM.Result Stop Machine Unit) :=
  match s.control with
  | .resting (.ok ()) => some (.ok () s.machine)
  | .resting (.error e) => some (.error e s.machine)
  | _ => none

/-- Does something on the machine, after which something else is done. -/
def after {α : Type} (s : Interpreter) (x : Run α) (k : Interpreter → α → Interpreter) : Interpreter :=
  match x s.machine with
  | .ok a m => k { s with machine := m } a
  | .error e m => { s with machine := m, control := .failing e }

/-- Gives a value. -/
def give (s : Interpreter) (v : Value) : Interpreter := { s with control := .giving v }

/-- Goes on to something. -/
def goTo (s : Interpreter) (c : Control) : Interpreter := { s with control := c }

/-- Has something wait. -/
def wait (s : Interpreter) (p : Pending) : Interpreter := { s with stack := p :: s.stack }

/-- Opens a run. -/
def runs (s : Interpreter) (c : Call) : Interpreter := (s.wait (.run s.depth)).goTo (.calling c)

/-- Opens a run of a member, if there is anything to run. -/
def opens (s : Interpreter) (found : Run Dispatch) : Interpreter :=
  s.after found fun s d =>
    match d with
    | .enters c => s.runs c
    | .finished v => s.give v

/-- Enters a method. -/
def enters (s : Interpreter) (c : Call) : Interpreter :=
  if Run.maxDepth ≤ s.depth then s.goTo (.failing (.failed .stackOverflow))
  else { s with depth := s.depth + 1, control := .running c (.start c.method) }

/-- Returns from a method. -/
def returns (s : Interpreter) (v : Value) : Interpreter := { s with depth := s.depth - 1, control := .giving v }

/-- Goes on after an instruction of a method. -/
def follow (c : Call) (s : Interpreter) : Progress → Interpreter
  | .goes f => s.goTo (.running c f)
  | .returns v => s.returns v
  | .calls callee wanted f => (s.wait (.frame c wanted f)).goTo (.calling callee)
  | .refreshes property commands f => (s.wait (.frame c false f)).goTo (.refreshing c.receiver property commands)
  | .creates spec property f =>
    ((s.wait (.frame c true f)).wait (.creation c.receiver spec property)).opens
      (Run.dispatchGetter c.receiver property)

/-- Executes the next instruction of a method; behind the last one it returns null. -/
def executes (s : Interpreter) (c : Call) (f : Frame) : Interpreter :=
  match c.method.code[f.next]? with
  | some i => s.after (Run.progress c { f with next := f.next + 1 } i) (follow c)
  | none => s.returns .null

/-- Evaluates the next command, unless it is being evaluated. -/
def refreshes (s : Interpreter) (object : Nat) (property : String) : List Nat → Interpreter
  | [] => s.give .null
  | id :: rest =>
    if s.refreshing.contains id then s.goTo (.refreshing object property rest)
    else
      ({ s with refreshing := id :: s.refreshing }.wait (.evaluation object property id rest)).opens
        (Run.dispatchGetter object property)

/-- Computes the next initial value; behind the last one the init method is called if the base does so. -/
def constructs (s : Interpreter) (object : Nat) (image : ClassImage) : List Initializer → Interpreter
  | i :: rest => (s.wait (.initialValue object image i.target rest)).runs ⟨i.code, object, []⟩
  | [] =>
    if image.derivesBase && image.methods.has image.initMethod then s.opens (Run.dispatch object image.initMethod [])
    else s.give .null

/-- Gives a value to what waited for it. -/
def resume (s : Interpreter) (v : Value) : Pending → Interpreter
  | .frame c wanted f => s.goTo (.running c (f.resumed wanted v))
  | .run base => { s with depth := base }.give v
  | .creation owner spec property =>
    s.after (do Run.addCommand owner spec (← Run.gateOf property v)) fun s id => s.give (.command id)
  | .evaluation object property id rest =>
    { s with refreshing := s.refreshing.erase id }.after (do Run.setEnabled id (← Run.gateOf property v)) fun s _ =>
      s.goTo (.refreshing object property rest)
  | .commandOf property =>
    match v with
    | .command _ => s.give v
    | _ => s.goTo (.failing (.failed (.typeFault (.notCommand property v.typeName))))
  | .initialValue object image (.field name) rest =>
    s.after (Run.storeField object name v) fun s _ => s.goTo (.constructing object image rest)
  | .initialValue object image (.setter name) rest =>
    (s.wait (.construction object image rest)).opens (Run.dispatch object name [v])
  | .construction object image rest => s.goTo (.constructing object image rest)

/-- Drops what waited for a value. -/
def drop (s : Interpreter) : Pending → Interpreter
  | .run base => { s with depth := base }
  | .evaluation _ _ id _ => { s with refreshing := s.refreshing.erase id }
  | .frame .. | .creation .. | .commandOf _ | .initialValue .. | .construction .. => s

/-- A step; at rest nothing changes. -/
def next (s : Interpreter) : Interpreter :=
  match s.control with
  | .calling c => s.enters c
  | .running c f => s.executes c f
  | .refreshing object property commands => s.refreshes object property commands
  | .constructing object image rest => s.constructs object image rest
  | .giving v =>
    match s.stack with
    | p :: stack => { s with stack }.resume v p
    | [] => s.goTo (.resting (.ok ()))
  | .failing e =>
    match s.stack with
    | p :: stack => { s with stack }.drop p
    | [] => s.goTo (.resting (.error e))
  | .resting _ => s

/-- Some steps. -/
def steps (s : Interpreter) : Nat → Interpreter
  | 0 => s
  | n + 1 => s.next.steps n

/-! ### From outside -/

/-- Constructs an object. -/
def construct (s : Interpreter) (className : String) : Interpreter :=
  s.after (Run.newObject className) fun s (id, image) => s.goTo (.constructing id image image.initializers)

/-- Reads a property. -/
def getProperty (s : Interpreter) (object : Nat) (property : String) : Interpreter :=
  s.opens (Run.dispatchGetter object property)

/-- Writes a property. -/
def setProperty (s : Interpreter) (object : Nat) (property : String) (value : Value) : Interpreter :=
  s.opens do Run.dispatch object (← Run.accessor object property PropertyDef.setter) [value]

/-- Calls a method. -/
def call (s : Interpreter) (object : Nat) (method : String) (args : List Value) : Interpreter :=
  s.opens (Run.dispatch object method args)

/-- Asks for the command that a property gives. -/
def command (s : Interpreter) (object : Nat) (property : String) : Interpreter :=
  (s.wait (.commandOf property)).opens (Run.dispatchGetter object property)

/-- Asks whether a command may be executed. -/
def canExecute (s : Interpreter) (id : Nat) : Interpreter := s.after (Run.command_ id) fun s _ => s.give .null

/-- Executes a command that is enabled. -/
def execute (s : Interpreter) (id : Nat) (argument : Option Value) : Interpreter :=
  s.opens do
    let c ← Run.command_ id
    unless c.enabled do Run.fail (.commandDisabled id)
    Run.dispatch c.owner c.spec.method (if c.spec.takesArgument then [argument.getD .null] else [])

end Interpreter

end Reactive
