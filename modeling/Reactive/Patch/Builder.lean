import Reactive.Patch.Module

/-!
# Reactive.Patch.Builder — building a method

A method is built instruction by instruction.  A jump goes to a label, which may be bound to a place later; `build`
puts the place into the jump, and fails if a label that is jumped to has none.  Locals are numbered by name in the
order of their first use.
-/

namespace Reactive

/-- Why an expression has no instructions. -/
inductive Unsupported
  /-- A name of host helpers stands alone. -/
  | hostName (name : String)
  | tooManyArguments
  /-- What is called is neither a name nor a member. -/
  | notCallable (callee : String)
  | lambda
  /-- The instance is read where there is none. -/
  | instanceRead
deriving DecidableEq, Repr

/-- The wording of the reason. -/
def Unsupported.reason : Unsupported → String
  | hostName name => "'" ++ name ++ "' is only valid as a call receiver"
  | tooManyArguments => "too many call arguments"
  | notCallable callee => "cannot call '" ++ callee ++ "'"
  | lambda => "lambdas must be hoisted before lowering"
  | instanceRead => "instance member read from a static function"

/-- A step of generation that is out of order. -/
inductive Disorder
  | fragmentBeforeClass
  | endOfNoClass
  | methodInsideMethod (inner outer : String)
  | endOfNoMethod
  | unknownSlot (slot : String)
  | undeclaredProperty (property : String)
  | undeclaredCommand (property : String)
  | localeBeforeRegistration (object : String)
  /-- The operator has no instruction that takes both values. -/
  | notStrict (op : BinaryOp)
deriving DecidableEq, Repr

/-- The wording of the disorder. -/
def Disorder.text : Disorder → String
  | fragmentBeforeClass => "fragment emitted before begin_class"
  | endOfNoClass => "end_class without begin_class"
  | methodInsideMethod inner outer => "method '" ++ inner ++ "' begun inside '" ++ outer ++ "'"
  | endOfNoMethod => "end_method without begin_method"
  | unknownSlot slot => "unknown slot '" ++ slot ++ "'"
  | undeclaredProperty property => "accessor for undeclared property '" ++ property ++ "'"
  | undeclaredCommand property => "command property '" ++ property ++ "' was not declared"
  | localeBeforeRegistration object => "locale object '" ++ object ++ "' used before registration"
  | notStrict op => "operator " ++ op.symbol.text ++ " has no strict form"

/-- Why members cannot be generated. -/
inductive CompileError
  | unsupported (member : String) (reason : Unsupported)
  | statementOutsideMethod (statement : String)
  | unboundLabel (label : Nat)
  | internal (disorder : Disorder)
deriving DecidableEq, Repr

/-- The wording of the error. -/
def CompileError.message : CompileError → String
  | unsupported member reason => "Unsupported expression in '" ++ member ++ "': " ++ reason.reason
  | statementOutsideMethod statement => "Statement emitted outside of a method: " ++ statement
  | unboundLabel label => "Jump to unbound label " ++ toString label
  | internal disorder => "Internal compiler error: " ++ disorder.text

/-- A method that is being built. -/
structure MethodBuilder where
  name : String
  paramCount : UInt16
  code : List Instruction
  locals : List String
  /-- The place of each label, if it is bound. -/
  labels : List (Option Nat)
deriving DecidableEq, Repr

namespace MethodBuilder

/-- A method without instructions. -/
def start (name : String) (paramCount : UInt16) : MethodBuilder := ⟨name, paramCount, [], [], []⟩

/-- The number of instructions so far. -/
def position (b : MethodBuilder) : Nat := b.code.length

/-- The number of a local that has one. -/
def local? (b : MethodBuilder) (name : String) : Option UInt16 :=
  (b.locals.idxOf? name).map UInt16.ofNat

/-- The number of a local, a new one on first use. -/
def allocate (b : MethodBuilder) (name : String) : UInt16 × MethodBuilder :=
  match b.local? name with
  | some i => (i, b)
  | none => (UInt16.ofNat b.locals.length, { b with locals := b.locals ++ [name] })

/-- One more instruction. -/
def push (b : MethodBuilder) (i : Instruction) : MethodBuilder := { b with code := b.code ++ [i] }

/-- More instructions. -/
def pushAll (b : MethodBuilder) (is : List Instruction) : MethodBuilder := { b with code := b.code ++ is }

/-- A new label, not bound yet. -/
def newLabel (b : MethodBuilder) : Nat × MethodBuilder := (b.labels.length, { b with labels := b.labels ++ [none] })

/-- The label bound to the next instruction. -/
def bind (b : MethodBuilder) (label : Nat) : MethodBuilder :=
  { b with labels := b.labels.set label (some b.position) }

/-- A jump to a label. -/
def pushJump (b : MethodBuilder) (jump : UInt64 → Instruction) (label : Nat) : MethodBuilder :=
  b.push (jump (UInt64.ofNat label))

/-- The last instruction ends the method. -/
def endsInReturn (b : MethodBuilder) : Bool := (b.code.getLast?.map Instruction.isReturn).getD false

/-- An instruction with the place of its label in it. -/
def resolve (labels : List (Option Nat)) (i : Instruction) : Except CompileError Instruction :=
  match i.target? with
  | none => .ok i
  | some label =>
    match labels[label.toNat]? with
    | some (some place) => .ok (i.withTarget (UInt64.ofNat place))
    | _ => .error (.unboundLabel label.toNat)

/-- The method, with the places of the labels in the jumps. -/
def build (b : MethodBuilder) : Except CompileError CompiledMethod := do
  let code ← b.code.mapM (resolve b.labels)
  return ⟨b.name, b.paramCount, UInt16.ofNat b.locals.length, code⟩

end MethodBuilder

/-- A step of building: a failing one, too, leaves what was built before it. -/
abbrev Build := EStateM CompileError MethodBuilder

namespace Build

/-- One more instruction. -/
def emit (i : Instruction) : Build Unit := modify (·.push i)

/-- A new label. -/
def newLabel : Build Nat := modifyGet MethodBuilder.newLabel

/-- Binds a label to the next instruction. -/
def bind (label : Nat) : Build Unit := modify (·.bind label)

/-- A jump to a label. -/
def emitJump (jump : UInt64 → Instruction) (label : Nat) : Build Unit := modify (·.pushJump jump label)

/-- The number of a local, a new one on first use. -/
def allocate (name : String) : Build UInt16 := modifyGet (·.allocate name)

/-- Fails because an expression of the method has no instructions. -/
def unsupported {α : Type} (reason : Unsupported) : Build α := do throw (.unsupported (← get).name reason)

end Build

end Reactive
