import Reactive.Expr
import Reactive.Text.Quoted

/-!
# Reactive.Patch.Instruction — the instruction set of patch modules

A small stack machine.  An instruction that reads the instance works on `this` unless it pops a receiver.  While a
method is being built a jump carries the number of a label; in a built method it carries the index of an instruction.
-/

namespace Reactive

/-- An operator on two values, both of which are evaluated first. -/
inductive StrictOp
  | add | sub | mul | div | mod | eq | ne | lt | le | gt | ge
deriving DecidableEq, Repr

namespace StrictOp

/-- Every strict operator. -/
def all : List StrictOp := [.add, .sub, .mul, .div, .mod, .eq, .ne, .lt, .le, .gt, .ge]

/-- The name of the instruction. -/
def mnemonic : StrictOp → String
  | add => "add"
  | sub => "sub"
  | mul => "mul"
  | div => "div"
  | mod => "mod"
  | eq => "eq"
  | ne => "ne"
  | lt => "lt"
  | le => "le"
  | gt => "gt"
  | ge => "ge"

/-- The operator of an expression as a strict one; `&&`, `||` and `??` are none. -/
def ofBinary? : BinaryOp → Option StrictOp
  | .add => some add
  | .subtract => some sub
  | .multiply => some mul
  | .divide => some div
  | .modulo => some mod
  | .equal => some eq
  | .notEqual => some ne
  | .less => some lt
  | .lessEqual => some le
  | .greater => some gt
  | .greaterEqual => some ge
  | .and | .or | .coalesce => none

end StrictOp

/-- The name of an operator before its operand, in messages and stored modules. -/
def UnaryOp.title : UnaryOp → String
  | not => "Not"
  | negate => "Neg"

/-- How a command is constructed. -/
structure CommandSpec where
  /-- The method that the command runs. -/
  method : String
  takesArgument : Bool
  isAsync : Bool
  /-- The property that says whether the command may run. -/
  canExecute : Option String
deriving DecidableEq, Repr

/-- An instruction. -/
inductive Instruction
  | pushNull
  | pushBool (value : Bool)
  | pushInt (value : Int64)
  | pushFloat (value : Double)
  | pushString (value : String)
  /-- Push the default value of a type. -/
  | pushDefault (type : String)
  | loadThis
  | loadArg (index : UInt16)
  | loadLocal (index : UInt16)
  | storeLocal (index : UInt16)
  /-- Push a field of the instance. -/
  | loadField (name : String)
  /-- Pop a value into a field of the instance. -/
  | storeField (name : String)
  /-- Pop a receiver and push one of its properties. -/
  | getProperty (name : String)
  /-- Pop arguments and a receiver and push the result. -/
  | callMethod (name : String) (argc : UInt8)
  /-- Pop arguments and call a change hook of the instance. -/
  | callHook (name : String) (argc : UInt8)
  /-- Pop an instance and apply a hoisted function to it. -/
  | callStatic (name : String)
  /-- Pop arguments and call a host helper. -/
  | callHost (name : String) (argc : UInt8)
  | unary (op : UnaryOp)
  | binary (op : StrictOp)
  | dup
  | pop
  | jump (target : UInt64)
  /-- Pop a truth value and jump if it is false. -/
  | jumpIfFalse (target : UInt64)
  /-- Pop a truth value and jump if it is true. -/
  | jumpIfTrue (target : UInt64)
  /-- Jump if the top is not null, and pop it otherwise. -/
  | jumpIfNotNull (target : UInt64)
  | raiseChanging (property : String)
  | raiseChanged (property : String)
  /-- Push a new command of the instance. -/
  | newCommand (spec : CommandSpec)
  /-- Register the instance with a locale registry and push the registration. -/
  | registerLocale (registry : String) (grouping : Option String)
  /-- Pop a registration and add a binding to it. -/
  | addLocaleProperty (key target : String) (retain : Bool)
  | ret
  | retVoid
deriving DecidableEq, Repr

namespace Instruction

/-- The target of a jump. -/
def target? : Instruction → Option UInt64
  | jump t | jumpIfFalse t | jumpIfTrue t | jumpIfNotNull t => some t
  | _ => none

/-- The jump to another target. -/
def withTarget (t : UInt64) : Instruction → Instruction
  | jump _ => jump t
  | jumpIfFalse _ => jumpIfFalse t
  | jumpIfTrue _ => jumpIfTrue t
  | jumpIfNotNull _ => jumpIfNotNull t
  | i => i

/-- The instruction ends the method. -/
def isReturn : Instruction → Bool
  | ret | retVoid => true
  | _ => false

/-- The next instruction is never reached from this one. -/
def isTerminator : Instruction → Bool
  | ret | retVoid | jump _ => true
  | _ => false

/-- A name with its number of arguments. -/
def withCount (name : String) (argc : UInt8) : String := name ++ "/" ++ toString argc.toNat

/-- A jump as a listing shows it. -/
def jumpText (mnemonic : String) (t : UInt64) : String := mnemonic ++ " @" ++ toString t.toNat

/-- The construction of a command as a listing shows it. -/
def commandText (spec : CommandSpec) : String :=
  "new.command " ++ spec.method ++ (if spec.takesArgument then " arg" else "")
    ++ (if spec.isAsync then " async" else "")
    ++ match spec.canExecute with
      | some p => " when " ++ p
      | none => ""

/-- An instruction as a listing shows it. -/
def text : Instruction → String
  | pushNull => "push.null"
  | pushBool b => "push.bool " ++ if b then "true" else "false"
  | pushInt i => "push.int " ++ toString i.toInt
  | pushFloat x => "push.float " ++ x.sourceText
  | pushString s => "push.str " ++ Text.listed s
  | pushDefault type => "push.default " ++ type
  | loadThis => "load.this"
  | loadArg i => "load.arg " ++ toString i.toNat
  | loadLocal i => "load.local " ++ toString i.toNat
  | storeLocal i => "store.local " ++ toString i.toNat
  | loadField name => "load.field " ++ name
  | storeField name => "store.field " ++ name
  | getProperty name => "get.prop " ++ name
  | callMethod name argc => "call " ++ withCount name argc
  | callHook name argc => "call.hook " ++ withCount name argc
  | callStatic name => "call.static " ++ name
  | callHost name argc => "call.host " ++ withCount name argc
  | unary .not => "not"
  | unary .negate => "neg"
  | binary op => op.mnemonic
  | dup => "dup"
  | pop => "pop"
  | jump t => jumpText "jmp" t
  | jumpIfFalse t => jumpText "jmp.false" t
  | jumpIfTrue t => jumpText "jmp.true" t
  | jumpIfNotNull t => jumpText "jmp.notnull" t
  | raiseChanging p => "raise.changing " ++ p
  | raiseChanged p => "raise.changed " ++ p
  | newCommand spec => commandText spec
  | registerLocale registry (some grouping) => "locale.register " ++ registry ++ " " ++ grouping
  | registerLocale registry none => "locale.register " ++ registry
  | addLocaleProperty key target retain =>
    "locale.add " ++ key ++ " -> " ++ target ++ if retain then " retain" else ""
  | ret => "ret"
  | retVoid => "ret.void"

end Instruction

end Reactive
