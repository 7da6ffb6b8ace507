import Reactive.Patch.Builder

/-!
# Reactive.Machine.Error — why loading or running fails
-/

namespace Reactive

/-- Why a patch module does not fit a class. -/
inductive Misfit
  | otherTarget (name : String)
  | fieldExists (name : String)
  | propertyExists (name : String)
  | methodExists (name : String)
  | nothingToReplace (method : String)
  | noInitializer (property : String)
deriving DecidableEq, Repr

/-- The wording of the reason. -/
def Misfit.reason : Misfit → String
  | otherTarget name => "module targets '" ++ name ++ "'"
  | fieldExists name => "field '" ++ name ++ "' already exists"
  | propertyExists name => "property '" ++ name ++ "' already exists"
  | methodExists name => "method '" ++ name ++ "' already exists"
  | nothingToReplace method => "no method '" ++ method ++ "' to replace"
  | noInitializer property => "'" ++ property ++ "' has no initializer"

/-- A value of a type that an instruction does not work on; types are given by their names. -/
inductive TypeFault
  | unaryOperand (op : UnaryOp) (type : String)
  | binaryOperands (op : StrictOp) (left right : String)
  | stringArgument (member found : String)
  | condition (type : String)
  | localRange (index : Nat)
  | argumentRange (method : String) (index : Nat)
  | readOf (name type : String)
  | callOn (name type : String)
  | staticOn (name type : String)
  | notCommand (property type : String)
  | notRegistration
  | unknownRegistration (id : Nat)
  | unknownCommand (id : Nat)
  | gate (property type : String)
deriving DecidableEq, Repr

/-- The wording of the fault. -/
def TypeFault.reason : TypeFault → String
  | unaryOperand op type => "cannot apply " ++ op.title ++ " to " ++ type
  | binaryOperands op left right => "cannot apply '" ++ op.mnemonic ++ "' to " ++ left ++ " and " ++ right
  | stringArgument member found => "string." ++ member ++ " expects a string argument, got " ++ found
  | condition type => "expected bool, got " ++ type
  | localRange index => "local " ++ toString index ++ " out of range"
  | argumentRange method index => method ++ " has no argument " ++ toString index
  | readOf name type => "cannot read '" ++ name ++ "' of " ++ type
  | callOn name type => "cannot call '" ++ name ++ "' on " ++ type
  | staticOn name type => "static '" ++ name ++ "' applied to " ++ type
  | notCommand property type => "'" ++ property ++ "' is " ++ type ++ ", not a command"
  | notRegistration => "expected a locale registration"
  | unknownRegistration id => "invalid locale handle " ++ toString id
  | unknownCommand id => "invalid command handle " ++ toString id
  | gate property type => "'" ++ property ++ "' gates a command but is " ++ type

/-- Why a class is not loaded or a call gives no value. -/
inductive RuntimeError
  | checksumMismatch (stored actual : UInt32)
  | misfit (className : String) (reason : Misfit)
  | notCompiled (cause : CompileError)
  | unknownClass (name : String)
  | unknownMember (className member : String)
  /-- The body has no instructions, and no patch replaces it. -/
  | opaqueBody (method : String) (reason : Unsupported)
  | unknownHost (name : String) (argc : Nat)
  | invalidObject (id : Nat)
  | commandDisabled (id : Nat)
  | stackUnderflow
  | stackOverflow
  | divisionByZero
  | typeFault (fault : TypeFault)
deriving DecidableEq, Repr

/-- A number in hexadecimal behind `0x`. -/
def hexText (w : UInt32) : String := "0x" ++ String.ofList (Nat.toDigits 16 w.toNat)

/-- The wording of the error. -/
def RuntimeError.message : RuntimeError → String
  | checksumMismatch stored actual => "Checksum mismatch: expected " ++ hexText stored ++ ", got " ++ hexText actual
  | misfit className reason => "Cannot apply patch to '" ++ className ++ "': " ++ reason.reason
  | notCompiled cause => "Compile error: " ++ cause.message
  | unknownClass name => "Unknown class '" ++ name ++ "'"
  | unknownMember className member => "'" ++ className ++ "' has no member '" ++ member ++ "'"
  | opaqueBody method reason => "'" ++ method ++ "' has no executable body: " ++ reason.reason
  | unknownHost name argc => "Unknown host function '" ++ name ++ "/" ++ toString argc ++ "'"
  | invalidObject id => "Invalid object handle " ++ toString id
  | commandDisabled id => "Command " ++ toString id ++ " is disabled"
  | stackUnderflow => "Stack underflow"
  | stackOverflow => "Call depth limit exceeded"
  | divisionByZero => "Division by zero"
  | typeFault fault => "Type error: " ++ fault.reason

end Reactive
