import Reactive.Expr.Printer
import Reactive.Patch.Builder

/-!
# Reactive.Patch.Lowering — expressions as instructions

The instructions of an expression leave its value on the stack.  Operands are evaluated from left to right; `&&`, `||`
and `??` evaluate the right one only if the left one does not decide, and a conditional only the branch taken.
-/

namespace Reactive

/-- The names that an expression sees. -/
structure Scope where
  /-- Parameters, in the order of the arguments. -/
  params : List String
  /-- Other names are members of an instance. -/
  hasThis : Bool
deriving DecidableEq, Repr

namespace Scope

/-- Inside a method of an instance. -/
def ofInstance (params : List String) : Scope := ⟨params, true⟩

/-- Inside a hoisted function. -/
def detached (params : List String) : Scope := ⟨params, false⟩

/-- The number of a parameter. -/
def param? (s : Scope) (name : String) : Option UInt16 := (s.params.idxOf? name).map UInt16.ofNat

/-- The host helper that an expression names, unless a parameter has the name. -/
def host? (s : Scope) : Expr → Option String
  | .name n _ => if (s.param? n).isNone && Expr.hostReceivers.contains n then some n else none
  | _ => none

end Scope

/-- The instruction that pushes a constant. -/
def Literal.instruction : Literal → Instruction
  | null => .pushNull
  | bool b => .pushBool b
  | int i => .pushInt i
  | float x => .pushFloat x
  | string s => .pushString s

namespace Build

/-- Pushes the instance. -/
def loadThis (scope : Scope) : Build Unit :=
  if scope.hasThis then emit .loadThis else unsupported .instanceRead

/-- Pushes what a bare name stands for. -/
def loadName (scope : Scope) (name : String) : Build Unit :=
  match scope.param? name with
  | some index => emit (.loadArg index)
  | none =>
    if Expr.hostReceivers.contains name then unsupported (.hostName name)
    else do
      loadThis scope
      emit (.getProperty name)

mutual

/-- The instructions of an expression. -/
def expression (scope : Scope) : Expr → Build Unit
  | .literal v _ => emit v.instruction
  | .name n _ => loadName scope n
  | .this _ => loadThis scope
  | .member object n _ =>
    match scope.host? object with
    | some host => emit (.callHost (host ++ "." ++ n) 0)
    | none => do
      expression scope object
      emit (.getProperty n)
  | .call callee args _ =>
    if args.length < 256 then do
      let invoke ← receiver scope callee
      arguments scope args
      emit (invoke (UInt8.ofNat args.length))
    else unsupported .tooManyArguments
  | .unary op e _ => do
    expression scope e
    emit (.unary op)
  | .binary .and l r _ => do
    let short ← newLabel
    let done ← newLabel
    expression scope l
    emitJump .jumpIfFalse short
    expression scope r
    emitJump .jump done
    bind short
    emit (.pushBool false)
    bind done
  | .binary .or l r _ => do
    let short ← newLabel
    let done ← newLabel
    expression scope l
    emitJump .jumpIfTrue short
    expression scope r
    emitJump .jump done
    bind short
    emit (.pushBool true)
    bind done
  | .binary .coalesce l r _ => do
    let done ← newLabel
    expression scope l
    emitJump .jumpIfNotNull done
    expression scope r
    bind done
  | .binary op l r _ =>
    match StrictOp.ofBinary? op with
    | some strict => do
      expression scope l
      expression scope r
      emit (.binary strict)
    | none => throw (.internal (.notStrict op))
  | .conditional c t e _ => do
    let otherwise ← newLabel
    let done ← newLabel
    expression scope c
    emitJump .jumpIfFalse otherwise
    expression scope t
    emitJump .jump done
    bind otherwise
    expression scope e
    bind done
  | .lambda _ _ _ _ => unsupported .lambda

/-- The instructions of the receiver of a call, and the instruction that calls it once the arguments are pushed. -/
def receiver (scope : Scope) : Expr → Build (UInt8 → Instruction)
  | .name n s =>
    if (scope.param? n).isNone then do
      loadThis scope
      return .callMethod n
    else unsupported (.notCallable (Expr.name n s).text)
  | .member object n _ =>
    match scope.host? object with
    | some host => return .callHost (host ++ "." ++ n)
    | none => do
      expression scope object
      return .callMethod n
  | callee => unsupported (.notCallable callee.text)

/-- The instructions of arguments, in order. -/
def arguments (scope : Scope) : List Expr → Build Unit
  | [] => pure ()
  | e :: es => do
    expression scope e
    arguments scope es

end

variable {scope : Scope} {object : Expr} {n : String} {s : Span}

theorem expression_member (h : scope.host? object = none) :
    expression scope (.member object n s) = (do expression scope object; emit (.getProperty n)) := by
  rw [expression, h]

theorem receiver_member (h : scope.host? object = none) :
    receiver scope (.member object n s) = (do expression scope object; return .callMethod n) := by
  rw [receiver, h]

end Build

/-- The method that returns the value of an expression. -/
def CompiledMethod.ofBody (name : String) (scope : Scope) (body : Expr) : Except CompileError CompiledMethod :=
  match Build.expression scope body (.start name (UInt16.ofNat scope.params.length)) with
  | .ok _ b => (b.push .ret).build
  | .error e _ => .error e

end Reactive
