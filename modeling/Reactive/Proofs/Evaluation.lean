import Reactive.Machine.Run

/-!
# Reactive.Proofs.Evaluation — the value of an expression

`Run.evaluate` says what an expression means on a machine without instructions: by its parts, from left to right.

* the operands of a strict operator and the arguments of a call come in order, those behind the receiver;
* `&&` and `||` need a truth value on the left and have the right value as it is; `??` has the right one if the left
  one is null; a conditional has the branch taken;
* `string` and `Math` before a point name host helpers, unless a parameter has the name;
* members are read and called as the machine dispatches them.

`index` says which argument a name stands for, if it is one of a parameter.

An expression that has no instructions has no value: evaluation fails where lowering does.
-/

namespace Reactive

/-- The value of a constant. -/
def Literal.value : Literal → Value
  | null => .null
  | bool b => .bool b
  | int i => .int i
  | float x => .float x
  | string s => .string s

namespace Run

variable (enter : Enter) (a : Activation)

/-- An expression without a value. -/
def valueless {α : Type} (reason : Unsupported) : Run α := fail (.notCompiled (.unsupported a.method.name reason))

/-- A truth value is needed. -/
def truth (v : Value) : Run Bool := ofOption (.typeFault (.condition v.typeName)) v.bool?

/-- An argument by its number. -/
def argument (index : Nat) : Run Value :=
  ofOption (.typeFault (.argumentRange a.method.name index)) a.args[index]?

/-- What a bare name stands for: a parameter, or a member of the instance. -/
def nameValue (index : String → Option Nat) (name : String) : Run Value :=
  match index name with
  | some i => argument a i
  | none =>
    if Expr.hostReceivers.contains name then valueless a (.hostName name)
    else readOf enter a.refreshing name (.object a.receiver)

/-- The host helper that an expression names, unless a parameter has the name. -/
def hostName (index : String → Option Nat) : Expr → Option String
  | .name n _ => if (index n).isNone && Expr.hostReceivers.contains n then some n else none
  | _ => none

mutual

/-- The value of an expression. -/
def evaluate (index : String → Option Nat) : Expr → Run Value
  | .literal v _ => return v.value
  | .name n _ => nameValue enter a index n
  | .this _ => return .object a.receiver
  | .member object n _ =>
    match hostName index object with
    | some host => ofExcept (Value.callHost (host ++ "." ++ n) [])
    | none => do
      let v ← evaluate index object
      readOf enter a.refreshing n v
  | .call callee args _ => do
    let call ← target index callee
    let values ← evaluateAll index args
    call values
  | .unary op e _ => do
    let v ← evaluate index e
    ofExcept (v.unary op)
  | .binary .and l r _ => do
    let v ← evaluate index l
    if ← truth v then evaluate index r else return .bool false
  | .binary .or l r _ => do
    let v ← evaluate index l
    if ← truth v then return .bool true else evaluate index r
  | .binary .coalesce l r _ => do
    let v ← evaluate index l
    if v = .null then evaluate index r else return v
  | .binary op l r _ => do
    let left ← evaluate index l
    let right ← evaluate index r
    match StrictOp.ofBinary? op with
    | some strict => ofExcept (Value.binary strict left right)
    | none => return right
  | .conditional c t e _ => do
    let v ← evaluate index c
    if ← truth v then evaluate index t else evaluate index e
  | .lambda _ _ _ _ => valueless a .lambda

/-- What a call calls, with its receiver evaluated: it is left to give the arguments. -/
def target (index : String → Option Nat) : Expr → Run (List Value → Run Value)
  | .name n s =>
    if (index n).isNone then
      return fun args => callOn enter a.refreshing n args (.object a.receiver)
    else valueless a (.notCallable (Expr.name n s).text)
  | .member object n _ =>
    match hostName index object with
    | some host => return fun args => ofExcept (Value.callHost (host ++ "." ++ n) args)
    | none => do
      let v ← evaluate index object
      return fun args => callOn enter a.refreshing n args v
  | callee => valueless a (.notCallable callee.text)

/-- The values of expressions, in order. -/
def evaluateAll (index : String → Option Nat) : List Expr → Run (List Value)
  | [] => return []
  | e :: es => do
    let v ← evaluate index e
    let vs ← evaluateAll index es
    return v :: vs

end

variable {enter a} {index : String → Option Nat} {object l r : Expr} {n : String} {s : Span}

theorem evaluate_member (hhost : hostName index object = none) :
    evaluate enter a index (.member object n s) = (do
      let v ← evaluate enter a index object
      readOf enter a.refreshing n v) := by
  rw [evaluate, hhost]

theorem evaluate_host {host : String} (hhost : hostName index object = some host) :
    evaluate enter a index (.member object n s) = ofExcept (Value.callHost (host ++ "." ++ n) []) := by
  rw [evaluate, hhost]

theorem evaluate_strict {op : BinaryOp} {strict : StrictOp} (hop : StrictOp.ofBinary? op = some strict) :
    evaluate enter a index (.binary op l r s) = (do
      let left ← evaluate enter a index l
      let right ← evaluate enter a index r
      ofExcept (Value.binary strict left right)) := by
  cases op <;> cases hop <;> rfl

theorem evaluate_and : evaluate enter a index (.binary .and l r s) = (do
      let v ← evaluate enter a index l
      let d ← truth v
      if d = false then return .bool false else evaluate enter a index r) :=
  bind_congr fun _ => bind_congr fun d => by cases d <;> rfl

end Run

end Reactive
