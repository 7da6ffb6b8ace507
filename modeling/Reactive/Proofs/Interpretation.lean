import Reactive.Fragment
import Reactive.Proofs.Evaluation
import Reactive.Table

/-!
# Reactive.Proofs.Interpretation — what the statements of a method do

`Run.interpret` says what a statement means on a machine without instructions.

* A method keeps values under names: the old value of a slot, a fresh value, the registrations of locale objects.
* A statement goes on with what is kept then, or returns from the method; statements behind it are idle then.
* A hook is called if the class declares it; `declares` says which ones it does.
* `Run.interpretBody`: the value of a whole method, which is null if it does not return one.
-/

namespace Reactive

/-- The value that a method keeps under a name; before it keeps one it is null. -/
def Table.kept (names : Table Value) (name : String) : Value := (names.find? name).getD .null

/-- What a statement leads to. -/
inductive Flow
  /-- The next statement, with what is kept under names. -/
  | next (names : Table Value)
  | returned (value : Value)
deriving DecidableEq, Repr

/-- What follows a statement; it is idle if the method has returned. -/
def Flow.follow (flow : Flow) (rest : Table Value → Run Flow) : Run Flow :=
  match flow with
  | .next names => rest names
  | .returned v => return .returned v

namespace Run

variable (enter : Enter) (a : Activation) (declares : String → Bool) (params : List String)

/-- The value of an operand. -/
def operandValue : Operand → Run Value
  | .argument => argument a 0
  | .slot name => loadField a.receiver name
  | .expression body => evaluate enter a params.idxOf? body
  | .application function => applyStatic enter a.refreshing a.receiver function
  | .method name => invoke enter a.refreshing a.receiver name []
  | .bool b => return .bool b
  | .helperValue slot type => do
    let v ← loadField a.receiver slot
    if v = .null then return .defaultOf type.text else readOf enter a.refreshing "Value" v

mutual

/-- What a statement does. -/
def interpret (names : Table Value) : Statement → Run Flow
  | .returnIfUnchanged slot => do
    let current ← loadField a.receiver slot
    let value ← argument a 0
    return if current.equals value then .returned .null else .next names
  | .captureOld slot => do
    let current ← loadField a.receiver slot
    return .next (names.put "oldValue" current)
  | .raiseChanging property => do
    log (.changing a.receiver property)
    return .next names
  | .raiseChanged property => do
    raiseChanged enter a.refreshing a.receiver property
    return .next names
  | .callHook hook =>
    if declares hook then do
      let value ← argument a 0
      callHook enter a.refreshing a.receiver hook [names.kept "oldValue", value]
      return .next names
    else return .next names
  | .storeValue slot => do
    let value ← argument a 0
    storeField a.receiver slot value
    return .next names
  | .callMethod method passesValue => do
    let args ← if passesValue then (return [← argument a 0]) else pure []
    discard (invoke enter a.refreshing a.receiver method args)
    return .next names
  | .setIfChanged slot value property => do
    let fresh ← operandValue enter a params value
    let current ← loadField a.receiver slot
    let names := names.put "newValue" fresh
    if current.equals fresh then return .next names
    else do
      log (.changing a.receiver property)
      storeField a.receiver slot fresh
      raiseChanged enter a.refreshing a.receiver property
      return .next names
  | .store slot value => do
    let fresh ← operandValue enter a params value
    storeField a.receiver slot fresh
    return .next names
  | .ifUnset flag body => do
    let v ← loadField a.receiver flag
    if ← truth v then return .next names else interpretAll names body
  | .ret value => do
    let v ← operandValue enter a params value
    return .returned v
  | .returnCommand slot factory => do
    let current ← loadField a.receiver slot
    if current = .null then do
      let id ← newCommand enter a.refreshing a.receiver
        ⟨factory.method, factory.argumentType.isSome, factory.isAsync, factory.enablement⟩
      storeField a.receiver slot (.command id)
      return .returned (.command id)
    else return .returned current
  | .registerLocale registry grouping object => do
    let id ← addRegistration a.receiver registry grouping
    return .next (names.put object (.locale id))
  | .addLocaleProperty object key target retain =>
    match names.kept object with
    | .locale id => do
      addBinding id ⟨key, target, retain⟩
      return .next names
    | _ => typeFault .notRegistration

/-- What statements do, one after another. -/
def interpretAll (names : Table Value) : List Statement → Run Flow
  | [] => return .next names
  | s :: rest => do
    let flow ← interpret names s
    flow.follow fun names => interpretAll names rest

end

variable {enter a declares params} in
/-- A hook that the class does not declare is not called. -/
theorem interpret_callHook_undeclared {hook : String} (h : declares hook = false) (names : Table Value) :
    interpret enter a declares params names (.callHook hook) = return .next names := by
  rw [interpret, h, if_neg Bool.false_ne_true]

/-- The value of a method with the statements. -/
def interpretBody (ss : List Statement) : Run Value := do
  match ← interpretAll enter a declares params [] ss with
  | .next _ => return .null
  | .returned v => return v

end Run

end Reactive
