import Reactive.Machine.Stepping
import Reactive.Proofs.Congruence

/-!
# Reactive.Proofs.Stepping — instructions and what they wait for

* `step_eq`: an instruction is what it does up to where it waits (`progress`), and then what it waits for (`settle`).
* `Prompt`: a computation that is never exhausted; whatever is done without entering a method is one.
-/

namespace Reactive

open Stateful

/-- The method as it is entered from inside another one. -/
def Call.under (c : Call) (refreshing : List Nat) : Activation := ⟨c.method, c.receiver, c.args, refreshing⟩

namespace Run

variable {α β : Type}

/-! ### Instructions and what they wait for -/

/-- Runs the method that was found. -/
def finish (enter : Enter) (refreshing : List Nat) : Dispatch → Run Value
  | .enters c => enter (c.under refreshing)
  | .finished v => pure v

/-- Creates a command that a property enables, and pushes it. -/
def pushCommand (enter : Enter) (refreshing : List Nat) (object : Nat) (spec : CommandSpec) (property : String)
    (f : Frame) : Run Frame := do
  let id ← addCommand object spec (← enablement enter refreshing object property)
  return f.push (.command id)

/-- Does what a frame waits for. -/
def settle (enter : Enter) (refreshing : List Nat) (object : Nat) : Progress → Run Outcome
  | .goes f => pure (.go f)
  | .returns v => pure (.returned v)
  | .calls c wanted f => do return .go (f.resumed wanted (← enter (c.under refreshing)))
  | .refreshes property commands f => do
    refreshAll enter refreshing object property commands
    return .go f
  | .creates spec property f => do return .go (← pushCommand enter refreshing object spec property f)

section

variable (enter : Enter) (refreshing : List Nat)

theorem invoke_eq (object : Nat) (name : String) (args : List Value) :
    invoke enter refreshing object name args = dispatch object name args >>= finish enter refreshing := by
  unfold invoke dispatch
  rw [bind_assoc]
  congr 1
  funext i
  dsimp only
  cases i.image.methods.find? name with
  | some method => rfl
  | none =>
    by_cases hbodiless : i.image.externs.contains name = true
    · simp only [hbodiless, if_true, bind_assoc, pure_bind, finish]
    · simp only [hbodiless]
      cases i.image.opaqueBodies.find? name <;> rfl

theorem read_eq (object : Nat) (property : String) :
    read enter refreshing object property = dispatchGetter object property >>= finish enter refreshing := by
  unfold read dispatchGetter
  rw [bind_assoc]
  congr 1
  funext name
  exact invoke_eq enter refreshing object name []

theorem callFrom_bind_settle (found : Run Dispatch) (wanted : Bool) (f : Frame) (object : Nat) :
    callFrom found wanted f >>= settle enter refreshing object =
      (found >>= finish enter refreshing) >>= fun v => pure (.go (f.resumed wanted v)) := by
  unfold callFrom
  rw [bind_assoc, bind_assoc]
  congr 1
  funext d
  cases d with
  | enters c => rfl
  | finished v => rfl

/-- **An instruction is what it does up to where it waits, and then what it waits for.** -/
theorem step_eq (c : Call) (f : Frame) (i : Instruction) :
    step enter (c.under refreshing) f i = progress c f i >>= settle enter refreshing c.receiver := by
  have hsimple (h : step enter (c.under refreshing) f i =
      step (fun _ => throw .exhausted) ⟨c.method, c.receiver, c.args, []⟩ f i) :
      step enter (c.under refreshing) f i = simple c f i >>= settle enter refreshing c.receiver := by
    unfold simple
    rw [h, bind_assoc]
    refine (bind_pure _).symm.trans ?_
    congr 1
    funext o
    cases o <;> rfl
  cases i with
  | getProperty name =>
    simp only [step, progress, bind_assoc]
    congr 1
    funext ⟨v, f⟩
    cases v with
    | object id =>
      show _ = callFrom _ _ _ >>= _
      rw [callFrom_bind_settle, ← read_eq]
      rfl
    | string s =>
      show _ = (ofExcept _ >>= _) >>= _
      rw [bind_assoc]
      rfl
    | _ => rfl
  | callMethod name argc =>
    simp only [step, progress, bind_assoc]
    congr 1
    funext ⟨args, f⟩
    congr 1
    funext ⟨v, f⟩
    cases v with
    | object id =>
      show _ = callFrom _ _ _ >>= _
      rw [callFrom_bind_settle, ← invoke_eq]
      rfl
    | string s =>
      show _ = (ofExcept _ >>= _) >>= _
      rw [bind_assoc]
      rfl
    | _ => rfl
  | callHook name argc =>
    simp only [step, progress, callHook, bind_assoc]
    congr 1
    funext ⟨args, f⟩
    congr 1
    funext _
    congr 1
    funext i
    split
    · rw [callFrom_bind_settle, ← invoke_eq, discard_bind]
      rfl
    · rfl
  | callStatic name =>
    simp only [step, progress, bind_assoc]
    congr 1
    funext ⟨v, f⟩
    cases v with
    | object id =>
      simp only [applyStatic, bind_assoc]
      rfl
    | _ => rfl
  | raiseChanged property =>
    simp only [step, progress, raiseChanged, bind_assoc]
    rfl
  | newCommand spec =>
    simp only [step, progress, newCommand]
    cases spec.canExecute with
    | some property => simp only [bind_assoc, pure_bind, settle, pushCommand]; rfl
    | none => rfl
  | _ => exact hsimple rfl

end

/-! ### What is never exhausted -/

/-- The computation is not exhausted on any machine. -/
def Prompt (x : Run α) : Prop := Fails (· ≠ .exhausted) x

theorem prompt_fail (e : RuntimeError) : Prompt (fail e : Run α) := by
  rintro m _ m' ⟨⟩
  nofun

theorem prompt_ofOption (e : RuntimeError) (o : Option α) : Prompt (ofOption e o) := fails_ofOption (by nofun) o

theorem prompt_ofExcept (x : Except RuntimeError α) : Prompt (ofExcept x) := by
  cases x with
  | error e => exact prompt_fail e
  | ok a => exact fails_pure a

theorem prompt_instance (object : Nat) : Prompt (instance_ object) := fails_instance (by nofun) object

theorem prompt_command (id : Nat) : Prompt (command_ id) := fails_command (by nofun) id

theorem prompt_accessor (object : Nat) (property : String) (pick : PropertyDef → Option String) :
    Prompt (accessor object property pick) :=
  (prompt_instance object).bind fun _ => prompt_ofOption _ _

theorem prompt_storeField (object : Nat) (field : String) (v : Value) : Prompt (storeField object field v) :=
  (prompt_instance object).discard.bind fun _ => fails_modify _

theorem prompt_addCommand (owner : Nat) (spec : CommandSpec) (enabled : Bool) :
    Prompt (addCommand owner spec enabled) :=
  fails_get.bind fun _ => (fails_modify _).bind fun _ => fails_pure _

theorem prompt_setEnabled (id : Nat) (enabled : Bool) : Prompt (setEnabled id enabled) := by
  refine (prompt_command id).bind fun c => ?_
  split
  · exact (fails_modify _).bind fun _ => fails_modify _
  · exact fails_pure _

theorem prompt_allocate (image : ClassImage) : Prompt (allocate image) :=
  fails_get.bind fun _ => (fails_modify _).bind fun _ => fails_pure _

theorem prompt_newObject (className : String) : Prompt (newObject className) :=
  fails_get.bind fun _ => (prompt_ofOption _ _).bind fun image => (prompt_allocate image).bind fun _ => fails_pure _

theorem prompt_dispatch (object : Nat) (name : String) (args : List Value) : Prompt (dispatch object name args) := by
  refine (prompt_instance object).bind fun i => ?_
  dsimp only
  split
  · exact fails_pure _
  · split
    · exact (fails_modify _).bind fun _ => fails_pure _
    · split <;> exact prompt_fail _

theorem prompt_dispatchGetter (object : Nat) (property : String) : Prompt (dispatchGetter object property) :=
  (prompt_accessor object property _).bind fun _ => prompt_dispatch _ _ _

theorem prompt_gateOf (property : String) (v : Value) : Prompt (gateOf property v) := prompt_ofOption _ _

theorem prompt_pop (f : Frame) : Prompt (pop f) := by
  unfold pop
  split
  · exact fails_pure _
  · exact prompt_fail _

theorem prompt_popMany (f : Frame) (n : UInt8) : Prompt (popMany f n) := prompt_ofOption _ _

theorem prompt_popBool (f : Frame) : Prompt (popBool f) :=
  (prompt_pop f).bind fun _ => (prompt_ofOption _ _).bind fun _ => fails_pure _

theorem prompt_callFrom {found : Run Dispatch} (h : Prompt found) (wanted : Bool) (f : Frame) :
    Prompt (callFrom found wanted f) := by
  refine h.bind fun d => ?_
  cases d <;> exact fails_pure _

/-- An instruction that waits for nothing. -/
theorem prompt_simple (c : Call) (f : Frame) (i : Instruction)
    (h : Prompt (step (fun _ => throw .exhausted) ⟨c.method, c.receiver, c.args, []⟩ f i)) : Prompt (simple c f i) := by
  refine h.bind fun o => ?_
  cases o <;> exact fails_pure _

/-- An instruction up to where it waits. -/
theorem prompt_progress (c : Call) (f : Frame) (i : Instruction) : Prompt (progress c f i) := by
  cases i with
  | getProperty name =>
    refine (prompt_pop f).bind fun ⟨v, f⟩ => ?_
    cases v with
    | object id => exact prompt_callFrom (prompt_dispatchGetter id name) true f
    | string s => exact (prompt_ofExcept _).bind fun _ => fails_pure _
    | _ => exact prompt_fail _
  | callMethod name argc =>
    refine (prompt_popMany f argc).bind fun ⟨args, f⟩ => (prompt_pop f).bind fun ⟨v, f⟩ => ?_
    cases v with
    | object id => exact prompt_callFrom (prompt_dispatch id name args) true f
    | string s => exact (prompt_ofExcept _).bind fun _ => fails_pure _
    | _ => exact prompt_fail _
  | callHook name argc =>
    refine (prompt_popMany f argc).bind fun ⟨args, f⟩ => (fails_modify _).bind fun _ => ?_
    refine (prompt_instance _).bind fun i => ?_
    split
    · exact prompt_callFrom (prompt_dispatch _ name args) false f
    · exact fails_pure _
  | callStatic name =>
    refine (prompt_pop f).bind fun ⟨v, f⟩ => ?_
    cases v with
    | object id => exact (prompt_instance id).bind fun _ => (prompt_ofOption _ _).bind fun _ => fails_pure _
    | _ => exact prompt_fail _
  | raiseChanged property => exact (fails_modify _).bind fun _ => fails_get.bind fun _ => fails_pure _
  | newCommand spec =>
    simp only [progress]
    split
    · exact fails_pure _
    · exact (prompt_addCommand _ spec true).bind fun _ => fails_pure _
  | pushNull | pushBool | pushInt | pushFloat | pushString | pushDefault | loadThis | jump | retVoid =>
    exact prompt_simple c f _ (fails_pure _)
  | loadArg index => exact prompt_simple c f _ ((prompt_ofOption _ _).bind fun _ => fails_pure _)
  | loadLocal index => exact prompt_simple c f _ ((prompt_ofOption _ _).bind fun _ => fails_pure _)
  | storeLocal index =>
    refine prompt_simple c f _ ((prompt_pop f).bind fun _ => ?_)
    dsimp only
    split
    · exact fails_pure _
    · exact prompt_fail _
  | loadField name =>
    exact prompt_simple c f _ (((prompt_instance _).bind fun _ => prompt_ofOption _ _).bind fun _ => fails_pure _)
  | storeField name =>
    exact prompt_simple c f _ ((prompt_pop f).bind fun _ => (prompt_storeField _ name _).bind fun _ => fails_pure _)
  | callHost name argc =>
    exact prompt_simple c f _ ((prompt_popMany f argc).bind fun _ => (prompt_ofExcept _).bind fun _ => fails_pure _)
  | unary op => exact prompt_simple c f _ ((prompt_pop f).bind fun _ => (prompt_ofExcept _).bind fun _ => fails_pure _)
  | binary op =>
    refine prompt_simple c f _ ((prompt_pop f).bind fun _ => (prompt_pop _).bind fun _ => ?_)
    exact (prompt_ofExcept _).bind fun _ => fails_pure _
  | dup => exact prompt_simple c f _ ((prompt_pop f).bind fun _ => fails_pure _)
  | pop => exact prompt_simple c f _ ((prompt_pop f).bind fun _ => fails_pure _)
  | jumpIfFalse target => exact prompt_simple c f _ ((prompt_popBool f).bind fun _ => fails_pure _)
  | jumpIfTrue target => exact prompt_simple c f _ ((prompt_popBool f).bind fun _ => fails_pure _)
  | jumpIfNotNull target => exact prompt_simple c f _ ((prompt_pop f).bind fun _ => fails_pure _)
  | raiseChanging property => exact prompt_simple c f _ ((fails_modify _).bind fun _ => fails_pure _)
  | registerLocale registry grouping =>
    refine prompt_simple c f _ ((fails_get.bind fun _ => ?_).bind fun _ => fails_pure _)
    exact (fails_modify _).bind fun _ => fails_pure _
  | addLocaleProperty key target retain =>
    refine prompt_simple c f _ ((prompt_pop f).bind fun ⟨v, f⟩ => ?_)
    cases v with
    | locale id =>
      refine (fails_get.bind fun _ => ?_).bind fun _ => fails_pure _
      exact (prompt_ofOption _ _).discard.bind fun _ => fails_modify _
    | _ => exact prompt_fail _
  | ret => exact prompt_simple c f _ ((prompt_pop f).bind fun _ => fails_pure _)

end Run

end Reactive
