import Reactive.Machine.Session
import Reactive.Proofs.Quiet

/-!
# Reactive.Proofs.Sessions — machines that are reached from outside

* `Machine.Of`: every object and every class of a machine is one of some loaded classes.
* `Reachable`: the machines that are reached by loading these classes and by whatever is asked of them, be it granted or
  not; all of them are machines of these classes (`Reachable.of`).
-/

namespace Reactive

open Stateful

/-- A class of some loaded ones. -/
def ClassImage.Among (classes : List LoadedClass) (image : ClassImage) : Prop := ∃ L ∈ classes, image = L.image

/-- The objects and classes of the machine are those of some loaded classes. -/
structure Machine.Of (classes : List LoadedClass) (m : Machine) : Prop where
  objects : ∀ i ∈ m.objects, i.image.Among classes
  classes : ∀ name image, m.classes.find? name = some image → image.Among classes

namespace Run

variable {classes : List LoadedClass}

section

variable {α : Type}

theorem keeps_ofOption (e : RuntimeError) (o : Option α) : Keeps (Machine.Of classes) (ofOption e o) := by
  cases o with
  | none => exact keeps_throw _
  | some a => exact keeps_pure a

theorem keeps_ofExcept (x : Except RuntimeError α) : Keeps (Machine.Of classes) (ofExcept x) := by
  cases x with
  | error e => exact keeps_throw _
  | ok a => exact keeps_pure a

theorem keeps_fail (e : RuntimeError) : Keeps (Machine.Of classes) (fail e : Run α) := keeps_throw _

end

/-! ### Objects, commands and registrations -/

theorem keeps_log (e : Event) : Keeps (Machine.Of classes) (log e) := keeps_modify fun _ h => ⟨h.objects, h.classes⟩

theorem keeps_instance (object : Nat) : Keeps (Machine.Of classes) (instance_ object) :=
  keeps_get.bind fun _ => keeps_ofOption _ _

theorem keeps_loadField (object : Nat) (field : String) : Keeps (Machine.Of classes) (loadField object field) :=
  (keeps_instance object).bind fun _ => keeps_ofOption _ _

theorem keeps_storeField (object : Nat) (field : String) (value : Value) :
    Keeps (Machine.Of classes) (storeField object field value) := by
  refine (keeps_instance object).discard.bind fun _ => keeps_modify fun m h => ⟨fun i hi => ?_, h.classes⟩
  obtain ⟨k, hk⟩ := List.mem_iff_getElem?.mp hi
  rw [List.getElem?_modify] at hk
  obtain ⟨j, hj, rfl⟩ := Option.map_eq_some_iff.mp hk
  have hmem := h.objects j (List.mem_of_getElem? hj)
  split <;> exact hmem

theorem keeps_accessor (object : Nat) (property : String) (pick : PropertyDef → Option String) :
    Keeps (Machine.Of classes) (accessor object property pick) :=
  (keeps_instance object).bind fun _ => keeps_ofOption _ _

theorem keeps_command (id : Nat) : Keeps (Machine.Of classes) (command_ id) :=
  keeps_get.bind fun _ => keeps_ofOption _ _

theorem keeps_addCommand (owner : Nat) (spec : CommandSpec) (enabled : Bool) :
    Keeps (Machine.Of classes) (addCommand owner spec enabled) :=
  keeps_get.bind fun _ => (keeps_modify fun _ h => ⟨h.objects, h.classes⟩).bind fun _ => keeps_pure _

theorem keeps_setEnabled (id : Nat) (enabled : Bool) : Keeps (Machine.Of classes) (setEnabled id enabled) := by
  refine (keeps_command id).bind fun c => ?_
  split
  · exact (keeps_modify fun _ h => ⟨h.objects, h.classes⟩).bind fun _ => keeps_log _
  · exact keeps_pure _

theorem keeps_addRegistration (owner : Nat) (registry : String) (grouping : Option String) :
    Keeps (Machine.Of classes) (addRegistration owner registry grouping) :=
  keeps_get.bind fun _ => (keeps_modify fun _ h => ⟨h.objects, h.classes⟩).bind fun _ => keeps_pure _

theorem keeps_addBinding (id : Nat) (entry : LocaleEntry) : Keeps (Machine.Of classes) (addBinding id entry) :=
  keeps_get.bind fun _ => (keeps_ofOption _ _).discard.bind fun _ => keeps_modify fun _ h => ⟨h.objects, h.classes⟩

/-- A new object is one of a class among those. -/
theorem keeps_allocate {image : ClassImage} (himage : image.Among classes) :
    Keeps (Machine.Of classes) (allocate image) := by
  refine keeps_get.bind fun _ => (keeps_modify fun m h => ⟨fun i hi => ?_, h.classes⟩).bind fun _ => keeps_pure _
  obtain hi | hi := List.mem_append.mp hi
  · exact h.objects i hi
  · exact List.mem_singleton.mp hi ▸ himage

/-! ### Methods -/

section

variable {enter : Enter} (he : ∀ a, Keeps (Machine.Of classes) (enter a))

include he

theorem keeps_invoke (refreshing : List Nat) (object : Nat) (name : String) (args : List Value) :
    Keeps (Machine.Of classes) (invoke enter refreshing object name args) := by
  refine (keeps_instance object).bind fun i => ?_
  dsimp only
  split
  · exact he _
  · split
    · exact (keeps_log _).bind fun _ => keeps_pure _
    · split <;> exact keeps_fail _

theorem keeps_read (refreshing : List Nat) (object : Nat) (property : String) :
    Keeps (Machine.Of classes) (read enter refreshing object property) :=
  (keeps_accessor object property _).bind fun _ => keeps_invoke he refreshing object _ _

theorem keeps_callHook (refreshing : List Nat) (object : Nat) (name : String) (args : List Value) :
    Keeps (Machine.Of classes) (callHook enter refreshing object name args) := by
  refine (keeps_log _).bind fun _ => (keeps_instance object).bind fun i => ?_
  split
  · exact (keeps_invoke he refreshing object name args).discard
  · exact keeps_pure _

theorem keeps_applyStatic (refreshing : List Nat) (object : Nat) (name : String) :
    Keeps (Machine.Of classes) (applyStatic enter refreshing object name) :=
  (keeps_instance object).bind fun _ => (keeps_ofOption _ _).bind fun _ => he _

theorem keeps_enablement (refreshing : List Nat) (object : Nat) (property : String) :
    Keeps (Machine.Of classes) (enablement enter refreshing object property) :=
  (keeps_read he refreshing object property).bind fun _ => keeps_ofOption _ _

theorem keeps_newCommand (refreshing : List Nat) (owner : Nat) (spec : CommandSpec) :
    Keeps (Machine.Of classes) (newCommand enter refreshing owner spec) := by
  unfold newCommand
  split
  · exact (keeps_enablement he refreshing owner _).bind fun _ => keeps_addCommand _ _ _
  · exact keeps_addCommand _ _ _

theorem keeps_refreshAll (refreshing : List Nat) (object : Nat) (property : String) :
    ∀ ids : List Nat, Keeps (Machine.Of classes) (refreshAll enter refreshing object property ids)
  | [] => keeps_pure _
  | id :: rest => by
    have hrest := keeps_refreshAll refreshing object property rest
    rw [refreshAll]
    by_cases hid : refreshing.contains id = true
    · rw [if_pos hid]
      exact hrest
    · rw [if_neg hid]
      refine Keeps.bind (keeps_enablement he _ _ _) fun enabled => ?_
      exact (keeps_setEnabled id enabled).bind fun _ => hrest

theorem keeps_raiseChanged (refreshing : List Nat) (object : Nat) (property : String) :
    Keeps (Machine.Of classes) (raiseChanged enter refreshing object property) :=
  (keeps_log _).bind fun _ => keeps_get.bind fun _ => keeps_refreshAll he refreshing object property _

theorem keeps_readOf (refreshing : List Nat) (name : String) (v : Value) :
    Keeps (Machine.Of classes) (readOf enter refreshing name v) := by
  cases v with
  | object id => exact keeps_read he refreshing id name
  | string s => exact keeps_ofExcept _
  | _ => exact keeps_fail _

theorem keeps_callOn (refreshing : List Nat) (name : String) (args : List Value) (v : Value) :
    Keeps (Machine.Of classes) (callOn enter refreshing name args v) := by
  cases v with
  | object id => exact keeps_invoke he refreshing id name args
  | string s => exact keeps_ofExcept _
  | _ => exact keeps_fail _

omit he in
theorem keeps_pop (f : Frame) : Keeps (Machine.Of classes) (pop f) := by
  unfold pop
  split
  · exact keeps_pure _
  · exact keeps_fail _

omit he in
theorem keeps_popMany (f : Frame) (n : UInt8) : Keeps (Machine.Of classes) (popMany f n) := keeps_ofOption _ _

omit he in
theorem keeps_popBool (f : Frame) : Keeps (Machine.Of classes) (popBool f) :=
  (keeps_pop f).bind fun _ => (keeps_ofOption _ _).bind fun _ => keeps_pure _

/-- One instruction. -/
theorem keeps_step (a : Activation) (f : Frame) (i : Instruction) : Keeps (Machine.Of classes) (step enter a f i) := by
  cases i with
  | pushNull | pushBool | pushInt | pushFloat | pushString | pushDefault | loadThis | jump | retVoid =>
    exact keeps_pure _
  | loadArg index => exact (keeps_ofOption _ _).bind fun _ => keeps_pure _
  | loadLocal index => exact (keeps_ofOption _ _).bind fun _ => keeps_pure _
  | storeLocal index =>
    refine (keeps_pop f).bind fun _ => ?_
    dsimp only
    split
    · exact keeps_pure _
    · exact keeps_fail _
  | loadField name => exact (keeps_loadField _ name).bind fun _ => keeps_pure _
  | storeField name => exact (keeps_pop f).bind fun _ => (keeps_storeField _ name _).bind fun _ => keeps_pure _
  | getProperty name => exact (keeps_pop f).bind fun _ => (keeps_readOf he _ name _).bind fun _ => keeps_pure _
  | callMethod name argc =>
    exact (keeps_popMany f argc).bind fun _ => (keeps_pop _).bind fun _ =>
      (keeps_callOn he _ name _ _).bind fun _ => keeps_pure _
  | callHook name argc =>
    exact (keeps_popMany f argc).bind fun _ => (keeps_callHook he _ _ name _).bind fun _ => keeps_pure _
  | callStatic name =>
    refine (keeps_pop f).bind fun v => ?_
    obtain ⟨v, f⟩ := v
    cases v with
    | object id => exact (keeps_applyStatic he _ id name).bind fun _ => keeps_pure _
    | _ => exact keeps_fail _
  | callHost name argc =>
    exact (keeps_popMany f argc).bind fun _ => (keeps_ofExcept _).bind fun _ => keeps_pure _
  | unary op => exact (keeps_pop f).bind fun _ => (keeps_ofExcept _).bind fun _ => keeps_pure _
  | binary op =>
    exact (keeps_pop f).bind fun _ => (keeps_pop _).bind fun _ => (keeps_ofExcept _).bind fun _ => keeps_pure _
  | dup => exact (keeps_pop f).bind fun _ => keeps_pure _
  | pop => exact (keeps_pop f).bind fun _ => keeps_pure _
  | jumpIfFalse target => exact (keeps_popBool f).bind fun _ => keeps_pure _
  | jumpIfTrue target => exact (keeps_popBool f).bind fun _ => keeps_pure _
  | jumpIfNotNull target => exact (keeps_pop f).bind fun _ => keeps_pure _
  | raiseChanging property => exact (keeps_log _).bind fun _ => keeps_pure _
  | raiseChanged property => exact (keeps_raiseChanged he _ _ property).bind fun _ => keeps_pure _
  | newCommand spec => exact (keeps_newCommand he _ _ spec).bind fun _ => keeps_pure _
  | registerLocale registry grouping => exact (keeps_addRegistration _ _ _).bind fun _ => keeps_pure _
  | addLocaleProperty key target retain =>
    refine (keeps_pop f).bind fun v => ?_
    obtain ⟨v, f⟩ := v
    cases v with
    | locale id => exact (keeps_addBinding id _).bind fun _ => keeps_pure _
    | _ => exact keeps_fail _
  | ret => exact (keeps_pop f).bind fun _ => keeps_pure _

theorem keeps_body (a : Activation) : ∀ (fuel : Nat) (f : Frame), Keeps (Machine.Of classes) (body enter a fuel f)
  | 0, _ => keeps_throw _
  | fuel + 1, f => by
    rw [body]
    split
    · exact keeps_pure _
    · refine (keeps_step he a _ _).bind fun o => ?_
      cases o with
      | go f => exact keeps_body a fuel f
      | returned v => exact keeps_pure v

end

/-- A run does not change what the objects are. -/
theorem keeps_enter (fuel : Nat) : ∀ (depth : Nat) (a : Activation), Keeps (Machine.Of classes) (enter fuel depth a)
  | 0, _ => keeps_fail _
  | depth + 1, a => keeps_body (keeps_enter fuel depth) a fuel _

end Run

/-! ### From outside -/

/-- What is asked of a machine. -/
inductive Action
  | construct (className : String)
  | get (object : Nat) (property : String)
  | set (object : Nat) (property : String) (value : Value)
  | call (object : Nat) (method : String) (args : List Value)
  | command (object : Nat) (property : String)
  | canExecute (id : Nat)
  | execute (id : Nat) (argument : Option Value)
deriving DecidableEq, Repr

namespace Action

open Run

/-- What is done about it. -/
def perform (fuel : Nat) : Action → Run Unit
  | construct className => discard (Run.construct fuel className)
  | get object property => discard (getProperty fuel object property)
  | set object property value => setProperty fuel object property value
  | call object method args => discard (Run.call fuel object method args)
  | command object property => discard (Run.command fuel object property)
  | canExecute id => discard (Run.canExecute id)
  | execute id argument => discard (Run.execute fuel id argument)

theorem keeps_perform {classes : List LoadedClass} (fuel : Nat) (action : Action) :
    Keeps (Machine.Of classes) (action.perform fuel) := by
  have he (a : Activation) : Keeps (Machine.Of classes) (enter fuel maxDepth a) := keeps_enter fuel maxDepth a
  cases action with
  | construct className =>
    refine Keeps.discard ?_
    intro m hm
    -- The class is looked up in the table of the machine, so it is among the loaded ones.
    cases hclass : m.classes.find? className with
    | none =>
      have hfail : Run.construct fuel className m = .error (.failed (.unknownClass className)) m := by
        unfold Run.construct
        rw [bind_of_ok (show (MonadState.get : Run Machine) m = .ok m m from rfl), hclass]
        rfl
      rw [hfail]
      exact hm
    | some image =>
      unfold Run.construct
      rw [bind_of_ok (show (MonadState.get : Run Machine) m = .ok m m from rfl), hclass,
        show (ofOption (.unknownClass className) (some image) : Run ClassImage) = pure image from rfl, pure_bind]
      refine Keeps.bind (keeps_allocate (hm.classes className image hclass)) (fun id => ?_) m hm
      refine (keeps_forM fun i _ => (he _).bind fun v => ?_).bind fun _ => ?_
      · split
        · exact keeps_storeField _ _ _
        · exact (keeps_invoke he _ _ _ _).discard
      · split
        · exact (keeps_invoke he _ _ _ _).discard.bind fun _ => keeps_pure _
        · exact keeps_pure _
  | get object property => exact (keeps_read he _ object property).discard
  | set object property value =>
    exact (keeps_accessor object property _).bind fun _ => (keeps_invoke he _ object _ _).discard
  | call object method args => exact (keeps_invoke he _ object method args).discard
  | command object property =>
    refine Keeps.discard ((keeps_read he _ object property).bind fun v => ?_)
    cases v with
    | command id => exact keeps_pure _
    | _ => exact keeps_fail _
  | canExecute id => exact ((keeps_command id).bind fun _ => keeps_pure _).discard
  | execute id argument =>
    refine Keeps.discard ((keeps_command id).bind fun c => ?_)
    have hcall (args : List Value) : Keeps (Machine.Of classes) (Run.call fuel c.owner c.spec.method args) :=
      keeps_invoke he _ _ _ _
    by_cases henabled : c.enabled = true
    · simp only [henabled, if_true]
      exact hcall _
    · simp only [henabled]
      exact (keeps_fail _).bind fun _ => hcall _

end Action

/-- A machine is reached from an empty one by loading some classes and by what is asked of it, be it granted or not. -/
inductive Reachable (classes : List LoadedClass) : Machine → Prop
  | empty : Reachable classes .empty
  | load {m : Machine} {L : LoadedClass} (before : Reachable classes m) (mem : L ∈ classes) :
    Reachable classes (m.load L.image)
  | perform {m : Machine} (before : Reachable classes m) (fuel : Nat) (action : Action) :
    Reachable classes (final (action.perform fuel m))
  | clear {m : Machine} (before : Reachable classes m) : Reachable classes m.clearEvents

theorem Machine.Of.load {classes : List LoadedClass} {m : Machine} {L : LoadedClass} (h : m.Of classes)
    (mem : L ∈ classes) : (m.load L.image).Of classes := by
  refine ⟨h.objects, fun name image hfind => ?_⟩
  have hput : (m.classes.put L.image.name L.image).find? name = some image := hfind
  rw [Table.find?_put] at hput
  split at hput
  · cases hput
    exact ⟨L, mem, rfl⟩
  · exact h.classes name image hput

theorem Machine.Of.clearEvents {classes : List LoadedClass} {m : Machine} (h : m.Of classes) :
    m.clearEvents.Of classes := ⟨h.objects, h.classes⟩

/-- The objects and classes of a reachable machine are those of the loaded classes. -/
theorem Reachable.of {classes : List LoadedClass} {m : Machine} (h : Reachable classes m) : m.Of classes := by
  induction h with
  | empty => exact ⟨nofun, nofun⟩
  | load _ mem ih => exact ih.load mem
  | perform _ fuel action ih => exact action.keeps_perform fuel _ ih
  | clear _ ih => exact ih.clearEvents

/-- In a reachable machine an object of its own class is in the scene. -/
theorem Scene.at_of_reachable {S : Scene} {m : Machine} (h : Reachable S.classes m) {i : Instance}
    (hi : m.objects[S.object]? = some i) (himage : i.image = S.own.image) : S.At S.object S.own m := by
  refine ⟨fun r j hj => ?_, S.mem, fun _ => rfl, fun _ => rfl, i, hi, himage⟩
  by_cases hr : r = S.object
  · subst hr
    rw [hi] at hj
    cases hj
    exact ⟨S.own, S.mem, himage, fun _ => rfl⟩
  · obtain ⟨L, hL, hj⟩ := h.of.objects j (List.mem_of_getElem? hj)
    exact ⟨L, hL, hj, fun heq => absurd heq hr⟩

end Reactive
