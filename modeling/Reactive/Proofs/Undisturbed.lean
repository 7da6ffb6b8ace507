import Reactive.Proofs.Emitting
import Reactive.Proofs.Stepping

/-!
# Reactive.Proofs.Undisturbed — what instructions leave as it is

An instruction that registers no locale object changes neither the registrations nor what the objects are of.

* `Machine.Grows`: there may be more objects; `Machine.Undisturbed`: and the registrations are the same.
* `Run.Leaves`: a computation disturbs nothing, and its value has a property.
* `Run.leaves_progress`: so it is with an instruction that registers nothing, and the frame of its method goes on behind
  it or where it jumps to; methods that it calls are those of the objects that they are called on.
-/

namespace Reactive

open Stateful

namespace Machine

/-- The classes that the objects are of. -/
def images (m : Machine) : List ClassImage := m.objects.map Instance.image

/-- There may be more objects, of loaded classes; the classes are the same. -/
structure Grows (m m' : Machine) : Prop where
  images : m.images <+: m'.images
  origin : ∀ image ∈ m'.images, image ∈ m.images ∨ ∃ name, m.classes.find? name = some image
  classes : m'.classes = m.classes

/-- The registrations are the same, too. -/
structure Undisturbed (m m' : Machine) : Prop extends Grows m m' where
  locales : m'.locales = m.locales

variable {m m' m'' : Machine} {classes : List LoadedClass}

/-- What an object is of it remains. -/
theorem image_mono (h : m.images <+: m'.images) {object : Nat} {image : ClassImage}
    (himage : m.images[object]? = some image) : m'.images[object]? = some image := by
  obtain ⟨more, hmore⟩ := h
  rw [← hmore, List.getElem?_append_left (List.getElem?_eq_some_iff.mp himage).1]
  exact himage

theorem Grows.of_eq (himages : m'.images = m.images) (hclasses : m'.classes = m.classes) : m.Grows m' :=
  ⟨himages ▸ List.prefix_refl _, fun _ h => .inl (himages ▸ h), hclasses⟩

theorem Grows.trans (h : m.Grows m') (h' : m'.Grows m'') : m.Grows m'' := by
  refine ⟨h.images.trans h'.images, fun image himage => ?_, h'.classes.trans h.classes⟩
  obtain himage | ⟨name, hname⟩ := h'.origin image himage
  · exact h.origin image himage
  · exact .inr ⟨name, h.classes ▸ hname⟩

theorem Undisturbed.refl (m : Machine) : m.Undisturbed m := ⟨.of_eq rfl rfl, rfl⟩

theorem Undisturbed.trans (h : m.Undisturbed m') (h' : m'.Undisturbed m'') : m.Undisturbed m'' :=
  ⟨h.toGrows.trans h'.toGrows, h'.locales.trans h.locales⟩

theorem Of.grows (h : m.Of classes) (h' : m.Grows m') : m'.Of classes := by
  refine ⟨fun i hi => ?_, fun name image hname => h.classes name image (h'.classes ▸ hname)⟩
  obtain himage | ⟨name, hname⟩ := h'.origin i.image (List.mem_map_of_mem hi)
  · obtain ⟨j, hj, hj'⟩ := List.mem_map.mp himage
    exact hj' ▸ h.objects j hj
  · exact h.classes name i.image hname

/-- The class of an object is one of the loaded ones. -/
theorem Of.image (h : m.Of classes) {object : Nat} {image : ClassImage} (himage : m.images[object]? = some image) :
    image.Among classes := by
  obtain ⟨i, hi, rfl⟩ := List.mem_map.mp (List.mem_of_getElem? himage)
  exact h.objects i hi

end Machine

/-- The method is code of the object that it is called on. -/
def Call.Belongs (m : Machine) (c : Call) : Prop :=
  ∃ image, m.images[c.receiver]? = some image ∧ image.HasCode c.method

theorem Call.Belongs.mono {c : Call} {m m' : Machine} (h : c.Belongs m) (h' : m.images <+: m'.images) : c.Belongs m' := by
  obtain ⟨image, himage, hcode⟩ := h
  exact ⟨image, Machine.image_mono h' himage, hcode⟩

/-- Two frames go on at the same place, with as many locals. -/
structure Frame.Alike (f g : Frame) : Prop where
  next : g.next = f.next
  locals : g.locals.length = f.locals.length

theorem Frame.Alike.refl (f : Frame) : f.Alike f := ⟨rfl, rfl⟩

/-- A frame behind an instruction goes on there or where the instruction jumps to. -/
structure Frame.Past (i : Instruction) (f g : Frame) : Prop where
  next : g.next = f.next ∨ ∃ t, i.target? = some t ∧ g.next = t.toNat
  locals : g.locals.length = f.locals.length

theorem Frame.Alike.past {i : Instruction} {f g : Frame} (h : f.Alike g) : f.Past i g := ⟨.inl h.next, h.locals⟩

/-- What an instruction may lead to, the frame being behind it. -/
def Progress.Past (i : Instruction) (f : Frame) (m : Machine) : Progress → Prop
  | .goes g => f.Past i g
  | .returns _ => i.isReturn = true
  | .calls c _ g => c.Belongs m ∧ f.Alike g
  | .refreshes _ _ g | .creates _ _ g => f.Alike g

/-- What an instruction may lead to that calls nothing. -/
def Outcome.Past (i : Instruction) (f : Frame) : Outcome → Prop
  | .go g => f.Past i g
  | .returned _ => i.isReturn = true

namespace Run

variable {α β : Type} {m : Machine} {P Q : α → Machine → Prop}

/-- A computation disturbs nothing, and the value that it gives has a property. -/
def Leaves (x : Run α) (m : Machine) (P : α → Machine → Prop) : Prop :=
  match x m with
  | .ok a m' => m.Undisturbed m' ∧ P a m'
  | .error _ m' => m.Undisturbed m'

theorem leaves_pure {a : α} (h : P a m) : Leaves (pure a) m P := ⟨.refl m, h⟩

theorem leaves_fail {e : RuntimeError} : Leaves (fail e : Run α) m P := .refl m

theorem leaves_get_bind {f : Machine → Run β} {R : β → Machine → Prop} (h : Leaves (f m) m R) :
    Leaves (get >>= f) m R := h

theorem leaves_modify {f : Machine → Machine} {P : PUnit → Machine → Prop} (h : m.Undisturbed (f m)) (hP : P .unit (f m)) :
    Leaves (modify f) m P := ⟨h, hP⟩

theorem Leaves.imp {x : Run α} (h : Leaves x m P) (hPQ : ∀ a m', P a m' → Q a m') : Leaves x m Q := by
  unfold Leaves at h ⊢
  split at h
  · exact ⟨h.1, hPQ _ _ h.2⟩
  · exact h

theorem Leaves.bind {x : Run α} {f : α → Run β} {R : β → Machine → Prop} (hx : Leaves x m P)
    (hf : ∀ a m', P a m' → Leaves (f a) m' R) : Leaves (x >>= f) m R := by
  unfold Leaves at hx ⊢
  rw [bind_apply]
  cases hrun : x m with
  | error e m' =>
    rw [hrun] at hx
    exact hx
  | ok a m' =>
    rw [hrun] at hx
    have hfa := hf a m' hx.2
    unfold Leaves at hfa
    dsimp only
    cases hrest : f a m' with
    | ok b m'' =>
      rw [hrest] at hfa
      exact ⟨hx.1.trans hfa.1, hfa.2⟩
    | error e m'' =>
      rw [hrest] at hfa
      exact hx.1.trans hfa

theorem leaves_ofOption (e : RuntimeError) (o : Option α) :
    Leaves (ofOption e o) m fun a m' => m' = m ∧ o = some a := by
  cases o with
  | none => exact leaves_fail
  | some a => exact leaves_pure ⟨rfl, rfl⟩

theorem leaves_ofExcept (x : Except RuntimeError α) : Leaves (ofExcept x) m fun _ _ => True := by
  cases x with
  | error e => exact leaves_fail
  | ok a => exact leaves_pure trivial

theorem leaves_log (e : Event) : Leaves (log e) m fun _ _ => True := leaves_modify ⟨.of_eq rfl rfl, rfl⟩ trivial

/-! ### Objects and commands -/

theorem leaves_instance (object : Nat) :
    Leaves (instance_ object) m fun i m' => m'.images[object]? = some i.image := by
  refine leaves_get_bind ((leaves_ofOption _ _).imp fun i m' ⟨hm, hi⟩ => ?_)
  rw [Machine.images, List.getElem?_map, hm, hi]
  rfl

theorem leaves_accessor (object : Nat) (property : String) (pick : PropertyDef → Option String) :
    Leaves (accessor object property pick) m fun _ _ => True :=
  (leaves_instance object).bind fun _ _ _ => (leaves_ofOption _ _).imp fun _ _ _ => trivial

theorem leaves_storeField (object : Nat) (field : String) (v : Value) :
    Leaves (storeField object field v) m fun _ _ => True := by
  unfold storeField
  rw [discard_bind]
  refine (leaves_instance object).bind fun _ m' _ => leaves_modify ⟨.of_eq ?_ rfl, rfl⟩ trivial
  refine List.ext_getElem? fun k => ?_
  rw [Machine.images, Machine.images, List.getElem?_map, List.getElem?_map, List.getElem?_modify]
  cases m'.objects[k]? with
  | none => rfl
  | some i =>
    show some (Instance.image (if object = k then _ else i)) = _
    split <;> rfl

theorem leaves_addCommand (owner : Nat) (spec : CommandSpec) (enabled : Bool) :
    Leaves (addCommand owner spec enabled) m fun _ _ => True :=
  leaves_get_bind ((leaves_modify (P := fun _ _ => True) ⟨.of_eq rfl rfl, rfl⟩ trivial).bind fun _ _ _ =>
    leaves_pure trivial)

theorem leaves_command (id : Nat) : Leaves (command_ id) m fun _ _ => True :=
  leaves_get_bind ((leaves_ofOption _ _).imp fun _ _ _ => trivial)

theorem leaves_setEnabled (id : Nat) (enabled : Bool) : Leaves (setEnabled id enabled) m fun _ _ => True := by
  refine (leaves_command id).bind fun c m' _ => ?_
  split
  · exact (leaves_modify (P := fun _ _ => True) ⟨.of_eq rfl rfl, rfl⟩ trivial).bind fun _ _ _ => leaves_log _
  · exact leaves_pure trivial

theorem leaves_gateOf (property : String) (v : Value) : Leaves (gateOf property v) m fun _ _ => True :=
  (leaves_ofOption _ _).imp fun _ _ _ => trivial

/-- A new object is of a loaded class. -/
theorem leaves_newObject (className : String) :
    Leaves (newObject className) m fun (id, image) m' => m'.images[id]? = some image := by
  refine leaves_get_bind ((leaves_ofOption _ _).bind fun image m' ⟨hm, himage⟩ => ?_)
  subst hm
  have hlength : m'.objects.length = m'.images.length := (List.length_map _).symm
  refine Leaves.bind (P := fun id m'' => m''.images[id]? = some image) ?_ fun id m'' h => leaves_pure h
  refine leaves_get_bind (Leaves.bind (P := fun _ m'' => m''.images = m'.images ++ [image]) ?_ fun _ m'' h => ?_)
  · refine leaves_modify ⟨⟨?_, fun image' himage' => ?_, rfl⟩, rfl⟩ ?_
    all_goals simp only [Machine.images, List.map_append, List.map_singleton] at *
    · exact List.prefix_append _ _
    · obtain himage' | himage' := List.mem_append.mp himage'
      · exact .inl himage'
      · exact .inr ⟨className, List.mem_singleton.mp himage' ▸ himage⟩
  · refine leaves_pure ?_
    rw [h, hlength]
    exact List.getElem?_concat_length

/-! ### Members -/

/-- A member that is called is code of the object. -/
theorem leaves_dispatch (object : Nat) (name : String) (args : List Value) :
    Leaves (dispatch object name args) m fun d m' => ∀ c, d = .enters c → c.Belongs m' := by
  refine (leaves_instance object).bind fun i m' himage => ?_
  dsimp only
  split
  · rename_i method hfound
    refine leaves_pure fun c hc => ?_
    cases hc
    exact ⟨i.image, himage, .method hfound⟩
  · split
    · exact (leaves_log _).bind fun _ _ _ => leaves_pure nofun
    · split <;> exact leaves_fail

theorem leaves_dispatchGetter (object : Nat) (property : String) :
    Leaves (dispatchGetter object property) m fun d m' => ∀ c, d = .enters c → c.Belongs m' :=
  (leaves_accessor object property _).bind fun _ _ _ => leaves_dispatch _ _ _

/-! ### Instructions -/

section

variable {f : Frame}

theorem leaves_pop : Leaves (pop f) m fun r _ => f.Alike r.2 := by
  unfold pop
  split
  · exact leaves_pure ⟨rfl, rfl⟩
  · exact leaves_fail

theorem leaves_popMany (n : UInt8) : Leaves (popMany f n) m fun r _ => f.Alike r.2 := by
  refine (leaves_ofOption _ _).imp fun r _ ⟨_, hr⟩ => ?_
  unfold Frame.popMany? at hr
  split at hr
  · cases hr
  · cases hr
    exact ⟨rfl, rfl⟩

theorem leaves_popBool : Leaves (popBool f) m fun r _ => f.Alike r.2 :=
  leaves_pop.bind fun _ _ hf =>
    (leaves_ofOption _ _).bind fun _ _ _ => leaves_pure hf

theorem leaves_callFrom {i : Instruction} {found : Run Dispatch} {g : Frame} (wanted : Bool) (hf : f.Alike g)
    (h : Leaves found m fun d m' => ∀ c, d = .enters c → c.Belongs m') :
    Leaves (callFrom found wanted g) m fun p m' => p.Past i f m' := by
  refine h.bind fun d m' hd => ?_
  cases d with
  | enters c => exact leaves_pure ⟨hd c rfl, hf⟩
  | finished v =>
    refine leaves_pure (Frame.Alike.past ⟨?_, ?_⟩)
    all_goals
      unfold Frame.resumed
      split
      all_goals first | exact hf.next | exact hf.locals

theorem leaves_simple {c : Call} {i : Instruction}
    (h : Leaves (step (fun _ => throw .exhausted) ⟨c.method, c.receiver, c.args, []⟩ f i) m fun o _ => o.Past i f) :
    Leaves (simple c f i) m fun p m' => p.Past i f m' := by
  refine h.bind fun o m' ho => ?_
  cases o <;> exact leaves_pure ho

/-- **An instruction that registers nothing disturbs nothing.** -/
theorem leaves_progress (c : Call) {i : Instruction} (hi : i.registers = false) :
    Leaves (progress c f i) m fun p m' => p.Past i f m' := by
  cases i with
  | getProperty name =>
    refine leaves_pop.bind fun ⟨v, g⟩ m' hg => ?_
    cases v with
    | object id => exact leaves_callFrom true hg (leaves_dispatchGetter id name)
    | string s => exact (leaves_ofExcept _).bind fun _ _ _ => leaves_pure ⟨.inl hg.next, hg.locals⟩
    | _ => exact leaves_fail
  | callMethod name argc =>
    refine (leaves_popMany argc).bind fun ⟨args, g⟩ m' hg => leaves_pop.bind fun ⟨v, g'⟩ m'' hg' => ?_
    have hf : f.Alike g' := ⟨hg'.next.trans hg.next, hg'.locals.trans hg.locals⟩
    cases v with
    | object id => exact leaves_callFrom true hf (leaves_dispatch id name args)
    | string s => exact (leaves_ofExcept _).bind fun _ _ _ => leaves_pure ⟨.inl hf.next, hf.locals⟩
    | _ => exact leaves_fail
  | callHook name argc =>
    refine (leaves_popMany argc).bind fun ⟨args, g⟩ m' hg => (leaves_log _).bind fun _ _ _ => ?_
    refine (leaves_instance _).bind fun _ _ _ => ?_
    split
    · exact leaves_callFrom false hg (leaves_dispatch _ name args)
    · exact leaves_pure hg.past
  | callStatic name =>
    refine leaves_pop.bind fun ⟨v, g⟩ m' hg => ?_
    cases v with
    | object id =>
      refine (leaves_instance id).bind fun i m'' himage => ?_
      refine (leaves_ofOption _ _).bind fun function m₁ ⟨hm, hfunction⟩ => leaves_pure ⟨?_, hg⟩
      exact ⟨i.image, hm ▸ himage, .function hfunction⟩
    | _ => exact leaves_fail
  | raiseChanged property => exact (leaves_log _).bind fun _ _ _ => leaves_get_bind (leaves_pure (.refl f))
  | newCommand spec =>
    simp only [progress]
    split
    · exact leaves_pure (.refl f)
    · exact (leaves_addCommand _ spec true).bind fun _ _ _ => leaves_pure ⟨.inl rfl, rfl⟩
  | pushNull | pushBool | pushInt | pushFloat | pushString | pushDefault | loadThis =>
    exact leaves_simple (leaves_pure ⟨.inl rfl, rfl⟩)
  | jump target => exact leaves_simple (leaves_pure ⟨.inr ⟨target, rfl, rfl⟩, rfl⟩)
  | retVoid => exact leaves_simple (leaves_pure rfl)
  | loadArg | loadLocal =>
    exact leaves_simple ((leaves_ofOption _ _).bind fun _ _ _ => leaves_pure ⟨.inl rfl, rfl⟩)
  | storeLocal index =>
    refine leaves_simple (leaves_pop.bind fun ⟨v, g⟩ m' hg => ?_)
    dsimp only
    split
    · exact leaves_pure ⟨.inl hg.next, by rw [List.length_set]; exact hg.locals⟩
    · exact leaves_fail
  | loadField name =>
    refine leaves_simple (Leaves.bind (P := fun _ _ => True) ?_ fun _ _ _ => leaves_pure ⟨.inl rfl, rfl⟩)
    exact (leaves_instance _).bind fun _ _ _ => (leaves_ofOption _ _).imp fun _ _ _ => trivial
  | storeField name =>
    exact leaves_simple (leaves_pop.bind fun r _ hg => (leaves_storeField _ name r.1).bind fun _ _ _ =>
      leaves_pure hg.past)
  | callHost name argc =>
    exact leaves_simple ((leaves_popMany argc).bind fun _ _ hg => (leaves_ofExcept _).bind fun _ _ _ =>
      leaves_pure ⟨.inl hg.next, hg.locals⟩)
  | unary op =>
    exact leaves_simple (leaves_pop.bind fun _ _ hg => (leaves_ofExcept _).bind fun _ _ _ =>
      leaves_pure ⟨.inl hg.next, hg.locals⟩)
  | binary op =>
    refine leaves_simple (leaves_pop.bind fun _ _ hg => leaves_pop.bind fun _ _ hg' => ?_)
    exact (leaves_ofExcept _).bind fun _ _ _ =>
      leaves_pure ⟨.inl (hg'.next.trans hg.next), hg'.locals.trans hg.locals⟩
  | dup => exact leaves_simple (leaves_pop.bind fun _ _ _ => leaves_pure ⟨.inl rfl, rfl⟩)
  | pop => exact leaves_simple (leaves_pop.bind fun _ _ hg => leaves_pure hg.past)
  | jumpIfFalse target | jumpIfTrue target =>
    refine leaves_simple (leaves_popBool.bind fun r _ hg => leaves_pure ?_)
    split
    all_goals first | exact hg.past | exact ⟨.inr ⟨target, rfl, rfl⟩, hg.locals⟩
  | jumpIfNotNull target =>
    refine leaves_simple (leaves_pop.bind fun r _ hg => leaves_pure ?_)
    split
    · exact hg.past
    · exact ⟨.inr ⟨target, rfl, rfl⟩, rfl⟩
  | raiseChanging property => exact leaves_simple ((leaves_log _).bind fun _ _ _ => leaves_pure ⟨.inl rfl, rfl⟩)
  | registerLocale | addLocaleProperty => cases hi
  | ret => exact leaves_simple (leaves_pop.bind fun _ _ _ => leaves_pure rfl)

end

end Run

end Reactive
