import Mathlib.Data.List.Pairwise
import Reactive.Machine.Session
import Reactive.Proofs.Evaluation
import Reactive.Proofs.Loaded

/-!
# Reactive.Proofs.Quiet — running what announces nothing

* `Scene`: an object among classes that are loaded together, with the model of its class.
* `Scene.Clear`: no field of the object holds an object, if the scene leaves objects out.
* `Scene.Keeps`: the fields of the object that only generated methods write: those of reactive properties, of eager
  values, and of lazy values that have been computed.
* `Scene.Quiet`: from one machine to another nothing is announced, no object gets another class, and these fields are
  kept.
-/

namespace Reactive

open Stateful

/-- The event announces a change of a property. -/
def Event.isAnnouncement : Event → Bool
  | .changing .. | .changed .. => true
  | _ => false

/-! ### Values that are no objects -/

namespace Value

/-- The value is an object. -/
def isObject : Value → Bool
  | object _ => true
  | _ => false

theorem isObject_defaultOf (type : String) : (defaultOf type).isObject = false := by
  unfold defaultOf
  repeat' split
  all_goals rfl

theorem isObject_unary {op : UnaryOp} {v w : Value} (h : v.unary op = .ok w) : w.isObject = false := by
  cases op <;> cases v <;> cases h <;> rfl

theorem isObject_intOp {op : StrictOp} {a b : Int64} {w : Value} (h : intOp op a b = .ok w) : w.isObject = false := by
  unfold intOp at h
  repeat' split at h
  all_goals cases h
  all_goals rfl

theorem isObject_binary {op : StrictOp} {a b w : Value} (h : binary op a b = .ok w) : w.isObject = false := by
  unfold binary at h
  split at h
  · cases h
    rfl
  split at h
  · cases h
    rfl
  split at h
  · cases h
    rfl
  dsimp only at h
  split at h
  · exact isObject_intOp h
  · split at h
    · rename_i hop
      cases h
      cases op <;> cases hop <;> rfl
    · cases h
  · split at h
    · cases h
      cases op <;> rfl
    · cases h

theorem isObject_stringMember {s member : String} {args : List Value} {w : Value}
    (h : stringMember s member args = .ok w) : w.isObject = false := by
  have hpart {x : Except RuntimeError (List Char)} {f : List Char → Bool}
      (h : (do return bool (f (← x))) = Except.ok w) : w.isObject = false := by
    cases x <;> cases h
    rfl
  unfold stringMember at h
  split at h
  · cases h; rfl
  · cases h; rfl
  · cases h; rfl
  · cases h; rfl
  · exact hpart (f := fun part => occursIn part s.toList) h
  · exact hpart (f := fun part => part.isPrefixOf s.toList) h
  · exact hpart (f := fun part => part.isSuffixOf s.toList) h
  · cases h

/-- A helper of the host gives no object but one that it is given. -/
theorem callHost_eq_ok {name : String} {args : List Value} {w : Value} (h : callHost name args = .ok w) :
    w.isObject = false ∨ w ∈ args := by
  have hchoose {op : StrictOp} {a b : Value} (h : choose op a b = .ok w) : w.isObject = false ∨ w ∈ [a, b] := by
    unfold choose at h
    cases hcompare : binary op a b with
    | error e =>
      rw [hcompare] at h
      cases h
    | ok c =>
      rw [hcompare] at h
      dsimp only [Bind.bind, Except.bind] at h
      split at h <;> cases h <;> simp
  unfold callHost at h
  split at h
  · cases h; exact Or.inl rfl
  · cases h; exact Or.inl rfl
  · cases h; exact Or.inl rfl
  · cases h; exact Or.inl rfl
  · exact hchoose h
  · exact hchoose h
  · cases h; exact Or.inl rfl
  · cases h; exact Or.inl rfl
  · cases h

/-- A helper of the host gives no object if it is given none. -/
theorem isObject_callHost {name : String} {args : List Value} (hargs : ∀ v ∈ args, v.isObject = false) {w : Value}
    (h : callHost name args = .ok w) : w.isObject = false := (callHost_eq_ok h).elim id (hargs w)

end Value

theorem Literal.isObject_value (v : Literal) : v.value.isObject = false := by cases v <;> rfl

/-! ### Machines -/

namespace Machine

/-- The machine with a value in a field of an object. -/
def store (m : Machine) (object : Nat) (field : String) (value : Value) : Machine :=
  { m with objects := m.objects.modify object fun i => { i with fields := i.fields.put field value } }

/-- The machine that something more was observed of. -/
def logged (m : Machine) (e : Event) : Machine := { m with events := m.events ++ [e] }

@[simp] theorem events_store (m : Machine) (object : Nat) (field : String) (value : Value) :
    (m.store object field value).events = m.events := rfl

@[simp] theorem objects_logged (m : Machine) (e : Event) : (m.logged e).objects = m.objects := rfl

@[simp] theorem field?_logged (m : Machine) (e : Event) (object : Nat) (field : String) :
    (m.logged e).field? object field = m.field? object field := rfl

theorem images_store (m : Machine) (object : Nat) (field : String) (value : Value) :
    (m.store object field value).objects.map Instance.image = m.objects.map Instance.image := by
  refine List.ext_getElem? fun k => ?_
  rw [List.getElem?_map, List.getElem?_map, store, List.getElem?_modify]
  cases m.objects[k]? with
  | none => rfl
  | some i => by_cases h : object = k <;> simp [h]

theorem getElem?_store_of_ne (m : Machine) {object : Nat} (field : String) (value : Value) {r : Nat} (h : r ≠ object) :
    (m.store object field value).objects[r]? = m.objects[r]? := by
  rw [store, List.getElem?_modify]
  simp only [if_neg (Ne.symm h)]
  exact Option.map_id'

theorem field?_store (m : Machine) (object : Nat) (field : String) (value : Value) (other : Nat) (name : String) :
    (m.store object field value).field? other name =
      if other = object ∧ name = field ∧ m.objects[object]?.isSome then some value else m.field? other name := by
  unfold field? store
  rw [List.getElem?_modify]
  cases hi : m.objects[other]? with
  | none =>
    rw [if_neg]
    · rfl
    · rintro ⟨rfl, -, hsome⟩
      rw [hi] at hsome
      cases hsome
  | some i =>
    by_cases hobject : object = other
    · subst hobject
      by_cases hname : name = field
      · simp [hname, hi]
      · simp [hname, Table.find?_put_of_ne _ _ hname]
    · simp [hobject, Ne.symm hobject]

end Machine

namespace Run

variable {m : Machine}

theorem ends_ofOption {α : Type} {e : RuntimeError} {o : Option α} :
    Ends (ofOption e o) m fun a m' => m' = m ∧ o = some a := by
  cases o with
  | none => exact ends_throw
  | some a => exact ends_pure ⟨rfl, rfl⟩

theorem ends_ofExcept {α : Type} {x : Except RuntimeError α} :
    Ends (ofExcept x) m fun a m' => m' = m ∧ x = .ok a := by
  cases x with
  | error e => exact ends_throw
  | ok a => exact ends_pure ⟨rfl, rfl⟩

theorem ends_log {e : Event} : Ends (log e) m fun _ m' => m' = m.logged e := by
  rintro u m' ⟨⟩
  rfl

theorem ends_get : Ends (get : Run Machine) m fun a m' => m' = m ∧ a = m := by
  rintro _ _ ⟨⟩
  exact ⟨rfl, rfl⟩

theorem ends_instance {object : Nat} : Ends (instance_ object) m fun i m' => m' = m ∧ m.objects[object]? = some i := by
  refine ends_get.bind ?_
  rintro _ _ ⟨rfl, rfl⟩
  exact ends_ofOption

theorem ends_loadField {object : Nat} {field : String} :
    Ends (loadField object field) m fun v m' => m' = m ∧ m.field? object field = some v := by
  refine ends_instance.bind ?_
  rintro i _ ⟨rfl, hi⟩
  refine ends_ofOption.imp ?_
  rintro v _ ⟨rfl, hv⟩
  exact ⟨rfl, by rw [Machine.field?, hi]; exact hv⟩

theorem ends_storeField {object : Nat} {field : String} {value : Value} :
    Ends (storeField object field value) m fun _ m' => m' = m.store object field value ∧ m.objects[object]?.isSome := by
  refine Ends.bind (Ends.discard (R := fun _ m' => m' = m ∧ m.objects[object]?.isSome) (ends_instance.imp ?_)) ?_
  · rintro i _ ⟨rfl, hi⟩
    exact ⟨rfl, by rw [hi]; rfl⟩
  · rintro _ _ ⟨rfl, hsome⟩ _ _ ⟨⟩
    exact ⟨rfl, hsome⟩

theorem ends_accessor {object : Nat} {property : String} {pick : PropertyDef → Option String} :
    Ends (accessor object property pick) m fun name m' => m' = m ∧ ∃ i p, m.objects[object]? = some i ∧
      i.image.properties.find? property = some p ∧ pick p = some name := by
  refine ends_instance.bind ?_
  rintro i _ ⟨rfl, hi⟩
  refine ends_ofOption.imp ?_
  rintro name _ ⟨rfl, hname⟩
  obtain ⟨p, hp, hpick⟩ := Option.bind_eq_some_iff.mp hname
  exact ⟨rfl, i, p, hi, hp, hpick⟩

theorem ends_command {id : Nat} : Ends (command_ id) m fun c m' => m' = m ∧ m.commands[id]? = some c := by
  refine ends_get.bind ?_
  rintro m _ ⟨rfl, rfl⟩
  exact ends_ofOption

end Run

/-! ### Scenes -/

/-- An object among classes that are loaded together, with the model of its class; objects may be left out of its fields.
-/
structure Scene where
  classes : List LoadedClass
  tame : Tame classes
  own : LoadedClass
  mem : own ∈ classes
  model : ClassModel
  generated : own.model = some model
  object : Nat
  /-- No field of the object holds an object. -/
  plain : Prop
  withholds : plain → own.Withholds model

namespace Scene

variable (S : Scene)

/-- Every object is one of a loaded class, and the object of the scene is one of its class. -/
def Holds (m : Machine) : Prop :=
  ∀ r i, m.objects[r]? = some i → ∃ L ∈ S.classes, i.image = L.image ∧ (r = S.object → L = S.own)

/-- An object of a loaded class; no other one than the object of the scene, if that holds no objects. -/
structure At (r : Nat) (L : LoadedClass) (m : Machine) : Prop where
  holds : S.Holds m
  mem : L ∈ S.classes
  own : r = S.object → L = S.own
  near : S.plain → r = S.object
  image : ∃ i, m.objects[r]? = some i ∧ i.image = L.image

/-- The object's field holds what only generated methods write. -/
def Keeps (m : Machine) (field : String) : Prop :=
  (∃ p ∈ S.model.mutableProperties, field = p.slot) ∨ ∃ d ∈ S.model.derived, ∃ slot, d.slot = some slot ∧
    ((d.cache = .eager ∧ field = slot.value) ∨ ∃ flag, slot.flag = some flag ∧
      m.field? S.object flag = some (.bool true) ∧ (field = slot.value ∨ field = flag))

/-- A value is stored: an eager one, or a lazy one that has been computed. -/
def Settled (d : DerivedProperty) (slot : DerivedSlot) (m : Machine) : Prop :=
  d.cache = .eager ∨ ∃ flag, slot.flag = some flag ∧ m.field? S.object flag = some (.bool true)

/-- Nothing is announced, no object gets another class, and the object keeps its fields. -/
structure Quiet (m m' : Machine) : Prop where
  events : ∃ log, m'.events = m.events ++ log ∧ ∀ e ∈ log, e.isAnnouncement = false
  images : m'.objects.map Instance.image = m.objects.map Instance.image
  kept : ∀ field, S.Keeps m field → m'.field? S.object field = m.field? S.object field

/-- A value that a method of an object may give: no object, if the scene leaves objects out of the object's fields. -/
def Admits (r : Nat) (v : Value) : Prop := S.plain → r = S.object → v.isObject = false

/-- The fields of the object hold values that it may have. -/
def Clear (m : Machine) : Prop := ∀ field v, m.field? S.object field = some v → S.Admits S.object v

variable {S} {m m' m'' : Machine}

theorem Quiet.refl (m : Machine) : S.Quiet m m := ⟨⟨[], (List.append_nil _).symm, nofun⟩, rfl, fun _ _ => rfl⟩

theorem Quiet.keeps (h : S.Quiet m m') {field : String} (hkeeps : S.Keeps m field) : S.Keeps m' field := by
  obtain hp | ⟨d, hd, slot, hslot, heager | ⟨flag, hflag, hset, hfield⟩⟩ := hkeeps
  · exact Or.inl hp
  · exact Or.inr ⟨d, hd, slot, hslot, Or.inl heager⟩
  · refine Or.inr ⟨d, hd, slot, hslot, Or.inr ⟨flag, hflag, ?_, hfield⟩⟩
    rw [h.kept flag (Or.inr ⟨d, hd, slot, hslot, Or.inr ⟨flag, hflag, hset, Or.inr rfl⟩⟩), hset]

theorem Quiet.trans (h : S.Quiet m m') (h' : S.Quiet m' m'') : S.Quiet m m'' := by
  obtain ⟨⟨log, hlog, hsilent⟩, himages, hkept⟩ := h
  obtain ⟨⟨log', hlog', hsilent'⟩, himages', hkept'⟩ := h'
  refine ⟨⟨log ++ log', by rw [hlog', hlog, List.append_assoc], fun e he => ?_⟩, himages'.trans himages,
    fun field hkeeps => ?_⟩
  · obtain he | he := List.mem_append.mp he
    · exact hsilent e he
    · exact hsilent' e he
  · rw [hkept' field (Quiet.keeps ⟨⟨log, hlog, hsilent⟩, himages, hkept⟩ hkeeps), hkept field hkeeps]

/-- Something is observed that is no announcement. -/
theorem Quiet.logged {e : Event} (h : e.isAnnouncement = false) : S.Quiet m (m.logged e) :=
  ⟨⟨[e], rfl, fun _ he => List.mem_singleton.mp he ▸ h⟩, rfl, fun _ _ => rfl⟩

/-- A field is written that was not kept at first. -/
theorem Quiet.store (h : S.Quiet m m') {r : Nat} {field : String} {value : Value}
    (hfield : r = S.object → ¬ S.Keeps m field) : S.Quiet m (m'.store r field value) := by
  refine ⟨h.events, (Machine.images_store ..).trans h.images, fun name hkeeps => ?_⟩
  rw [Machine.field?_store, if_neg, h.kept name hkeeps]
  rintro ⟨rfl, rfl, -⟩
  exact hfield rfl hkeeps

/-- Commands and registrations do not matter. -/
theorem Quiet.of_same (hobjects : m'.objects = m.objects) (hevents : m'.events = m.events) : S.Quiet m m' :=
  ⟨⟨[], by rw [hevents, List.append_nil], nofun⟩, by rw [hobjects],
    fun _ _ => by rw [Machine.field?, hobjects]; rfl⟩

theorem getElem?_of_images (h : m'.objects.map Instance.image = m.objects.map Instance.image) {r : Nat} {i : Instance}
    (hi : m'.objects[r]? = some i) : ∃ j, m.objects[r]? = some j ∧ j.image = i.image := by
  have hr := congrArg (·[r]?) h
  simp only [List.getElem?_map, hi, Option.map_some] at hr
  obtain ⟨j, hj, himage⟩ := Option.map_eq_some_iff.mp hr.symm
  exact ⟨j, hj, himage⟩

/-- Objects of the same classes. -/
theorem Holds.of_images (h : S.Holds m) (himages : m'.objects.map Instance.image = m.objects.map Instance.image) :
    S.Holds m' := by
  intro r i hi
  obtain ⟨j, hj, himage⟩ := getElem?_of_images himages hi
  rw [← himage]
  exact h r j hj

theorem At.of_images {r : Nat} {L : LoadedClass} (h : S.At r L m)
    (himages : m'.objects.map Instance.image = m.objects.map Instance.image) : S.At r L m' := by
  obtain ⟨i, hi, himage⟩ := h.image
  obtain ⟨j, hj, himage'⟩ := getElem?_of_images himages.symm hi
  exact ⟨h.holds.of_images himages, h.mem, h.own, h.near, j, hj, himage'.trans himage⟩

theorem Holds.exists_at {r : Nat} {i : Instance} (h : S.Holds m) (hnear : S.plain → r = S.object)
    (hi : m.objects[r]? = some i) : ∃ L, S.At r L m ∧ i.image = L.image := by
  obtain ⟨L, hL, himage, hown⟩ := h r i hi
  exact ⟨L, ⟨h, hL, hown, hnear, i, hi, himage⟩, himage⟩

theorem At.loads {r : Nat} {L : LoadedClass} (h : S.At r L m) : L.Loads := S.tame.loads L h.mem

theorem At.image_eq {r : Nat} {L : LoadedClass} (h : S.At r L m) {i : Instance} (hi : m.objects[r]? = some i) :
    i.image = L.image := by
  obtain ⟨j, hj, himage⟩ := h.image
  rw [hi] at hj
  cases hj
  exact himage

/-! ### Fields of different members -/

theorem own_generated : S.own.image.Generated S.own.declaration S.model ∧ S.model.Analyzed S.own.declaration :=
  (S.tame.loads _ S.mem).generated S.generated

theorem nodup_fields :
    (S.model.mutableProperties.map (·.slot)).Nodup ∧ (S.model.derived.flatMap DerivedProperty.fieldNames).Nodup ∧
      (∀ p ∈ S.model.mutableProperties, ∀ d ∈ S.model.derived, p.slot ∉ d.fieldNames) ∧
        ∀ c ∈ S.model.commands, (∀ p ∈ S.model.mutableProperties, c.slot ≠ p.slot) ∧
          ∀ d ∈ S.model.derived, c.slot ∉ d.fieldNames := by
  have h := S.own_generated.1.fields
  rw [ClassModel.fieldNames, List.nodup_append, List.nodup_append] at h
  obtain ⟨⟨hslots, hcaches, happart⟩, -, hcommands⟩ := h
  refine ⟨hslots, hcaches, fun p hp d hd hmem => ?_, fun c hc => ⟨fun p hp heq => ?_, fun d hd hmem => ?_⟩⟩
  · exact happart p.slot (List.mem_map_of_mem hp) p.slot (List.mem_flatMap.mpr ⟨d, hd, hmem⟩) rfl
  · exact hcommands p.slot (List.mem_append_left _ (List.mem_map_of_mem hp)) c.slot (List.mem_map_of_mem hc) heq.symm
  · exact hcommands c.slot (List.mem_append_right _ (List.mem_flatMap.mpr ⟨d, hd, hmem⟩)) c.slot
      (List.mem_map_of_mem hc) rfl

/-- Two derived values with a field in common are one. -/
theorem eq_of_mem_fieldNames {d d' : DerivedProperty} (hd : d ∈ S.model.derived) (hd' : d' ∈ S.model.derived)
    {field : String} (h : field ∈ d.fieldNames) (h' : field ∈ d'.fieldNames) : d = d' := by
  by_contra hne
  have hpairwise := (List.nodup_flatMap.mp S.nodup_fields.2.1).2
  have hsymm : Std.Symm (Function.onFun List.Disjoint DerivedProperty.fieldNames) := ⟨fun _ _ h => h.symm⟩
  exact hpairwise.forall hd hd' hne h h'

theorem fieldNames_eq {d : DerivedProperty} {slot : DerivedSlot} (h : d.slot = some slot) :
    d.fieldNames = slot.value :: slot.flag.toList := by
  rw [DerivedProperty.fieldNames, h]

theorem value_mem_fieldNames {d : DerivedProperty} {slot : DerivedSlot} (h : d.slot = some slot) :
    slot.value ∈ d.fieldNames := fieldNames_eq h ▸ List.mem_cons_self

theorem flag_mem_fieldNames {d : DerivedProperty} {slot : DerivedSlot} (h : d.slot = some slot) {flag : String}
    (hflag : slot.flag = some flag) : flag ∈ d.fieldNames := by
  rw [fieldNames_eq h, hflag]
  exact List.mem_cons_of_mem _ List.mem_cons_self

theorem flag_ne_value {d : DerivedProperty} (hd : d ∈ S.model.derived) {slot : DerivedSlot} (h : d.slot = some slot)
    {flag : String} (hflag : slot.flag = some flag) : flag ≠ slot.value := by
  have hnodup := (List.nodup_flatMap.mp S.nodup_fields.2.1).1 d hd
  rw [fieldNames_eq h, hflag] at hnodup
  exact fun heq => (List.nodup_cons.mp hnodup).1 (heq ▸ List.mem_cons_self)

/-- A kept field of a derived value is the one of an eager value, or of a lazy one that has been computed. -/
theorem Keeps.of_mem {d : DerivedProperty} (hd : d ∈ S.model.derived) {slot : DerivedSlot} (hslot : d.slot = some slot)
    {field : String} (hfield : field ∈ d.fieldNames) (h : S.Keeps m field) :
    d.cache = .eager ∨ ∃ flag, slot.flag = some flag ∧ m.field? S.object flag = some (.bool true) := by
  obtain ⟨p, hp, rfl⟩ | ⟨d', hd', slot', hslot', ⟨heager, rfl⟩ | ⟨flag, hflag, hset, hname⟩⟩ := h
  · exact absurd hfield (S.nodup_fields.2.2.1 p hp d hd)
  · obtain rfl := eq_of_mem_fieldNames hd hd' hfield (value_mem_fieldNames hslot')
    exact Or.inl heager
  · have hmem : field ∈ d'.fieldNames := by
      obtain rfl | rfl := hname
      · exact value_mem_fieldNames hslot'
      · exact flag_mem_fieldNames hslot' hflag
    obtain rfl := eq_of_mem_fieldNames hd hd' hfield hmem
    rw [hslot] at hslot'
    cases hslot'
    exact Or.inr ⟨flag, hflag, hset⟩

/-- The field of a command is written when the command is first read. -/
theorem not_keeps_command {c : CommandModel} (hc : c ∈ S.model.commands) : ¬ S.Keeps m c.slot := by
  obtain ⟨hslots, hcaches⟩ := S.nodup_fields.2.2.2 c hc
  rintro (⟨p, hp, heq⟩ | ⟨d, hd, slot, hslot, ⟨-, heq⟩ | ⟨flag, hflag, -, heq | heq⟩⟩)
  · exact hslots p hp heq
  · exact hcaches d hd (heq ▸ value_mem_fieldNames hslot)
  · exact hcaches d hd (heq ▸ value_mem_fieldNames hslot)
  · exact hcaches d hd (heq ▸ flag_mem_fieldNames hslot hflag)

end Scene

end Reactive
