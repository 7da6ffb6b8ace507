import Reactive.Proofs.Drift
import Reactive.Proofs.Sessions

/-!
# Reactive.Proofs.Isolation — what happens elsewhere leaves an object alone

No instruction reaches an object but through the receiver of its method or a value that it has at hand.

* `Machine.Secludes`: no other object has the object in its fields; `Machine.Spares`: the object and its commands are as
  they were.
* `Run.Avoids`: a computation spares the object and keeps it secluded; what it gives is not the object.
* `Run.avoids_enter`: so does every method of another object that is not given the object, by induction on the number of
  open calls.
* `Action.spares`: so does whatever is asked of other objects, the creation of objects included.
-/

namespace Reactive

open Stateful

namespace Machine

variable {o : Nat} {m m' m'' : Machine}

/-- No other object has the object in one of its fields. -/
def Secludes (o : Nat) (m : Machine) : Prop :=
  ∀ r, r ≠ o → ∀ field v, m.field? r field = some v → v ≠ .object o

/-- The object and its commands are as they were. -/
structure Spares (o : Nat) (m m' : Machine) : Prop where
  object : m'.objects[o]? = m.objects[o]?
  commands : ∀ (i : Nat) (c : CommandState), c.owner = o → (m'.commands[i]? = some c ↔ m.commands[i]? = some c)

theorem Spares.of_same (hobjects : m'.objects[o]? = m.objects[o]?) (hcommands : m'.commands = m.commands) :
    m.Spares o m' := ⟨hobjects, fun i c _ => by rw [hcommands]⟩

theorem Spares.refl (m : Machine) : m.Spares o m := .of_same rfl rfl

theorem Spares.trans (h : m.Spares o m') (h' : m'.Spares o m'') : m.Spares o m'' :=
  ⟨h'.object.trans h.object, fun i c hc => (h'.commands i c hc).trans (h.commands i c hc)⟩

/-- A command of another object stays one. -/
theorem Spares.owner (h : m.Spares o m') {i : Nat} (hi : ∀ c, m.commands[i]? = some c → c.owner ≠ o) :
    ∀ c, m'.commands[i]? = some c → c.owner ≠ o :=
  fun c hc howner => hi c ((h.commands i c howner).mp hc) howner

theorem Secludes.of_objects (h : m.Secludes o) (hobjects : m'.objects = m.objects) : m'.Secludes o := by
  intro r hr field v hv
  rw [Machine.field?, hobjects] at hv
  exact h r hr field v hv

/-- A value is stored that is not the object. -/
theorem Secludes.store (h : m.Secludes o) {r : Nat} {field : String} {v : Value} (hv : v ≠ .object o) :
    (m.store r field v).Secludes o := by
  intro r' hr' name w hw
  rw [field?_store] at hw
  split at hw
  · cases hw
    exact hv
  · exact h r' hr' name w hw

end Machine

/-- A value that is no object is not a certain one. -/
theorem Value.ne_object {v : Value} (h : v.isObject = false) (o : Nat) : v ≠ .object o := by
  rintro rfl
  cases h

namespace Run

variable {α β : Type} {o : Nat} {P : α → Prop} {Q : β → Prop}

/-- A computation spares a secluded object and keeps it secluded, and its values have a property. -/
def Avoids (o : Nat) (x : Run α) (P : α → Prop) : Prop :=
  ∀ m, m.Secludes o → Ends x m fun v m' => m.Spares o m' ∧ m'.Secludes o ∧ P v

theorem avoids_pure {a : α} (h : P a) : Avoids o (pure a) P := fun m hm => ends_pure ⟨.refl m, hm, h⟩

theorem avoids_fail {e : RuntimeError} : Avoids o (fail e : Run α) P := fun _ _ => ends_throw

theorem Avoids.imp {x : Run α} {P' : α → Prop} (hx : Avoids o x P) (h : ∀ a, P a → P' a) : Avoids o x P' :=
  fun m hm => (hx m hm).imp fun a _ ha => ⟨ha.1, ha.2.1, h a ha.2.2⟩

theorem Avoids.bind {x : Run α} {f : α → Run β} (hx : Avoids o x P) (hf : ∀ a, P a → Avoids o (f a) Q) :
    Avoids o (x >>= f) Q := by
  intro m hm
  refine (hx m hm).bind fun a m₁ h₁ => ?_
  exact (hf a h₁.2.2 m₁ h₁.2.1).imp fun _ _ h₂ => ⟨h₁.1.trans h₂.1, h₂.2⟩

theorem Avoids.discard {x : Run α} (hx : Avoids o x P) : Avoids o (discard x) fun _ => True :=
  fun m hm => Ends.discard ((hx m hm).imp fun _ _ h => ⟨h.1, h.2.1, trivial⟩)

/-- A computation that changes nothing. -/
theorem avoids_of_same {x : Run α} (h : ∀ m, m.Secludes o → Ends x m fun a m' => m' = m ∧ P a) : Avoids o x P := by
  intro m hm
  refine (h m hm).imp ?_
  rintro a _ ⟨rfl, ha⟩
  exact ⟨.refl _, hm, ha⟩

theorem avoids_ofOption {e : RuntimeError} {x : Option α} (h : ∀ a, x = some a → P a) : Avoids o (ofOption e x) P :=
  avoids_of_same fun _ _ => ends_ofOption.imp fun a _ ha => ⟨ha.1, h a ha.2⟩

theorem avoids_ofExcept {x : Except RuntimeError α} (h : ∀ a, x = .ok a → P a) : Avoids o (ofExcept x) P :=
  avoids_of_same fun _ _ => ends_ofExcept.imp fun a _ ha => ⟨ha.1, h a ha.2⟩

theorem avoids_forM {f : α → Run PUnit} : ∀ {xs : List α}, (∀ a ∈ xs, Avoids o (f a) fun _ => True) →
    Avoids o (xs.forM f) fun _ => True
  | [], _ => avoids_pure trivial
  | a :: _, h => (h a List.mem_cons_self).bind fun _ _ => avoids_forM fun b hb => h b (List.mem_cons_of_mem _ hb)

/-! ### Objects, commands and registrations -/

/-- Only what no object has, and no commands, are changed. -/
theorem avoids_modify {f : Machine → Machine} (hobjects : ∀ m, (f m).objects = m.objects)
    (hcommands : ∀ m, (f m).commands = m.commands) : Avoids o (modify f) fun _ => True := by
  rintro m hm _ _ ⟨⟩
  exact ⟨.of_same (by rw [hobjects]) (hcommands m), hm.of_objects (hobjects m), trivial⟩

theorem avoids_log (e : Event) : Avoids o (log e) fun _ => True := avoids_modify (fun _ => rfl) fun _ => rfl

theorem avoids_instance (r : Nat) : Avoids o (instance_ r) fun _ => True :=
  avoids_of_same fun _ _ => ends_instance.imp fun _ _ h => ⟨h.1, trivial⟩

theorem avoids_accessor (r : Nat) (property : String) (pick : PropertyDef → Option String) :
    Avoids o (accessor r property pick) fun _ => True :=
  avoids_of_same fun _ _ => ends_accessor.imp fun _ _ h => ⟨h.1, trivial⟩

theorem avoids_loadField {r : Nat} (hr : r ≠ o) (field : String) : Avoids o (loadField r field) (· ≠ .object o) :=
  avoids_of_same fun _ hm => ends_loadField.imp fun v _ h => ⟨h.1, hm r hr field v h.2⟩

theorem avoids_storeField {r : Nat} (hr : r ≠ o) (field : String) {v : Value} (hv : v ≠ .object o) :
    Avoids o (storeField r field v) fun _ => True := by
  intro m hm
  refine ends_storeField.imp ?_
  rintro _ _ ⟨rfl, -⟩
  exact ⟨.of_same (m.getElem?_store_of_ne field v hr.symm) rfl, hm.store hv, trivial⟩

theorem avoids_command (id : Nat) : Avoids o (command_ id) fun _ => True :=
  avoids_of_same fun _ _ => ends_command.imp fun _ _ h => ⟨h.1, trivial⟩

theorem avoids_addCommand {owner : Nat} (howner : owner ≠ o) (spec : CommandSpec) (enabled : Bool) :
    Avoids o (addCommand owner spec enabled) fun _ => True := by
  intro m hm
  refine ends_get.bind ?_
  rintro m _ ⟨rfl, rfl⟩ _ _ ⟨⟩
  refine ⟨⟨rfl, fun i c hc => ?_⟩, hm, trivial⟩
  show (m.commands ++ [⟨owner, spec, enabled⟩])[i]? = some c ↔ _
  by_cases hi : i < m.commands.length
  · rw [List.getElem?_append_left hi]
  · rw [List.getElem?_append_right (Nat.le_of_not_lt hi), List.getElem?_eq_none (Nat.le_of_not_lt hi)]
    refine iff_of_false (fun hadded => ?_) nofun
    rw [List.mem_singleton.mp (List.mem_of_getElem? hadded)] at hc
    exact howner hc

/-- A command of another object is enabled or disabled. -/
theorem ends_setEnabled_spares {m : Machine} (hm : m.Secludes o) {id : Nat}
    (hid : ∀ c, m.commands[id]? = some c → c.owner ≠ o) (enabled : Bool) :
    Ends (setEnabled id enabled) m fun _ m' => m.Spares o m' ∧ m'.Secludes o := by
  refine Scene.ends_setEnabled.imp ?_
  rintro _ m' ⟨hobjects, hcommands, -⟩
  refine ⟨⟨by rw [hobjects], fun i c hc => ?_⟩, hm.of_objects hobjects⟩
  rw [hcommands, List.getElem?_modify]
  by_cases hi : id = i
  · subst hi
    refine iff_of_false (fun h => ?_) fun h => hid c h hc
    obtain ⟨c', hc', rfl⟩ := Option.map_eq_some_iff.mp h
    rw [if_pos rfl] at hc
    exact hid c' hc' hc
  · simp [hi]

theorem avoids_addRegistration (owner : Nat) (registry : String) (grouping : Option String) :
    Avoids o (addRegistration owner registry grouping) fun _ => True := by
  intro m hm
  refine ends_get.bind ?_
  rintro m _ ⟨rfl, rfl⟩ _ _ ⟨⟩
  exact ⟨.of_same rfl rfl, hm, trivial⟩

theorem avoids_addBinding (id : Nat) (entry : LocaleEntry) : Avoids o (addBinding id entry) fun _ => True := by
  intro m hm
  refine ends_get.bind ?_
  rintro m _ ⟨rfl, rfl⟩
  refine Ends.bind (Ends.discard (R := fun _ m' => m' = m) (ends_ofOption.imp fun _ _ h => h.1)) ?_
  rintro _ _ rfl _ _ ⟨⟩
  exact ⟨.of_same rfl rfl, hm, trivial⟩

end Run

/-- The object is not at hand in a frame. -/
structure Frame.Lacks (o : Nat) (f : Frame) : Prop where
  stack : ∀ v ∈ f.stack, v ≠ .object o
  locals : ∀ v ∈ f.locals, v ≠ .object o

theorem Frame.Lacks.push {o : Nat} {f : Frame} (h : f.Lacks o) {v : Value} (hv : v ≠ .object o) : (f.push v).Lacks o :=
  ⟨List.forall_mem_cons.mpr ⟨hv, h.stack⟩, h.locals⟩

theorem Frame.Lacks.jump {o : Nat} {f : Frame} (h : f.Lacks o) (target : UInt64) : (f.jump target).Lacks o :=
  ⟨h.stack, h.locals⟩

theorem Frame.lacks_start (o : Nat) (method : CompiledMethod) : (Frame.start method).Lacks o := by
  refine ⟨nofun, fun v hv => ?_⟩
  rw [List.eq_of_mem_replicate hv]
  nofun

/-- What an instruction leads to has not the object at hand. -/
def Outcome.Lacks (o : Nat) : Outcome → Prop
  | .go f => f.Lacks o
  | .returned v => v ≠ .object o

namespace Run

variable {o : Nat} {f : Frame}

theorem avoids_pop (hf : f.Lacks o) : Avoids o (pop f) fun p => p.1 ≠ .object o ∧ p.2.Lacks o := by
  unfold pop
  split
  · rename_i v rest hstack
    have hall := hf.stack
    rw [hstack] at hall
    exact avoids_pure ⟨hall v List.mem_cons_self, fun w hw => hall w (List.mem_cons_of_mem _ hw), hf.locals⟩
  · exact avoids_fail

theorem avoids_popMany (hf : f.Lacks o) (n : UInt8) :
    Avoids o (popMany f n) fun p => (∀ v ∈ p.1, v ≠ .object o) ∧ p.2.Lacks o := by
  refine avoids_ofOption fun p hp => ?_
  unfold Frame.popMany? at hp
  split at hp
  · cases hp
  · cases hp
    refine ⟨fun v hv => hf.stack v (List.mem_of_mem_take (List.mem_reverse.mp hv)), fun v hv => ?_, hf.locals⟩
    exact hf.stack v (List.mem_of_mem_drop hv)

theorem avoids_popBool (hf : f.Lacks o) : Avoids o (popBool f) fun p => p.2.Lacks o :=
  (avoids_pop hf).bind fun _ hp => (avoids_ofOption fun _ _ => trivial).bind fun _ _ => avoids_pure hp.2

/-! ### Methods -/

section

variable {enter : Enter}
  (he : ∀ a : Activation, a.receiver ≠ o → (∀ v ∈ a.args, v ≠ .object o) → Avoids o (enter a) (· ≠ .object o))

include he

theorem avoids_invoke (refreshing : List Nat) {r : Nat} (hr : r ≠ o) (name : String) {args : List Value}
    (hargs : ∀ v ∈ args, v ≠ .object o) : Avoids o (invoke enter refreshing r name args) (· ≠ .object o) := by
  refine (avoids_instance r).bind fun i _ => ?_
  dsimp only
  split
  · exact he _ hr hargs
  · split
    · exact (avoids_log _).bind fun _ _ => avoids_pure nofun
    · split <;> exact avoids_fail

theorem avoids_read (refreshing : List Nat) {r : Nat} (hr : r ≠ o) (property : String) :
    Avoids o (read enter refreshing r property) (· ≠ .object o) :=
  (avoids_accessor r property _).bind fun _ _ => avoids_invoke he refreshing hr _ nofun

theorem avoids_callHook (refreshing : List Nat) {r : Nat} (hr : r ≠ o) (name : String) {args : List Value}
    (hargs : ∀ v ∈ args, v ≠ .object o) : Avoids o (callHook enter refreshing r name args) fun _ => True := by
  refine (avoids_log _).bind fun _ _ => (avoids_instance r).bind fun i _ => ?_
  split
  · exact (avoids_invoke he refreshing hr name hargs).discard
  · exact avoids_pure trivial

theorem avoids_applyStatic (refreshing : List Nat) {r : Nat} (hr : r ≠ o) (name : String) :
    Avoids o (applyStatic enter refreshing r name) (· ≠ .object o) := by
  refine (avoids_instance r).bind fun i _ => (avoids_ofOption (P := fun _ => True) fun _ _ => trivial).bind fun _ _ => ?_
  exact he _ hr (List.forall_mem_singleton.mpr fun heq => hr (Value.object.inj heq))

theorem avoids_enablement (refreshing : List Nat) {r : Nat} (hr : r ≠ o) (property : String) :
    Avoids o (enablement enter refreshing r property) fun _ => True :=
  (avoids_read he refreshing hr property).bind fun _ _ => avoids_ofOption fun _ _ => trivial

theorem avoids_newCommand (refreshing : List Nat) {owner : Nat} (howner : owner ≠ o) (spec : CommandSpec) :
    Avoids o (newCommand enter refreshing owner spec) fun _ => True := by
  unfold newCommand
  split
  · exact (avoids_enablement he refreshing howner _).bind fun _ _ => avoids_addCommand howner _ _
  · exact avoids_addCommand howner _ _

/-- Commands of another object are evaluated. -/
theorem ends_refreshAll_spares (refreshing : List Nat) {r : Nat} (hr : r ≠ o) (property : String) :
    ∀ (ids : List Nat) {m : Machine}, m.Secludes o → (∀ id ∈ ids, ∀ c, m.commands[id]? = some c → c.owner ≠ o) →
      Ends (refreshAll enter refreshing r property ids) m fun _ m' => m.Spares o m' ∧ m'.Secludes o
  | [], m, hm, _ => ends_pure ⟨.refl m, hm⟩
  | id :: rest, m, hm, hids => by
    have hrest {m' : Machine} (h : m.Spares o m') :
        ∀ id ∈ rest, ∀ c, m'.commands[id]? = some c → c.owner ≠ o :=
      fun id hid => h.owner (hids id (List.mem_cons_of_mem _ hid))
    rw [refreshAll]
    by_cases hid : refreshing.contains id = true
    · rw [if_pos hid]
      exact ends_refreshAll_spares refreshing hr property rest hm (hrest (.refl m))
    · rw [if_neg hid]
      refine Ends.bind (avoids_enablement he (id :: refreshing) hr property m hm) fun enabled m₁ h₁ => ?_
      have howner := h₁.1.owner (hids id List.mem_cons_self)
      refine (ends_setEnabled_spares h₁.2.1 howner enabled).bind fun _ m₂ h₂ => ?_
      have hspares := h₁.1.trans h₂.1
      exact (ends_refreshAll_spares refreshing hr property rest h₂.2 (hrest hspares)).imp fun _ _ h₃ =>
        ⟨hspares.trans h₃.1, h₃.2⟩

theorem avoids_raiseChanged (refreshing : List Nat) {r : Nat} (hr : r ≠ o) (property : String) :
    Avoids o (raiseChanged enter refreshing r property) fun _ => True := by
  refine (avoids_log _).bind fun _ _ m hm => ?_
  refine ends_get.bind ?_
  rintro m _ ⟨rfl, rfl⟩
  refine (ends_refreshAll_spares he refreshing hr property _ hm fun id hid c hc => ?_).imp fun _ _ h =>
    ⟨h.1, h.2, trivial⟩
  -- The commands that the property enables are those of the other object.
  rw [(Scene.owner_of_gated hid hc).1]
  exact hr

theorem avoids_readOf (refreshing : List Nat) (name : String) {v : Value} (hv : v ≠ .object o) :
    Avoids o (readOf enter refreshing name v) (· ≠ .object o) := by
  cases v with
  | object id => exact avoids_read he refreshing (fun heq => hv (heq ▸ rfl)) name
  | string s => exact avoids_ofExcept fun _ h => Value.ne_object (Value.isObject_stringMember h) o
  | _ => exact avoids_fail

theorem avoids_callOn (refreshing : List Nat) (name : String) {args : List Value} (hargs : ∀ v ∈ args, v ≠ .object o)
    {v : Value} (hv : v ≠ .object o) : Avoids o (callOn enter refreshing name args v) (· ≠ .object o) := by
  cases v with
  | object id => exact avoids_invoke he refreshing (fun heq => hv (heq ▸ rfl)) name hargs
  | string s => exact avoids_ofExcept fun _ h => Value.ne_object (Value.isObject_stringMember h) o
  | _ => exact avoids_fail

/-- One instruction. -/
theorem avoids_step {a : Activation} (ha : a.receiver ≠ o) (hargs : ∀ v ∈ a.args, v ≠ .object o) (hf : f.Lacks o)
    (i : Instruction) : Avoids o (step enter a f i) (Outcome.Lacks o) := by
  cases i with
  | pushNull | pushBool | pushInt | pushFloat | pushString => exact avoids_pure (hf.push nofun)
  | pushDefault type => exact avoids_pure (hf.push (Value.ne_object (Value.isObject_defaultOf type) o))
  | loadThis => exact avoids_pure (hf.push fun heq => ha (Value.object.inj heq))
  | jump target => exact avoids_pure (hf.jump target)
  | retVoid => exact avoids_pure nofun
  | loadArg index =>
    exact (avoids_ofOption fun v hv => hargs v (List.mem_of_getElem? hv)).bind fun _ hv => avoids_pure (hf.push hv)
  | loadLocal index =>
    exact (avoids_ofOption fun v hv => hf.locals v (List.mem_of_getElem? hv)).bind fun _ hv => avoids_pure (hf.push hv)
  | storeLocal index =>
    refine (avoids_pop hf).bind fun p hp => ?_
    dsimp only
    split
    · refine avoids_pure ⟨hp.2.stack, fun v hv => ?_⟩
      exact (List.mem_or_eq_of_mem_set hv).elim (hp.2.locals v) fun heq => heq ▸ hp.1
    · exact avoids_fail
  | loadField name => exact (avoids_loadField ha name).bind fun _ hv => avoids_pure (hf.push hv)
  | storeField name =>
    exact (avoids_pop hf).bind fun _ hp => (avoids_storeField ha name hp.1).bind fun _ _ => avoids_pure hp.2
  | getProperty name =>
    exact (avoids_pop hf).bind fun _ hp => (avoids_readOf he _ name hp.1).bind fun _ hv => avoids_pure (hp.2.push hv)
  | callMethod name argc =>
    exact (avoids_popMany hf argc).bind fun _ hp => (avoids_pop hp.2).bind fun _ hq =>
      (avoids_callOn he _ name hp.1 hq.1).bind fun _ hv => avoids_pure (hq.2.push hv)
  | callHook name argc =>
    exact (avoids_popMany hf argc).bind fun _ hp => (avoids_callHook he _ ha name hp.1).bind fun _ _ => avoids_pure hp.2
  | callStatic name =>
    refine (avoids_pop hf).bind fun p hp => ?_
    obtain ⟨v, g⟩ := p
    cases v with
    | object id =>
      exact (avoids_applyStatic he _ (fun heq => hp.1 (heq ▸ rfl)) name).bind fun _ hv => avoids_pure (hp.2.push hv)
    | _ => exact avoids_fail
  | callHost name argc =>
    refine (avoids_popMany hf argc).bind fun p hp => Avoids.bind (avoids_ofExcept fun w hw => ?_) fun _ hv =>
      avoids_pure (hp.2.push hv)
    exact (Value.callHost_eq_ok hw).elim (fun h => Value.ne_object h o) (hp.1 w)
  | unary op =>
    exact (avoids_pop hf).bind fun _ hp => (avoids_ofExcept fun _ h => Value.ne_object (Value.isObject_unary h) o).bind
      fun _ hv => avoids_pure (hp.2.push hv)
  | binary op =>
    exact (avoids_pop hf).bind fun _ hp => (avoids_pop hp.2).bind fun _ hq =>
      (avoids_ofExcept fun _ h => Value.ne_object (Value.isObject_binary h) o).bind fun _ hv => avoids_pure (hq.2.push hv)
  | dup => exact (avoids_pop hf).bind fun _ hp => avoids_pure (hf.push hp.1)
  | pop => exact (avoids_pop hf).bind fun _ hp => avoids_pure hp.2
  | jumpIfFalse target =>
    refine (avoids_popBool hf).bind fun p hp => avoids_pure ?_
    obtain ⟨b, g⟩ := p
    cases b
    · exact Frame.Lacks.jump hp target
    · exact hp
  | jumpIfTrue target =>
    refine (avoids_popBool hf).bind fun p hp => avoids_pure ?_
    obtain ⟨b, g⟩ := p
    cases b
    · exact hp
    · exact Frame.Lacks.jump hp target
  | jumpIfNotNull target =>
    refine (avoids_pop hf).bind fun p hp => avoids_pure ?_
    obtain ⟨v, g⟩ := p
    by_cases hnull : v = .null
    · rw [if_pos hnull]
      exact hp.2
    · rw [if_neg hnull]
      exact hf.jump target
  | raiseChanging property => exact (avoids_log _).bind fun _ _ => avoids_pure hf
  | raiseChanged property => exact (avoids_raiseChanged he _ ha property).bind fun _ _ => avoids_pure hf
  | newCommand spec => exact (avoids_newCommand he _ ha spec).bind fun _ _ => avoids_pure (hf.push nofun)
  | registerLocale registry grouping =>
    exact (avoids_addRegistration _ _ _).bind fun _ _ => avoids_pure (hf.push nofun)
  | addLocaleProperty key target retain =>
    refine (avoids_pop hf).bind fun p hp => ?_
    obtain ⟨v, g⟩ := p
    cases v with
    | locale id => exact (avoids_addBinding id _).bind fun _ _ => avoids_pure hp.2
    | _ => exact avoids_fail
  | ret => exact (avoids_pop hf).bind fun _ hp => avoids_pure hp.1

theorem avoids_body {a : Activation} (ha : a.receiver ≠ o) (hargs : ∀ v ∈ a.args, v ≠ .object o) (fuel : Nat) {f : Frame}
    (hf : f.Lacks o) : Avoids o (body enter a fuel f) (· ≠ .object o) := by
  induction fuel generalizing f with
  | zero => exact fun _ _ => ends_throw
  | succ fuel ih =>
    rw [body]
    split
    · exact avoids_pure (Value.ne_object rfl o)
    · refine (avoids_step he ha hargs (f := { f with next := f.next + 1 }) ⟨hf.stack, hf.locals⟩ _).bind fun outcome h => ?_
      cases outcome with
      | go g => exact ih h
      | returned v => exact avoids_pure h

end

/-- A method of another object that is not given the object leaves it alone. -/
theorem avoids_enter (fuel : Nat) : ∀ (depth : Nat) (a : Activation), a.receiver ≠ o → (∀ v ∈ a.args, v ≠ .object o) →
    Avoids o (enter fuel depth a) (· ≠ .object o)
  | 0, _, _, _ => avoids_fail
  | depth + 1, a, ha, hargs => avoids_body (avoids_enter fuel depth) ha hargs fuel (Frame.lacks_start o a.method)

/-! ### New objects -/

/-- The fields of a new object hold no objects. -/
theorem isObject_ofList (fields : List (String × String)) {field : String} {v : Value}
    (h : (Table.ofList (fields.map fun (name, type) => (name, Value.defaultOf type))).find? field = some v) :
    v.isObject = false := by
  refine (List.foldlRecOn (motive := fun t : Table Value => ∀ name w, t.find? name = some w → w.isObject = false) _ _
    (fun _ _ hw => by cases hw) fun t ht entry hentry name w hw => ?_) field v h
  obtain ⟨⟨declared, type⟩, -, rfl⟩ := List.mem_map.mp hentry
  by_cases hname : name = declared
  · subst hname
    rw [Table.find?_put_self] at hw
    cases hw
    exact Value.isObject_defaultOf type
  · rw [Table.find?_put_of_ne _ _ hname] at hw
    exact ht name w hw

/-- A new object is another one. -/
theorem ends_allocate {m : Machine} (ho : o < m.objects.length) (hm : m.Secludes o) (image : ClassImage) :
    Ends (allocate image) m fun id m' => m.Spares o m' ∧ m'.Secludes o ∧ id ≠ o := by
  refine ends_get.bind ?_
  rintro m _ ⟨rfl, rfl⟩ _ _ ⟨⟩
  refine ⟨.of_same (List.getElem?_append_left ho) rfl, fun r hr field v hv => ?_, Nat.ne_of_gt ho⟩
  have hfield : ((m.objects ++ [⟨image, Table.ofList (image.fields.map fun (name, type) =>
      (name, Value.defaultOf type))⟩])[r]?.bind (·.fields.find? field)) = some v := hv
  by_cases hlt : r < m.objects.length
  · rw [List.getElem?_append_left hlt] at hfield
    exact hm r hr field v hfield
  · rw [List.getElem?_append_right (Nat.le_of_not_lt hlt)] at hfield
    obtain ⟨i, hi, hv⟩ := Option.bind_eq_some_iff.mp hfield
    rw [List.mem_singleton.mp (List.mem_of_getElem? hi)] at hv
    exact Value.ne_object (isObject_ofList _ hv) o

end Run

/-! ### From outside -/

/-- Something is asked of other objects, or for a new one, and the object is not handed over. -/
def Action.Elsewhere (o : Nat) (m : Machine) : Action → Prop
  | .construct _ => o < m.objects.length
  | .get r _ | .command r _ => r ≠ o
  | .set r _ v => r ≠ o ∧ v ≠ .object o
  | .call r _ args => r ≠ o ∧ ∀ v ∈ args, v ≠ .object o
  | .canExecute _ => True
  | .execute id argument => (∀ c, m.commands[id]? = some c → c.owner ≠ o) ∧ argument.getD .null ≠ .object o

namespace Action

open Run

/-- **Objects do not reach each other.**  Whatever is asked of other objects, and granted, leaves a secluded object and its
commands as they are, and the object secluded. -/
theorem spares {o fuel : Nat} {m : Machine} {action : Action} (hm : m.Secludes o) (h : action.Elsewhere o m) :
    Ends (action.perform fuel) m fun _ m' => m.Spares o m' ∧ m'.Secludes o := by
  have he (a : Activation) (ha : a.receiver ≠ o) (hargs : ∀ v ∈ a.args, v ≠ .object o) :
      Avoids o (enterFirst fuel a) (· ≠ .object o) := avoids_enter fuel maxDepth a ha hargs
  cases action with
  | construct className =>
    refine Ends.discard (ends_get.bind ?_)
    rintro m _ ⟨rfl, rfl⟩
    refine ends_ofOption.bind ?_
    rintro image _ ⟨rfl, -⟩
    refine (ends_allocate h hm image).bind fun id m₁ h₁ => ?_
    have hinitializer (i : Initializer) : Avoids o (runInitializer fuel id i) fun _ => True := by
      refine (he ⟨i.code, id, [], []⟩ h₁.2.2 (List.forall_mem_nil _)).bind fun v hv => ?_
      split
      · exact avoids_storeField h₁.2.2 _ hv
      · exact (avoids_invoke he [] h₁.2.2 _ (List.forall_mem_singleton.mpr hv)).discard
    have hrest : Avoids o (do
        image.initializers.forM (runInitializer fuel id)
        if image.derivesBase && image.methods.has image.initMethod then
          discard (invoke (enterFirst fuel) [] id image.initMethod [])
        return id) fun _ => True := by
      refine (avoids_forM fun i _ => hinitializer i).bind fun _ _ => ?_
      split
      · exact (avoids_invoke he [] h₁.2.2 _ (List.forall_mem_nil _)).discard.bind fun _ _ => avoids_pure trivial
      · exact avoids_pure trivial
    exact (hrest m₁ h₁.2.1).imp fun _ _ h₂ => ⟨h₁.1.trans h₂.1, h₂.2.1⟩
  | get r property => exact ((avoids_read he [] h property).discard m hm).imp fun _ _ h' => ⟨h'.1, h'.2.1⟩
  | set r property v =>
    have hset : Avoids o (setProperty fuel r property v) fun _ => True :=
      (avoids_accessor r property _).bind fun _ _ =>
        (avoids_invoke he [] h.1 _ (List.forall_mem_singleton.mpr h.2)).discard
    exact (hset m hm).imp fun _ _ h' => ⟨h'.1, h'.2.1⟩
  | call r method args => exact ((avoids_invoke he [] h.1 method h.2).discard m hm).imp fun _ _ h' => ⟨h'.1, h'.2.1⟩
  | command r property =>
    have hcommand : Avoids o (Run.command fuel r property) fun _ => True := by
      refine (avoids_read he [] h property).bind fun v _ => ?_
      cases v with
      | command id => exact avoids_pure trivial
      | _ => exact avoids_fail
    exact (hcommand.discard m hm).imp fun _ _ h' => ⟨h'.1, h'.2.1⟩
  | canExecute id =>
    have hcommand : Avoids o (Run.canExecute id) fun _ => True :=
      (avoids_command id).bind fun _ _ => avoids_pure trivial
    exact (hcommand.discard m hm).imp fun _ _ h' => ⟨h'.1, h'.2.1⟩
  | execute id argument =>
    refine Ends.discard (ends_command.bind ?_)
    rintro c _ ⟨rfl, hc⟩
    have hcall {args : List Value} (hargs : ∀ v ∈ args, v ≠ .object o) :
        Ends (Run.call fuel c.owner c.spec.method args) _ fun _ m' => Machine.Spares o _ m' ∧ m'.Secludes o :=
      (avoids_invoke he [] (h.1 c hc) c.spec.method hargs _ hm).imp fun _ _ h' => ⟨h'.1, h'.2.1⟩
    have hargs : ∀ v ∈ (if c.spec.takesArgument then [argument.getD .null] else []), v ≠ .object o := by
      split
      · exact List.forall_mem_singleton.mpr h.2
      · exact List.forall_mem_nil _
    by_cases henabled : c.enabled = true
    · simp only [henabled, if_true]
      exact hcall hargs
    · simp only [henabled]
      exact Ends.bind (P := fun _ _ => False) ends_throw fun _ _ h => h.elim

end Action

end Reactive
