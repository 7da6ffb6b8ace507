import Reactive.Proofs.Interpretation
import Reactive.Proofs.Quiet

/-!
# Reactive.Proofs.Drift — what harmless methods do to a machine

* `Scene.Drift`: something is observed that announces nothing, a lazy value is computed when it is first read, a command
  is created when it is first read; one after another.
* `Scene.Drift.quiet`: whatever drifts is quiet.
* `Scene.Raised`: behind the announcement of a change the commands that it enables are evaluated, one after another.
* `Scene.Confined`: other objects and their commands stay as they are, which is so if no values are objects.
* `Scene.Live`: the object of the scene is one of its class, and its fields hold values that it may have.
-/

namespace Reactive

open Stateful Run

/-- What is known of a command when it is created. -/
def CommandFactory.spec (f : CommandFactory) : CommandSpec :=
  ⟨f.method, f.argumentType.isSome, f.isAsync, f.enablement⟩

/-- The machine with one more command. -/
def Machine.withCommand (m : Machine) (owner : Nat) (spec : CommandSpec) (enabled : Bool) : Machine :=
  { m with commands := m.commands ++ [⟨owner, spec, enabled⟩] }

namespace Scene

variable (S : Scene) (fuel : Nat)

/-- Whether a new command of an object may run: always, or if a property says so. -/
inductive Gated (r : Nat) (m : Machine) : Option String → Bool → Machine → Prop
  | free : Gated r m none true m
  | read {property : String} {enabled : Bool} {depth : Nat} {refreshing : List Nat} {m' : Machine}
    (run : enablement (enter fuel depth) refreshing r property m = .ok enabled m') : Gated r m (some property) enabled m'

/-- What harmless methods do to a machine, one thing after another. -/
inductive Drift : Machine → Machine → Prop
  | refl (m : Machine) : Drift m m
  | trans {m m₁ m₂ : Machine} (first : Drift m m₁) (rest : Drift m₁ m₂) : Drift m m₂
  | logged (m : Machine) {e : Event} (silent : e.isAnnouncement = false) : Drift m (m.logged e)
  /-- A lazy value is computed. -/
  | computed {r : Nat} {L : LoadedClass} {model : ClassModel} {d : DerivedProperty} {slot : DerivedSlot} {flag : String}
    {value : Operand} {depth : Nat} {a : Activation} {fresh : Value} {m m₁ : Machine} (located : S.At r L m)
    (generated : L.model = some model) (mem : d ∈ model.derived) (slotted : d.slot = some slot)
    (flagged : slot.flag = some flag) (operand : model.operand? d = some value)
    (unset : m.field? r flag = some (.bool false)) (receiver : a.receiver = r)
    (run : operandValue (enter fuel depth) a [] value m = .ok fresh m₁) (drift : Drift m m₁)
    (admitted : S.Admits r fresh) : Drift m ((m₁.store r slot.value fresh).store r flag (.bool true))
  /-- A command is created. -/
  | created {r : Nat} {L : LoadedClass} {model : ClassModel} {c : CommandModel} {enabled : Bool} {m m₁ : Machine}
    (located : S.At r L m) (generated : L.model = some model) (mem : c ∈ model.commands)
    (empty : m.field? r c.slot = some .null) (gate : Gated fuel r m c.factory.enablement enabled m₁) (drift : Drift m m₁) :
    Drift m ((m₁.withCommand r c.factory.spec enabled).store r c.slot (.command m₁.commands.length))

/-- Commands are evaluated that a property of the object enables, one after another. -/
inductive Evaluated (property : String) : List Nat → Machine → Machine → Prop
  | nil (m : Machine) : Evaluated property [] m m
  | cons {id : Nat} {ids : List Nat} {depth : Nat} {enabled : Bool} {m m₁ m₂ m₃ : Machine}
    (run : enablement (enter fuel depth) [id] S.object property m = .ok enabled m₁) (drift : S.Drift fuel m m₁)
    (set : setEnabled id enabled m₁ = .ok () m₂) (rest : Evaluated property ids m₂ m₃) :
    Evaluated property (id :: ids) m m₃

/-- The change of a property is announced, and the commands are evaluated that the property enables. -/
def Raised (property : String) (m m' : Machine) : Prop :=
  S.Evaluated fuel property (gated m.commands S.object property) (m.logged (.changed S.object property)) m'

variable {S fuel} {m m' : Machine}

/-- The class and the model of the object of the scene. -/
theorem At.own_model {r : Nat} {L : LoadedClass} {model : ClassModel} (h : S.At r L m) (hr : r = S.object)
    (hmodel : L.model = some model) : L = S.own ∧ model = S.model := by
  obtain rfl := h.own hr
  rw [S.generated] at hmodel
  cases hmodel
  exact ⟨rfl, rfl⟩

/-- The fields of a lazy value that has not been computed are not kept. -/
theorem not_keeps_lazy {r : Nat} {L : LoadedClass} {model : ClassModel} (hat : S.At r L m) (hmodel : L.model = some model)
    {d : DerivedProperty} (hd : d ∈ model.derived) {slot : DerivedSlot} (hslot : d.slot = some slot) {flag : String}
    (hflag : slot.flag = some flag) (hunset : m.field? r flag = some (.bool false)) {field : String}
    (hfield : field ∈ d.fieldNames) (hr : r = S.object) : ¬ S.Keeps m field := by
  intro hkeeps
  obtain ⟨rfl, rfl⟩ := hat.own_model hr hmodel
  obtain heager | ⟨flag', hflag', hset⟩ := hkeeps.of_mem hd hslot hfield
  · have hlazy := ((S.own_generated.2.derived d hd).lazy slot hslot).mp (by rw [hflag]; rfl)
    rw [heager] at hlazy
    cases hlazy
  · rw [hflag] at hflag'
    cases hflag'
    rw [← hr, hunset] at hset
    cases hset

/-- Whatever drifts is quiet. -/
theorem Drift.quiet (h : S.Drift fuel m m') : S.Quiet m m' := by
  induction h with
  | refl m => exact .refl m
  | trans _ _ ih₁ ih₂ => exact ih₁.trans ih₂
  | logged m silent => exact .logged silent
  | computed located generated mem slotted flagged _ unset _ _ _ _ ih =>
    have hfree {field : String} (hfield : field ∈ DerivedProperty.fieldNames _) :=
      not_keeps_lazy located generated mem slotted flagged unset hfield
    exact (ih.store (hfree (value_mem_fieldNames slotted))).store (hfree (flag_mem_fieldNames slotted flagged))
  | @created r L model c enabled m m₁ located generated mem _ _ _ ih =>
    have hadded : S.Quiet m (m₁.withCommand r c.factory.spec enabled) := ih.trans (.of_same rfl rfl)
    refine hadded.store fun hr => ?_
    obtain ⟨rfl, rfl⟩ := located.own_model hr generated
    exact not_keeps_command mem

/-- A value is stored that the object may have. -/
theorem Clear.store (h : S.Clear m) {r : Nat} {field : String} {v : Value} (hv : S.Admits r v) :
    S.Clear (m.store r field v) := by
  intro name w hw
  rw [Machine.field?_store] at hw
  split at hw
  · rename_i hstored
    cases hw
    exact hstored.1 ▸ hv
  · exact h name w hw

theorem Clear.of_objects (h : S.Clear m) (hobjects : m'.objects = m.objects) : S.Clear m' := by
  intro field v hv
  rw [Machine.field?, hobjects] at hv
  exact h field v hv

/-- The fields of the object still hold values that it may have. -/
theorem Drift.clear (h : S.Drift fuel m m') (hclear : S.Clear m) : S.Clear m' := by
  induction h with
  | refl m => exact hclear
  | trans _ _ ih₁ ih₂ => exact ih₂ (ih₁ hclear)
  | logged m silent => exact hclear
  | computed _ _ _ _ _ _ _ _ _ _ admitted ih => exact ((ih hclear).store admitted).store fun _ _ => rfl
  | @created r L model c enabled m m₁ _ _ _ _ _ _ ih =>
    have hadded : S.Clear (m₁.withCommand r c.factory.spec enabled) := (ih hclear).of_objects rfl
    exact hadded.store fun _ _ => rfl

/-- Enabling a command changes no object and announces nothing. -/
theorem ends_setEnabled {id : Nat} {enabled : Bool} :
    Ends (setEnabled id enabled) m fun _ m' => m'.objects = m.objects ∧
      m'.commands = m.commands.modify id (fun c => { c with enabled := enabled }) ∧
        ∃ log, m'.events = m.events ++ log ∧ ∀ e ∈ log, e.isAnnouncement = false := by
  refine ends_command.bind ?_
  rintro c m ⟨rfl, hc⟩
  split
  · rintro _ _ ⟨⟩
    exact ⟨rfl, rfl, [_], rfl, fun _ he => List.mem_singleton.mp he ▸ rfl⟩
  · rename_i hsame
    refine ends_pure ⟨rfl, ?_, [], (List.append_nil _).symm, nofun⟩
    obtain ⟨hlt, rfl⟩ := List.getElem?_eq_some_iff.mp hc
    rw [List.modify_eq_set_getElem?, hc, ← not_not.mp hsame]
    exact (List.set_getElem_self hlt).symm

theorem Evaluated.quiet {property : String} {ids : List Nat} (h : S.Evaluated fuel property ids m m') : S.Quiet m m' := by
  induction h with
  | nil m => exact .refl m
  | cons _ drift set _ ih =>
    obtain ⟨hobjects, -, hlog⟩ := ends_setEnabled _ _ set
    refine (drift.quiet.trans ⟨hlog, by rw [hobjects], fun _ _ => ?_⟩).trans ih
    rw [Machine.field?, hobjects]
    rfl

/-- Behind the announcement of a change everything is quiet. -/
theorem Raised.quiet {property : String} (h : S.Raised fuel property m m') :
    S.Quiet (m.logged (.changed S.object property)) m' := Evaluated.quiet h

/-! ### Other objects and their commands -/

/-- Other objects stay as they are.  Commands stay, those of other objects as they are, and new ones are of the object. -/
structure Confined (S : Scene) (m m' : Machine) : Prop where
  objects : ∀ r, r ≠ S.object → m'.objects[r]? = m.objects[r]?
  kept : ∀ (i : Nat) (c : CommandState), m.commands[i]? = some c →
    ∃ enabled, m'.commands[i]? = some { c with enabled } ∧ (c.owner ≠ S.object → enabled = c.enabled)
  added : ∀ (i : Nat) (c : CommandState), m'.commands[i]? = some c → m.commands[i]? = none →
    c.owner = S.object ∧ ∃ model ∈ S.model.commands, c.spec = model.factory.spec

theorem Confined.of_same (hobjects : ∀ r, r ≠ S.object → m'.objects[r]? = m.objects[r]?) (hcommands : m'.commands = m.commands) :
    S.Confined m m' := by
  refine ⟨hobjects, fun i c hc => ⟨c.enabled, hcommands ▸ hc, fun _ => rfl⟩, fun i c hc hnone => ?_⟩
  rw [hcommands, hnone] at hc
  cases hc

theorem Confined.refl (m : Machine) : S.Confined m m := .of_same (fun _ _ => rfl) rfl

theorem Confined.logged (m : Machine) (e : Event) : S.Confined m (m.logged e) := .of_same (fun _ _ => rfl) rfl

theorem Confined.store (m : Machine) (field : String) (v : Value) : S.Confined m (m.store S.object field v) :=
  .of_same (fun _ hr => m.getElem?_store_of_ne field v hr) rfl

theorem Confined.trans {m₁ m₂ m₃ : Machine} (h : S.Confined m₁ m₂) (h' : S.Confined m₂ m₃) : S.Confined m₁ m₃ := by
  refine ⟨fun r hr => (h'.objects r hr).trans (h.objects r hr), fun i c hc => ?_, fun i c hc hnone => ?_⟩
  · obtain ⟨enabled, hc₂, hsame⟩ := h.kept i c hc
    obtain ⟨enabled', hc₃, hsame'⟩ := h'.kept i _ hc₂
    exact ⟨enabled', hc₃, fun howner => (hsame' howner).trans (hsame howner)⟩
  · cases hi : m₂.commands[i]? with
    | none => exact h'.added i c hc hi
    | some c₂ =>
      obtain ⟨enabled, hc₃, -⟩ := h'.kept i c₂ hi
      rw [hc] at hc₃
      cases hc₃
      exact h.added i c₂ hi hnone

/-- A command that was of the object stays so. -/
theorem Confined.owner (h : S.Confined m m') {id : Nat} (hid : ∀ c, m.commands[id]? = some c → c.owner = S.object) :
    ∀ c, m'.commands[id]? = some c → c.owner = S.object := by
  intro c hc
  cases hi : m.commands[id]? with
  | none => exact (h.added id c hc hi).1
  | some c₀ =>
    obtain ⟨enabled, hc', -⟩ := h.kept id c₀ hi
    rw [hc] at hc'
    cases hc'
    exact hid c₀ hi

theorem Confined.withCommand (m : Machine) {c : CommandModel} (hc : c ∈ S.model.commands) (enabled : Bool) :
    S.Confined m (m.withCommand S.object c.factory.spec enabled) := by
  refine ⟨fun _ _ => rfl, fun i c' hc' => ⟨c'.enabled, ?_, fun _ => rfl⟩, fun i c' hc' hnone => ?_⟩
  · exact (List.getElem?_append_left (List.getElem?_eq_some_iff.mp hc').1).trans hc'
  · have hadded : (m.commands ++ [⟨S.object, c.factory.spec, enabled⟩])[i]? = some c' := hc'
    rw [List.getElem?_append_right (List.getElem?_eq_none_iff.mp hnone)] at hadded
    obtain rfl := List.mem_singleton.mp (List.mem_of_getElem? hadded)
    exact ⟨rfl, c, hc, rfl⟩

/-- Enabling a command of the object. -/
theorem Confined.setEnabled {id : Nat} {enabled : Bool} (hset : Run.setEnabled id enabled m = .ok () m')
    (hid : ∀ c, m.commands[id]? = some c → c.owner = S.object) : S.Confined m m' := by
  obtain ⟨hobjects, hcommands, -⟩ := ends_setEnabled _ _ hset
  refine ⟨fun r _ => by rw [hobjects], fun i c hc => ?_, fun i c hc hnone => ?_⟩
  · rw [hcommands, List.getElem?_modify, hc]
    by_cases hi : id = i
    · exact ⟨enabled, by simp [hi], fun howner => absurd (hid c (hi ▸ hc)) howner⟩
    · exact ⟨c.enabled, by simp [hi], fun _ => rfl⟩
  · rw [hcommands, List.getElem?_modify, hnone] at hc
    cases hc

/-- What drifts concerns the object alone, if no values are objects. -/
theorem Drift.confined (hplain : S.plain) (h : S.Drift fuel m m') : S.Confined m m' := by
  induction h with
  | refl m => exact .refl m
  | trans _ _ ih₁ ih₂ => exact ih₁.trans ih₂
  | logged m _ => exact .logged m _
  | computed located _ _ _ _ _ _ _ _ _ _ ih =>
    obtain rfl := located.near hplain
    exact (ih.trans (.store _ _ _)).trans (.store _ _ _)
  | created located generated mem _ _ _ ih =>
    obtain rfl := located.near hplain
    obtain ⟨rfl, rfl⟩ := located.own_model rfl generated
    exact (ih.trans (.withCommand _ mem _)).trans (.store _ _ _)

theorem Evaluated.confined (hplain : S.plain) {property : String} {ids : List Nat} (h : S.Evaluated fuel property ids m m')
    (hids : ∀ id ∈ ids, ∀ c, m.commands[id]? = some c → c.owner = S.object) : S.Confined m m' := by
  induction h with
  | nil m => exact .refl m
  | cons _ drift set _ ih =>
    have hset := (drift.confined hplain).trans
      (.setEnabled set ((drift.confined hplain).owner (hids _ List.mem_cons_self)))
    exact hset.trans (ih fun id hid => hset.owner (hids id (List.mem_cons_of_mem _ hid)))

theorem owner_of_gated {commands : List CommandState} {object id : Nat} {property : String}
    (h : id ∈ gated commands object property) {c : CommandState} (hc : commands[id]? = some c) :
    c.owner = object ∧ c.spec.canExecute = some property := by
  have hgate := (List.mem_filter.mp h).2
  rw [hc] at hgate
  simpa using hgate

theorem Raised.confined (hplain : S.plain) {property : String} (h : S.Raised fuel property m m') : S.Confined m m' := by
  have hevaluated := Evaluated.confined hplain h fun id hid c hc => (owner_of_gated hid hc).1
  exact (Confined.logged m _).trans hevaluated

/-! ### The object of the scene -/

/-- The object of the scene is one of its class, and its fields hold values that it may have. -/
structure Live (S : Scene) (m : Machine) : Prop where
  located : S.At S.object S.own m
  clear : S.Clear m

theorem Live.of_objects (h : S.Live m) (hobjects : m'.objects = m.objects) : S.Live m' :=
  ⟨h.located.of_images (by rw [hobjects]), h.clear.of_objects hobjects⟩

theorem Live.logged (h : S.Live m) (e : Event) : S.Live (m.logged e) := h.of_objects rfl

theorem Live.store (h : S.Live m) {field : String} {v : Value} (hv : S.Admits S.object v) :
    S.Live (m.store S.object field v) :=
  ⟨h.located.of_images (Machine.images_store ..), h.clear.store hv⟩

theorem Live.drift (h : S.Live m) (hdrift : S.Drift fuel m m') : S.Live m' :=
  ⟨h.located.of_images hdrift.quiet.images, hdrift.clear h.clear⟩

theorem Evaluated.live {property : String} {ids : List Nat} (h : S.Evaluated fuel property ids m m') (hlive : S.Live m) :
    S.Live m' := by
  induction h with
  | nil m => exact hlive
  | cons _ drift set _ ih => exact ih ((hlive.drift drift).of_objects (ends_setEnabled _ _ set).1)

theorem Raised.live {property : String} (h : S.Raised fuel property m m') (hlive : S.Live m) : S.Live m' :=
  Evaluated.live h (hlive.logged _)

end Scene

end Reactive
