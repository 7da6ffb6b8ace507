import Reactive.Proofs.Freshness
import Reactive.Proofs.Isolation

/-!
# Reactive.Proofs.Asking — what an object is asked, and what that leads to

* `Action.Ordinary`: properties are read and written, commands are read and executed, and no object is handed over; of
  other objects anything may be asked.
* `Setting.Regular`: derived values have no setter, gates are members, and no command is one of the init method.
* `Setting.Stands`: the object is in its place: no other object has it, and its commands are those of its class.
* `Setting.Moves`: what an ordinary action leads to: harmless methods run, a reactive property is written, a field of
  another property is, or something happens elsewhere.
* `Setting.moves_perform`: an ordinary action that is granted leads to one of these.
-/

namespace Reactive

open Stateful Run

/-- What an object is asked once it is initialized.  Other objects may be asked anything, with values that are no objects.
-/
def Action.Ordinary (o : Nat) : Action → Prop
  | .construct _ | .get .. | .command .. | .canExecute _ => True
  | .set _ _ v => v.isObject = false
  | .call r _ args => r ≠ o ∧ ∀ v ∈ args, v.isObject = false
  | .execute _ argument => (argument.getD .null).isObject = false

/-- An automatic setter stores its argument. -/
theorem Scene.simulates_fieldSetter {enter : Enter} {property field : String} {receiver : Nat} {v : Value}
    {refreshing : List Nat} : Simulates enter ⟨ClassImage.fieldSetter property field, receiver, [v], refreshing⟩
      (.start (ClassImage.fieldSetter property field)) (storeField receiver field v >>= fun _ => pure .null) .returned := by
  refine Simulates.before (v := v) (Simulates.instruction (i := .loadArg 0) rfl (step_loadArg _ _ _ _ _ _)
    fun _ => Nat.lt_succ_self _) ?_
  refine Simulates.seq (Simulates.instruction (i := .storeField field) rfl (step_storeField _ _ _ _ _ _ _)
    fun _ => Nat.lt_succ_self _) fun _ => ?_
  exact .return_ (i := .retVoid) rfl rfl Value.null rfl

namespace Setting

/-- Derived values have no setter, commands are enabled by reactive properties and derived values, and no command is one of
a method of the name of the init method. -/
structure Regular (T : Setting) : Prop where
  unwritten : ∀ d ∈ T.model.derived, ∀ p, T.own.image.properties.find? d.name = some p → p.setter = none
  gates : ∀ k ∈ T.model.commands, ∀ g, k.factory.enablement = some g → T.Among (fun _ => True) g
  commands : ∀ k ∈ T.model.commands, k.method ≠ T.model.initMethod

/-- The object is in its place: no other object has it, and its commands are those of its class. -/
structure Stands (T : Setting) (m : Machine) : Prop where
  live : T.Live m
  classes : m.Of T.classes
  secluded : m.Secludes T.object
  commands : ∀ c ∈ m.commands, c.owner = T.object → ∃ k ∈ T.model.commands, c.spec = k.factory.spec

/-- What an ordinary action leads to. -/
inductive Moves (T : Setting) (fuel : Nat) (m : Machine) : Machine → Prop
  | drifts {m' : Machine} (drift : T.Drift fuel m m') : Moves T fuel m m'
  | writes {p : MutableProperty} {v : Value} {m' : Machine} (mem : p ∈ T.model.mutableProperties)
    (plain : v.isObject = false) (written : T.Written fuel p v m m') : Moves T fuel m m'
  /-- The field of a property is written that is neither reactive nor derived. -/
  | assigns {x : String} {v : Value} (apart : ∀ d ∈ T.model.derived, d.name ≠ x) (plain : v.isObject = false) :
    Moves T fuel m (m.store T.object (Naming.autoField x) v)
  | elsewhere {m' : Machine} (spares : m.Spares T.object m') (secluded : m'.Secludes T.object) : Moves T fuel m m'

variable {T : Setting} {fuel : Nat} {m m' : Machine}

/-! ### What a move leaves -/

/-- The fields of the object are as they were. -/
theorem field?_of_spares (h : m.Spares T.object m') (field : String) : m'.field? T.object field = m.field? T.object field := by
  rw [Machine.field?, h.object]
  rfl

/-- The object is where it was. -/
theorem live_of_spares (h : T.Live m) (hclasses : m'.Of T.classes) (hspares : m.Spares T.object m') : T.Live m' := by
  obtain ⟨i, hi, himage⟩ := h.located.image
  refine ⟨⟨fun r j hj => ?_, T.mem, fun _ => rfl, fun _ => rfl, i, hspares.object.trans hi, himage⟩, fun field v hv => ?_⟩
  · by_cases hr : r = T.object
    · subst hr
      rw [hspares.object, hi] at hj
      cases hj
      exact ⟨T.own, T.mem, himage, fun _ => rfl⟩
    · obtain ⟨L, hL, hj⟩ := hclasses.objects j (List.mem_of_getElem? hj)
      exact ⟨L, hL, hj, fun heq => absurd heq hr⟩
  · exact h.clear field v ((field?_of_spares hspares field).symm.trans hv)

/-- The only object is in its place while there are no commands. -/
theorem Stands.of_sole (hlive : T.Live m) (hclasses : m.Of T.classes) (hsole : m.objects.length = 1) (hnone : m.commands = []) :
    T.Stands m := by
  refine ⟨hlive, hclasses, fun r hr field v hv => ?_, fun c hc => ?_⟩
  · obtain ⟨i, hi, -⟩ := hlive.located.image
    have hobject := (List.getElem?_eq_some_iff.mp hi).1
    rw [Machine.field?, List.getElem?_eq_none (by omega)] at hv
    cases hv
  · rw [hnone] at hc
    cases hc

/-- What concerns the object alone leaves the others without it, and its commands are those of its class. -/
theorem Stands.confined (h : T.Stands m) (hlive : T.Live m') (hclasses : m'.Of T.classes) (hconfined : T.Confined m m') :
    T.Stands m' := by
  refine ⟨hlive, hclasses, fun r hr field v hv => ?_, fun c hc howner => ?_⟩
  · rw [Machine.field?, hconfined.objects r hr] at hv
    exact h.secluded r hr field v hv
  · obtain ⟨i, hi⟩ := List.mem_iff_getElem?.mp hc
    cases hbefore : m.commands[i]? with
    | none => exact (hconfined.added i c hi hbefore).2
    | some c₀ =>
      obtain ⟨enabled, hi', -⟩ := hconfined.kept i c₀ hbefore
      rw [hi] at hi'
      cases hi'
      exact h.commands c₀ (List.mem_of_getElem? hbefore) howner

/-- Behind a move the object is still in its place. -/
theorem Stands.moves (h : T.Stands m) (hclasses : m'.Of T.classes) (hmove : T.Moves fuel m m') : T.Stands m' := by
  cases hmove with
  | drifts drift => exact h.confined (h.live.drift drift) hclasses (drift.confined T.leaves)
  | writes _ plain written =>
    exact h.confined (written.live h.live fun _ _ => plain) hclasses (written.confined T.leaves)
  | assigns _ plain => exact h.confined (h.live.store fun _ _ => plain) hclasses (.store m _ _)
  | elsewhere spares secluded =>
    refine ⟨live_of_spares h.live hclasses spares, hclasses, secluded, fun c hc howner => ?_⟩
    obtain ⟨i, hi⟩ := List.mem_iff_getElem?.mp hc
    exact h.commands c (List.mem_of_getElem? ((spares.commands i c howner).mp hi)) howner

/-- The fields of generated members are as they were, and those of derived values that are automatic properties. -/
structure Unmoved (T : Setting) (m m' : Machine) : Prop where
  generated : ∀ field ∈ T.model.fieldNames, m'.field? T.object field = m.field? T.object field
  automatic : ∀ d ∈ T.model.derived,
    m'.field? T.object (Naming.autoField d.name) = m.field? T.object (Naming.autoField d.name)

theorem Unmoved.reactive (h : T.Unmoved m m') {p : MutableProperty} (hp : p ∈ T.model.mutableProperties) :
    m'.field? T.object p.slot = m.field? T.object p.slot := by
  refine h.generated _ ?_
  rw [ClassModel.fieldNames, List.mem_append, List.mem_append]
  exact Or.inl (Or.inl (List.mem_map_of_mem hp))

theorem Unmoved.derived (h : T.Unmoved m m') {d : DerivedProperty} (hd : d ∈ T.model.derived) {field : String}
    (hfield : field ∈ d.fieldNames) : m'.field? T.object field = m.field? T.object field := by
  refine h.generated _ ?_
  rw [ClassModel.fieldNames, List.mem_append, List.mem_append]
  exact Or.inl (Or.inr (List.mem_flatMap.mpr ⟨d, hd, hfield⟩))

theorem Unmoved.slot (h : T.Unmoved m m') {k : CommandModel} (hk : k ∈ T.model.commands) :
    m'.field? T.object k.slot = m.field? T.object k.slot := by
  refine h.generated _ ?_
  rw [ClassModel.fieldNames, List.mem_append]
  exact Or.inr (List.mem_map_of_mem hk)

theorem Unmoved.same (h : T.Unmoved m m') (C : PropertyId → Prop) : T.Same C m m' :=
  ⟨fun _ hp _ => h.reactive hp, fun _ he _ _ hfield => h.derived he hfield, fun e he _ => h.automatic e he⟩

/-- The field of another automatic property is written. -/
theorem unmoved_store {x : String} (hapart : ∀ d ∈ T.model.derived, d.name ≠ x) (v : Value) :
    T.Unmoved m (m.store T.object (Naming.autoField x) v) := by
  have hother {name : String} (hne : name ≠ Naming.autoField x) :
      (m.store T.object (Naming.autoField x) v).field? T.object name = m.field? T.object name := by
    rw [Machine.field?_store, if_neg fun hsame => hne hsame.2.1]
  refine ⟨fun field hfield => hother ?_, fun d hd => hother fun heq => hapart d hd (Naming.autoField_inj heq)⟩
  rintro rfl
  exact T.fields x hfield

/-- Something happens elsewhere. -/
theorem unmoved_of_spares (h : m.Spares T.object m') : T.Unmoved m m' :=
  ⟨fun _ _ => field?_of_spares h _, fun _ _ => field?_of_spares h _⟩

/-! ### Reading and executing -/

/-- Reading a property of the object. -/
theorem moves_read (hlive : T.Live m) (x : String) :
    Ends (getProperty fuel T.object x) m fun _ m' => T.Moves fuel m m' := by
  have hcalm := Scene.calm_read (r := T.object) (L := T.own) (T.enters fuel maxDepth) [] (fun _ => rfl) x
  exact (hcalm m hlive.located hlive.clear).imp fun _ _ h => .drifts h.1

/-- The method of a command is a declared one. -/
theorem harmless_command (hregular : T.Regular) {k : CommandModel} (hk : k ∈ T.model.commands) {method : CompiledMethod}
    (hfind : T.own.image.methods.find? k.method = some method) (args : List Value) :
    T.own.Harmless T.object method args := by
  obtain ⟨params, body, hbody, hcompiled⟩ :=
    hasBody_of_declared (T.own_generated.2.commands k hk).declared (hregular.commands k hk) hfind
  exact .body args hbody hcompiled

/-- Executing a command of the object runs a declared method. -/
theorem moves_execute (hregular : T.Regular) (hlive : T.Live m) {k : CommandModel} (hk : k ∈ T.model.commands)
    {args : List Value} (hargs : ∀ v ∈ args, v.isObject = false) :
    Ends (Run.call fuel T.object k.method args) m fun _ m' => T.Moves fuel m m' := by
  refine (Scene.ends_invoke (T.enters fuel maxDepth) hlive.located hlive.clear fun method hfind => ?_).imp
    fun _ _ h => .drifts h.1
  exact ⟨harmless_command hregular hk hfind args, fun v hv _ _ => hargs v hv⟩

/-! ### Writing -/

/-- A setter that is not generated is that of an automatic property. -/
theorem autoSetter_of_defines {x : String} {method : CompiledMethod} (h : T.own.declaration.Defines method)
    (hname : method.name = Naming.setter x) : method = ClassImage.fieldSetter x (Naming.autoField x) := by
  cases h with
  | body declared compiled =>
    have hbody := (name_ofBody compiled).symm.trans hname
    cases declared with
    | getter => exact absurd hbody (Naming.getter_ne_setter _ _)
    | method mem kind => exact absurd hbody (T.distinct.methods _ mem _ kind x).2
  | autoGetter property => exact absurd hname (Naming.getter_ne_setter _ _)
  | autoSetter property => rw [Naming.setter_inj hname]

/-- A generated method that has the name of a setter is one of a reactive property. -/
theorem setter_cases {x : String} (hinit : Naming.setter x ≠ T.model.initMethod) {signature : MethodSignature}
    {body : List Statement} (h : T.model.HasMethod signature body) (hname : signature.name = Naming.setter x) :
    ∃ p ∈ T.model.mutableProperties, p.name = x := by
  cases h with
  | mutableSetter p mem => exact ⟨p, mem, Naming.setter_inj hname⟩
  | raiseAndSet p mem => exact absurd hname.symm (Naming.setter_ne_raiseAndSet _ _)
  | mutableGetter p mem => exact absurd hname (Naming.getter_ne_setter _ _)
  | derivedGetter d mem => exact absurd hname (Naming.getter_ne_setter _ _)
  | recompute d mem => exact absurd hname.symm (Naming.setter_ne_recompute _ _)
  | commandGetter c mem => exact absurd hname (Naming.getter_ne_setter _ _)
  | init => exact absurd hname.symm hinit

/-- Writing a property of the object. -/
theorem moves_setProperty (hregular : T.Regular) (hlive : T.Live m) (x : String) {v : Value} (hv : v.isObject = false) :
    Ends (setProperty fuel T.object x v) m fun _ m' => T.Moves fuel m m' := by
  by_cases hx : ∃ p ∈ T.model.mutableProperties, p.name = x
  · obtain ⟨p, hp, rfl⟩ := hx
    exact (Scene.written_setProperty T.orderly hlive hp fun _ _ => hv).imp fun _ _ h => .writes hp hv h
  refine ends_accessor.bind ?_
  rintro setter m ⟨rfl, i, q, hi, hq, hsetter⟩
  rw [hlive.located.image_eq hi] at hq
  obtain ⟨rfl, hinit⟩ := T.own_generated.1.setters x q setter hq hsetter
  have hapart : ∀ d ∈ T.model.derived, d.name ≠ x := by
    rintro d hd rfl
    rw [hregular.unwritten d hd q hq] at hsetter
    cases hsetter
  refine Ends.discard (ends_instance.bind ?_)
  rintro i m ⟨rfl, hi⟩
  dsimp only
  rw [hlive.located.image_eq hi]
  split
  · rename_i method hfind
    obtain ⟨hname, ⟨signature, body, hmethod, hsignature, -⟩ | ⟨hdefines, -⟩⟩ := T.own_generated.1.methods _ _ hfind
    · exact absurd (setter_cases hinit hmethod hsignature) hx
    · obtain rfl := autoSetter_of_defines hdefines hname
      refine Scene.ends_body Scene.simulates_fieldSetter ?_
      refine ends_storeField.bind ?_
      rintro _ _ ⟨rfl, -⟩
      exact ends_pure (.assigns hapart hv)
  · split
    · refine ends_log.bind ?_
      rintro _ _ rfl
      exact ends_pure (.drifts (.logged _ rfl))
    · split <;> exact ends_throw

/-! ### Whatever is asked -/

/-- Something that is asked of other objects is asked elsewhere. -/
theorem moves_elsewhere (h : T.Stands m) {action : Action} (helsewhere : action.Elsewhere T.object m) :
    Ends (action.perform fuel) m fun _ m' => T.Moves fuel m m' :=
  (Action.spares h.secluded helsewhere).imp fun _ _ h' => .elsewhere h'.1 h'.2

/-- What is asked, and granted, moves the object or something else. -/
theorem moves_perform (hregular : T.Regular) (h : T.Stands m) {action : Action} (hordinary : action.Ordinary T.object) :
    Ends (action.perform fuel) m fun _ m' => T.Moves fuel m m' := by
  have hread (x : String) : Ends (getProperty fuel T.object x) m fun _ m' => T.Moves fuel m m' := moves_read h.live x
  cases action with
  | construct className =>
    obtain ⟨i, hi, -⟩ := h.live.located.image
    exact moves_elsewhere h (List.getElem?_eq_some_iff.mp hi).1
  | get r x =>
    by_cases hr : r = T.object
    · subst hr
      exact (hread x).discard
    · exact moves_elsewhere h hr
  | set r x v =>
    by_cases hr : r = T.object
    · subst hr
      exact moves_setProperty hregular h.live x hordinary
    · exact moves_elsewhere h ⟨hr, Value.ne_object hordinary T.object⟩
  | call r method args =>
    exact moves_elsewhere h ⟨hordinary.1, fun v hv => Value.ne_object (hordinary.2 v hv) T.object⟩
  | command r x =>
    by_cases hr : r = T.object
    · subst hr
      refine Ends.discard ((hread x).bind fun v m' hmove => ?_)
      cases v with
      | command id => exact ends_pure hmove
      | _ => exact ends_throw
    · exact moves_elsewhere h hr
  | canExecute id => exact moves_elsewhere h trivial
  | execute id argument =>
    by_cases hid : ∀ c, m.commands[id]? = some c → c.owner ≠ T.object
    · exact moves_elsewhere h ⟨hid, Value.ne_object hordinary T.object⟩
    · obtain ⟨c, hc, howner⟩ : ∃ c, m.commands[id]? = some c ∧ c.owner = T.object := by simpa using hid
      obtain ⟨k, hk, hspec⟩ := h.commands c (List.mem_of_getElem? hc) howner
      refine Ends.discard (ends_command.bind ?_)
      rintro c' m ⟨rfl, hc'⟩
      obtain rfl : c = c' := Option.some.inj (hc.symm.trans hc')
      have hargs : ∀ v ∈ if c.spec.takesArgument then [argument.getD .null] else [], v.isObject = false := by
        split
        · exact List.forall_mem_singleton.mpr hordinary
        · exact List.forall_mem_nil _
      have hexecute : Ends (Run.call fuel T.object k.method _) m fun _ m' => T.Moves fuel m m' :=
        moves_execute hregular h.live hk hargs
      rw [howner, show c.spec.method = k.method by rw [hspec]; rfl]
      by_cases henabled : c.enabled = true
      · simp only [henabled, if_true]
        exact hexecute
      · simp only [henabled]
        exact Ends.bind (P := fun _ _ => False) ends_throw fun _ _ => False.elim

/-! ### One thing after another -/

/-- What an object comes to while it is asked one ordinary thing after another, and each is granted. -/
inductive Uses (T : Setting) (m : Machine) : Machine → Prop
  | none : Uses T m m
  | one {fuel : Nat} {action : Action} {m₁ m₂ : Machine} (before : Uses T m m₁) (ordinary : action.Ordinary T.object)
    (granted : action.perform fuel m₁ = .ok () m₂) : Uses T m m₂

/-- The object stays in its place. -/
theorem Stands.uses (hregular : T.Regular) (h : T.Stands m) (huses : T.Uses m m') : T.Stands m' := by
  induction huses with
  | none => exact h
  | @one fuel action m₁ m₂ _ ordinary granted ih =>
    have hclasses := action.keeps_perform fuel m₁ ih.classes
    rw [granted] at hclasses
    exact ih.moves hclasses (moves_perform hregular ih ordinary () m₂ granted)

/-- What every move keeps is kept. -/
theorem Uses.induct {P : Machine → Prop} (hregular : T.Regular) (h : T.Stands m) (hstart : P m)
    (hmove : ∀ fuel m₁ m₂, T.Stands m₁ → T.Stands m₂ → P m₁ → T.Moves fuel m₁ m₂ → P m₂) (huses : T.Uses m m') : P m' := by
  induction huses with
  | none => exact hstart
  | one before ordinary granted ih =>
    have hstands := h.uses hregular before
    exact hmove _ _ _ hstands (h.uses hregular (before.one ordinary granted)) ih
      (moves_perform hregular hstands ordinary () _ granted)

end Setting

end Reactive
