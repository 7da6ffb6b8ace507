import Reactive.Proofs.Denotation
import Reactive.Proofs.Drift
import Reactive.Proofs.Propagation

/-!
# Reactive.Proofs.Reading — the values of members, without running anything

* `LoadedClass.formula?`: what a derived value is computed from, as an expression or as a method without a body.
* `Setting`: a scene in which derived values are computed from their sources alone.
* `Setting.Reads`: what a member's value is in a machine: what its field holds, or what is computed from the values of
  other members.  A member has at most one value (`Setting.Reads.unique`).
* `Setting.Reads.of_same`: the value depends on nothing but fields of sources.
* `Setting.Settles`: lazy values may have been computed meanwhile, which changes the value of no member.
-/

namespace Reactive

/-! ### Formulas -/

namespace MemberDecl

/-- The name of the method that the body of a member becomes. -/
def bodyName (m : MemberDecl) : String :=
  match m.kind with
  | .property _ => Naming.getter m.name
  | .method _ => m.name

/-- The parameters and the body of a getter or a method. -/
def body? (m : MemberDecl) : Option (List String × Expr) :=
  match m.kind with
  | .property p => p.getterBody?.map fun body => ([], body)
  | .method decl => decl.body.map fun body => (decl.params.map Param.name, body)

end MemberDecl

namespace ClassDecl

/-- The parameters and the body of the first declared getter or method of a name. -/
def body? (c : ClassDecl) (name : String) : Option (List String × Expr) :=
  (c.members.find? (·.bodyName = name)).bind MemberDecl.body?

/-- Members have names of their own, and no method has the name of an accessor. -/
structure Distinct (c : ClassDecl) : Prop where
  names : c.names.Nodup
  methods : ∀ m ∈ c.members, ∀ decl, m.kind = .method decl → ∀ x, m.name ≠ Naming.getter x ∧ m.name ≠ Naming.setter x

variable {c : ClassDecl}

theorem Distinct.eq_of_bodyName (h : c.Distinct) {m m' : MemberDecl} (hm : m ∈ c.members) (hm' : m' ∈ c.members)
    (heq : m.bodyName = m'.bodyName) : m = m' := by
  refine List.inj_on_of_nodup_map h.names hm hm' ?_
  unfold MemberDecl.bodyName at heq
  cases hk : m.kind with
  | property p =>
    cases hk' : m'.kind with
    | property p' =>
      rw [hk, hk'] at heq
      exact Naming.getter_inj heq
    | method decl' =>
      rw [hk, hk'] at heq
      exact absurd heq.symm (h.methods m' hm' decl' hk' _).1
  | method decl =>
    cases hk' : m'.kind with
    | property p' =>
      rw [hk, hk'] at heq
      exact absurd heq (h.methods m hm decl hk _).1
    | method decl' =>
      rw [hk, hk'] at heq
      exact heq

theorem Distinct.body?_eq (h : c.Distinct) {m : MemberDecl} (hm : m ∈ c.members) : c.body? m.bodyName = m.body? := by
  unfold body?
  cases hfind : c.members.find? (·.bodyName = m.bodyName) with
  | none => simpa using List.find?_eq_none.mp hfind m hm
  | some m' =>
    have hname : m'.bodyName = m.bodyName := by simpa using List.find?_some hfind
    rw [h.eq_of_bodyName (List.mem_of_find?_eq_some hfind) hm hname]
    rfl

/-- A declared body is the only one of its name. -/
theorem Distinct.body?_of_hasBody (h : c.Distinct) {name : String} {params : List String} {body : Expr}
    (hbody : c.HasBody name params body) : c.body? name = some (params, body) := by
  cases hbody with
  | @getter property body declared =>
    obtain ⟨m, hm, rfl, p, hp, hgetter⟩ := declared
    have hname : m.bodyName = Naming.getter m.name := by rw [MemberDecl.bodyName, hp]
    rw [← hname, h.body?_eq hm, MemberDecl.body?, hp]
    simp only [hgetter, Option.map_some]
  | @method m decl body mem kind written =>
    have hname : m.bodyName = m.name := by rw [MemberDecl.bodyName, kind]
    rw [← hname, h.body?_eq mem, MemberDecl.body?, kind]
    simp only [written, Option.map_some]

end ClassDecl

/-- How a value is computed: by an expression, or by a method that the class leaves to others, which gives null. -/
inductive Formula
  | code (scope : Scope) (body : Expr)
  | null

namespace Formula

/-- The members that are read. -/
def readNames : Formula → List String
  | code scope body => body.readNames scope
  | null => []

/-- The value, given a reading of the members. -/
def value (externs : List String) (ρ : Reading) : Formula → Option Value
  | code scope body => body.denote scope externs ρ
  | null => some .null

theorem value_mono {externs : List String} {ρ ρ' : Reading} {φ : Formula} {v : Value}
    (h : Reading.Below φ.readNames ρ ρ') (hv : φ.value externs ρ = some v) : φ.value externs ρ' = some v := by
  cases φ with
  | code scope body => exact Expr.denote_mono body h hv
  | null => exact hv

end Formula

namespace LoadedClass

/-- What a method is computed from, as far as the class has it. -/
def methodFormula? (L : LoadedClass) (method : String) : Option Formula :=
  match L.image.methods.find? method with
  | some _ => (L.declaration.body? method).map fun b => .code (.ofInstance b.1) b.2
  | none => if L.image.externs.contains method then some .null else none

/-- The property has an automatic getter. -/
def IsAutomatic (L : LoadedClass) (property : String) : Prop :=
  L.image.methods.find? (Naming.getter property) = some (ClassImage.fieldGetter property (Naming.autoField property))

instance (L : LoadedClass) (property : String) : Decidable (L.IsAutomatic property) :=
  inferInstanceAs (Decidable (_ = _))

/-- The class has a property of the name, which can be read. -/
def Exposes (L : LoadedClass) (property : String) : Prop :=
  ∃ p getter, L.image.properties.find? property = some p ∧ p.getter = some getter

/-- What is computed when a value is. -/
def recomputeFormula? (L : LoadedClass) (model : ClassModel) : Recompute → Option Formula
  | .inline body => some (.code (.ofInstance []) body)
  | .hoisted id => model.statics[id]?.map fun f => .code (.detached [f.param]) f.body
  | .method name => L.methodFormula? name

/-- What a derived value is computed from; one that is only announced has the getter that is written for it. -/
def formula? (L : LoadedClass) (model : ClassModel) (d : DerivedProperty) : Option Formula :=
  match d.recompute with
  | some recompute => L.recomputeFormula? model recompute
  | none => if L.IsAutomatic d.name then none else L.methodFormula? (Naming.getter d.name)

theorem formula?_of_some {L : LoadedClass} {model : ClassModel} {d : DerivedProperty} {recompute : Recompute}
    (h : d.recompute = some recompute) : L.formula? model d = L.recomputeFormula? model recompute := by
  rw [formula?, h]

end LoadedClass

/-! ### Sources -/

namespace ClassModel

variable {m : ClassModel}

/-- The property is reactive or derived. -/
def Tracks (m : ClassModel) (id : PropertyId) : Prop :=
  (∃ p ∈ m.mutableProperties, p.id = id) ∨ ∃ e ∈ m.derived, e.property = id

theorem DependsOn.trans {source : PropertyId} {e d : DerivedProperty} (he : m.DependsOn source e)
    (hd : m.DependsOn e.property d) : m.DependsOn source d := by
  induction hd with
  | direct mem named => exact .through he mem named
  | through _ mem named ih => exact .through ih mem named

theorem DependsOn.transGen {e d : DerivedProperty} (h : m.DependsOn e.property d) :
    ∀ {i j : DerivedId}, m.derived[i]? = some e → m.derived[j]? = some d → Relation.TransGen m.Feeds i j := by
  induction h with
  | direct mem named => exact fun hi hj => .single ⟨_, _, hi, hj, named⟩
  | @through e' d first mem named ih =>
    intro i j hi hj
    obtain ⟨k, hk⟩ := List.mem_iff_getElem?.mp first.mem
    exact (ih hi hk).tail ⟨_, _, hk, hj, named⟩

/-- No derived value depends on itself. -/
theorem Orderly.irrefl (ho : m.Orderly) {d : DerivedProperty} (hd : d ∈ m.derived) : ¬ m.DependsOn d.property d := by
  intro h
  obtain ⟨i, hi⟩ := List.mem_iff_getElem?.mp hd
  exact ho.acyclic i (h.transGen hi hi)

/-- A set of properties with everything that they are computed from. -/
def Closed (m : ClassModel) (C : PropertyId → Prop) : Prop :=
  ∀ e ∈ m.derived, C e.property → ∀ i ∈ e.sources, C i

theorem closed_all : m.Closed fun _ => True := fun _ _ _ _ _ => trivial

theorem closed_dependsOn {d : DerivedProperty} : m.Closed fun i => m.DependsOn i d :=
  fun _ he hd _ hi => DependsOn.trans (.direct he hi) hd

end ClassModel

/-- A scene in which derived values are computed from their sources alone, sources being reactive or derived, and no
object has an object in its fields. -/
structure Setting extends Scene where
  leaves : plain
  orderly : model.Orderly
  distinct : own.declaration.Distinct
  unobserved : ∀ d ∈ model.derived, d.isObservable = false
  tracked : ∀ d ∈ model.derived, ∀ i ∈ d.sources, model.Tracks i
  traced : ∀ d ∈ model.derived, ∀ φ, own.formula? model d = some φ → ∀ n ∈ φ.readNames,
    ∃ i ∈ d.sources, model.members.resolve? n = some i
  /-- Commands have names of their own. -/
  commands : ∀ c ∈ model.commands, (∀ p ∈ model.mutableProperties, c.property ≠ p.name) ∧
    ∀ d ∈ model.derived, c.property ≠ d.name
  /-- Generated fields are not those of automatic properties. -/
  fields : ∀ x, Naming.autoField x ∉ model.fieldNames

namespace Setting

variable (T : Setting)

/-- A field of an automatic property is none of a reactive property. -/
theorem slot_ne_autoField {p : MutableProperty} (hp : p ∈ T.model.mutableProperties) (x : String) :
    p.slot ≠ Naming.autoField x := by
  have hfree := T.fields x
  simp only [ClassModel.fieldNames, List.mem_append, not_or] at hfree
  exact fun heq => hfree.1.1 (heq ▸ List.mem_map_of_mem hp)

/-- A field of an automatic property is none of a derived value. -/
theorem autoField_not_mem {d : DerivedProperty} (hd : d ∈ T.model.derived) (x : String) :
    Naming.autoField x ∉ d.fieldNames := by
  have hfree := T.fields x
  simp only [ClassModel.fieldNames, List.mem_append, not_or] at hfree
  exact fun hmem => hfree.1.2 (List.mem_flatMap.mpr ⟨d, hd, hmem⟩)

/-- A field of an automatic property is none of a command. -/
theorem commandSlot_ne_autoField {c : CommandModel} (hc : c ∈ T.model.commands) (x : String) : c.slot ≠ Naming.autoField x := by
  have hfree := T.fields x
  simp only [ClassModel.fieldNames, List.mem_append, not_or] at hfree
  exact fun heq => hfree.2 (heq ▸ List.mem_map_of_mem hc)

/-- What is read for a derived value is one of its sources. -/
theorem source_of_read {d : DerivedProperty} (hd : d ∈ T.model.derived) {φ : Formula}
    (hφ : T.own.formula? T.model d = some φ) {n : String} (hn : n ∈ φ.readNames) :
    (∃ p ∈ T.model.mutableProperties, p.name = n ∧ p.id ∈ d.sources) ∨
      ∃ e ∈ T.model.derived, e.name = n ∧ e.property ∈ d.sources := by
  obtain ⟨i, hi, hresolve⟩ := T.traced d hd φ hφ n hn
  obtain ⟨info, hinfo, rfl⟩ := MemberTable.name_of_resolve? hresolve
  obtain ⟨p, hp, rfl⟩ | ⟨e, he, rfl⟩ := T.tracked d hd i hi
  · obtain ⟨info', hinfo', hname⟩ := MemberTable.name_of_resolve? (T.orderly.mutable p hp)
    rw [hinfo] at hinfo'
    cases hinfo'
    exact Or.inl ⟨p, hp, hname.symm, hi⟩
  · obtain ⟨info', hinfo', hname⟩ := MemberTable.name_of_resolve? (T.orderly.derived e he)
    rw [hinfo] at hinfo'
    cases hinfo'
    exact Or.inr ⟨e, he, hname.symm, hi⟩

/-! ### Values of members -/

/-- A derived value is not stored: it is not cached, or lazy and not computed yet. -/
def Open (d : DerivedProperty) (m : Machine) : Prop :=
  ∀ slot, d.slot = some slot → ∃ flag, slot.flag = some flag ∧ m.field? T.object flag = some (.bool false)

/-- The value of a member that can be read. -/
inductive Reads (m : Machine) : String → Value → Prop
  | reactive {p : MutableProperty} {v : Value} (mem : p ∈ T.model.mutableProperties) (exposed : T.own.Exposes p.name)
    (found : m.field? T.object p.slot = some v) : Reads m p.name v
  | stored {d : DerivedProperty} {slot : DerivedSlot} {v : Value} (mem : d ∈ T.model.derived)
    (exposed : T.own.Exposes d.name) (slotted : d.slot = some slot) (settled : T.Settled d slot m)
    (found : m.field? T.object slot.value = some v) : Reads m d.name v
  | automatic {d : DerivedProperty} {v : Value} (mem : d ∈ T.model.derived) (exposed : T.own.Exposes d.name)
    (announced : d.recompute = none) (auto : T.own.IsAutomatic d.name)
    (found : m.field? T.object (Naming.autoField d.name) = some v) : Reads m d.name v
  | computed {d : DerivedProperty} {φ : Formula} {ρ : Reading} {v : Value} (mem : d ∈ T.model.derived)
    (exposed : T.own.Exposes d.name) (opened : T.Open d m) (formula : T.own.formula? T.model d = some φ)
    (known : ∀ y u, ρ y = some u → Reads m y u) (value : φ.value T.own.image.externs ρ = some v) : Reads m d.name v

variable {T} {m m' m'' : Machine}

/-- Names tell the members apart. -/
theorem eq_of_names {d e : DerivedProperty} (hd : d ∈ T.model.derived) (he : e ∈ T.model.derived) (h : d.name = e.name) :
    d = e := List.inj_on_of_nodup_map T.orderly.distinct hd he h

theorem slot_of_announced {d : DerivedProperty} (hd : d ∈ T.model.derived) (h : d.recompute = none) : d.slot = none := by
  refine (T.own_generated.2.derived d hd).uncached ?_
  by_contra hcached
  have hsome := ((T.own_generated.2.derived d hd).cached (by simpa using hcached)).2
  rw [h] at hsome
  cases hsome

/-- What is stored is not only announced. -/
theorem written_of_slot {d : DerivedProperty} (hd : d ∈ T.model.derived) {slot : DerivedSlot} (hslot : d.slot = some slot)
    (hannounced : d.recompute = none) : ¬ T.own.IsAutomatic d.name := by
  rw [slot_of_announced hd hannounced] at hslot
  cases hslot

theorem not_settled_of_open {d : DerivedProperty} (hd : d ∈ T.model.derived) {slot : DerivedSlot}
    (hslot : d.slot = some slot) (hopen : T.Open d m) : ¬ T.Settled d slot m := by
  obtain ⟨flag, hflag, hunset⟩ := hopen slot hslot
  rintro (heager | ⟨flag', hflag', hset⟩)
  · have hlazy := ((T.own_generated.2.derived d hd).lazy slot hslot).mp (by rw [hflag]; rfl)
    rw [heager] at hlazy
    cases hlazy
  · rw [hflag] at hflag'
    cases hflag'
    rw [hunset] at hset
    cases hset

theorem formula?_of_automatic {d : DerivedProperty} (h : d.recompute = none) (hauto : T.own.IsAutomatic d.name) :
    T.own.formula? T.model d = none := by
  rw [LoadedClass.formula?, h]
  exact if_pos hauto

/-! ### What a value goes back to -/

/-- What has a value can be read. -/
theorem Reads.exposed {x : String} {v : Value} (h : T.Reads m x v) : T.own.Exposes x := by
  cases h <;> assumption

theorem reads_reactive_iff {p : MutableProperty} (hp : p ∈ T.model.mutableProperties) (hexposed : T.own.Exposes p.name)
    {v : Value} : T.Reads m p.name v ↔ m.field? T.object p.slot = some v := by
  refine ⟨fun h => ?_, .reactive hp hexposed⟩
  generalize hx : p.name = x at h
  cases h with
  | reactive mem _ found =>
    rwa [List.inj_on_of_nodup_map T.own_generated.2.distinct hp mem hx]
  | stored mem | automatic mem | computed mem => exact absurd hx (T.orderly.apart p hp _ mem)

theorem reads_stored_iff {d : DerivedProperty} (hd : d ∈ T.model.derived) (hexposed : T.own.Exposes d.name)
    {slot : DerivedSlot} (hslot : d.slot = some slot) (hsettled : T.Settled d slot m) {v : Value} :
    T.Reads m d.name v ↔ m.field? T.object slot.value = some v := by
  refine ⟨fun h => ?_, .stored hd hexposed hslot hsettled⟩
  generalize hx : d.name = x at h
  cases h with
  | reactive mem => exact absurd hx.symm (T.orderly.apart _ mem d hd)
  | stored mem _ slotted _ found =>
    obtain rfl := eq_of_names hd mem hx
    rw [hslot] at slotted
    cases slotted
    exact found
  | automatic mem _ announced =>
    obtain rfl := eq_of_names hd mem hx
    rw [slot_of_announced hd announced] at hslot
    cases hslot
  | computed mem _ opened =>
    obtain rfl := eq_of_names hd mem hx
    exact absurd hsettled (not_settled_of_open hd hslot opened)

theorem reads_automatic_iff {d : DerivedProperty} (hd : d ∈ T.model.derived) (hexposed : T.own.Exposes d.name)
    (hannounced : d.recompute = none) (hauto : T.own.IsAutomatic d.name) {v : Value} :
    T.Reads m d.name v ↔ m.field? T.object (Naming.autoField d.name) = some v := by
  refine ⟨fun h => ?_, .automatic hd hexposed hannounced hauto⟩
  generalize hx : d.name = x at h
  cases h with
  | reactive mem => exact absurd hx.symm (T.orderly.apart _ mem d hd)
  | stored mem _ slotted =>
    obtain rfl := eq_of_names hd mem hx
    rw [slot_of_announced hd hannounced] at slotted
    cases slotted
  | automatic mem _ _ _ found =>
    obtain rfl := eq_of_names hd mem hx
    exact found
  | computed mem _ _ formula =>
    obtain rfl := eq_of_names hd mem hx
    rw [formula?_of_automatic hannounced hauto] at formula
    cases formula

theorem reads_computed {d : DerivedProperty} (hd : d ∈ T.model.derived) (hopen : T.Open d m)
    (hwritten : d.recompute = none → ¬ T.own.IsAutomatic d.name) {v : Value} (h : T.Reads m d.name v) :
    ∃ φ, ∃ ρ : Reading, T.own.formula? T.model d = some φ ∧ (∀ y u, ρ y = some u → T.Reads m y u) ∧
      φ.value T.own.image.externs ρ = some v := by
  generalize hx : d.name = x at h
  cases h with
  | reactive mem => exact absurd hx.symm (T.orderly.apart _ mem d hd)
  | stored mem _ slotted settled =>
    obtain rfl := eq_of_names hd mem hx
    exact absurd settled (not_settled_of_open hd slotted hopen)
  | automatic mem _ announced auto =>
    obtain rfl := eq_of_names hd mem hx
    exact absurd auto (hwritten announced)
  | computed mem _ _ formula known value =>
    obtain rfl := eq_of_names hd mem hx
    exact ⟨_, _, formula, known, value⟩

/-- A member has at most one value. -/
theorem Reads.unique {x : String} {v : Value} (h : T.Reads m x v) : ∀ w, T.Reads m x w → v = w := by
  induction h with
  | reactive mem exposed found =>
    intro w hw
    exact Option.some.inj (found.symm.trans ((reads_reactive_iff mem exposed).mp hw))
  | stored mem exposed slotted settled found =>
    intro w hw
    exact Option.some.inj (found.symm.trans ((reads_stored_iff mem exposed slotted settled).mp hw))
  | automatic mem exposed announced auto found =>
    intro w hw
    exact Option.some.inj (found.symm.trans ((reads_automatic_iff mem exposed announced auto).mp hw))
  | @computed d φ ρ v mem _ opened formula known value ih =>
    intro w hw
    have hwritten (hannounced : d.recompute = none) (hauto : T.own.IsAutomatic d.name) : False := by
      rw [formula?_of_automatic hannounced hauto] at formula
      cases formula
    obtain ⟨φ', ρ', hφ', hknown', hvalue'⟩ := reads_computed mem opened hwritten hw
    obtain rfl := Option.some.inj (formula.symm.trans hφ')
    -- Both readings agree where they have values, so together they are one.
    have hbelow : Reading.Below φ.readNames ρ fun n => (ρ n).or (ρ' n) := by
      intro n _ u hu
      show (ρ n).or (ρ' n) = some u
      rw [hu, Option.some_or]
    have hbelow' : Reading.Below φ.readNames ρ' fun n => (ρ n).or (ρ' n) := by
      intro n _ u hu
      show (ρ n).or (ρ' n) = some u
      cases hn : ρ n with
      | none => rw [hu, Option.none_or]
      | some u' => rw [Option.some_or, ih n u' hn u (hknown' n u hu)]
    exact Option.some.inj ((Formula.value_mono hbelow value).symm.trans (Formula.value_mono hbelow' hvalue'))

/-! ### All values at once -/

open Classical in
/-- The values of all members. -/
noncomputable def reading (T : Setting) (m : Machine) : Reading := fun x =>
  if h : ∃ v, T.Reads m x v then some h.choose else none

theorem reading_eq_some_iff {x : String} {v : Value} : T.reading m x = some v ↔ T.Reads m x v := by
  unfold reading
  split
  · rename_i h
    rw [Option.some.injEq]
    constructor
    · rintro rfl
      exact h.choose_spec
    · exact h.choose_spec.unique v
  · rename_i h
    exact ⟨nofun, fun hv => absurd ⟨v, hv⟩ h⟩

/-- What a derived value would be if it were computed, given a reading of the members. -/
def result (T : Setting) (ρ : Reading) (d : DerivedProperty) : Option Value :=
  (T.own.formula? T.model d).bind fun φ => φ.value T.own.image.externs ρ

/-- What a derived value would be now if it were computed. -/
def Yields (T : Setting) (m : Machine) (d : DerivedProperty) (v : Value) : Prop := T.result (T.reading m) d = some v

theorem yields_iff {d : DerivedProperty} {v : Value} : T.Yields m d v ↔
    ∃ φ, T.own.formula? T.model d = some φ ∧ φ.value T.own.image.externs (T.reading m) = some v :=
  Option.bind_eq_some_iff

/-- An open value is what is computed now. -/
theorem reads_open_iff {d : DerivedProperty} (hd : d ∈ T.model.derived) (hexposed : T.own.Exposes d.name)
    (hopen : T.Open d m) (hwritten : d.recompute = none → ¬ T.own.IsAutomatic d.name) {v : Value} :
    T.Reads m d.name v ↔ T.Yields m d v := by
  rw [yields_iff]
  constructor
  · intro h
    obtain ⟨φ, ρ, hφ, hknown, hvalue⟩ := reads_computed hd hopen hwritten h
    exact ⟨φ, hφ, Formula.value_mono (fun n _ u hu => reading_eq_some_iff.mpr (hknown n u hu)) hvalue⟩
  · rintro ⟨φ, hφ, hvalue⟩
    exact .computed hd hexposed hopen hφ (fun y u hu => reading_eq_some_iff.mp hu) hvalue

/-! ### What a value depends on -/

/-- The members of a set of properties have the same fields. -/
structure Same (T : Setting) (C : PropertyId → Prop) (m m' : Machine) : Prop where
  reactive : ∀ p ∈ T.model.mutableProperties, C p.id → m'.field? T.object p.slot = m.field? T.object p.slot
  derived : ∀ e ∈ T.model.derived, C e.property → ∀ field ∈ e.fieldNames, m'.field? T.object field = m.field? T.object field
  automatic : ∀ e ∈ T.model.derived, C e.property →
    m'.field? T.object (Naming.autoField e.name) = m.field? T.object (Naming.autoField e.name)

variable {C : PropertyId → Prop}

theorem Same.opened (h : T.Same C m m') {d : DerivedProperty} (hd : d ∈ T.model.derived) (hC : C d.property)
    (hopen : T.Open d m) : T.Open d m' := by
  intro slot hslot
  obtain ⟨flag, hflag, hunset⟩ := hopen slot hslot
  exact ⟨flag, hflag, (h.derived d hd hC flag (Scene.flag_mem_fieldNames hslot hflag)).trans hunset⟩

theorem Same.settled (h : T.Same C m m') {d : DerivedProperty} (hd : d ∈ T.model.derived) (hC : C d.property)
    {slot : DerivedSlot} (hslot : d.slot = some slot) (hsettled : T.Settled d slot m) : T.Settled d slot m' := by
  obtain heager | ⟨flag, hflag, hset⟩ := hsettled
  · exact Or.inl heager
  · exact Or.inr ⟨flag, hflag, (h.derived d hd hC flag (Scene.flag_mem_fieldNames hslot hflag)).trans hset⟩

/-- A name stands for nothing but members of a set of properties. -/
structure Within (T : Setting) (C : PropertyId → Prop) (x : String) : Prop where
  reactive : ∀ p ∈ T.model.mutableProperties, p.name = x → C p.id
  derived : ∀ e ∈ T.model.derived, e.name = x → C e.property

theorem within_reactive {p : MutableProperty} (hp : p ∈ T.model.mutableProperties) (h : C p.id) : T.Within C p.name := by
  refine ⟨fun q hq hname => ?_, fun e he hname => absurd hname.symm (T.orderly.apart p hp e he)⟩
  rwa [List.inj_on_of_nodup_map T.own_generated.2.distinct hq hp hname]

theorem within_derived {d : DerivedProperty} (hd : d ∈ T.model.derived) (h : C d.property) : T.Within C d.name := by
  refine ⟨fun q hq hname => absurd hname (T.orderly.apart q hq d hd), fun e he hname => ?_⟩
  rwa [eq_of_names he hd hname]

/-- What is read for a derived value are its sources. -/
theorem within_of_read {d : DerivedProperty} (hd : d ∈ T.model.derived) (hC : ∀ i ∈ d.sources, C i) {φ : Formula}
    (hφ : T.own.formula? T.model d = some φ) {n : String} (hn : n ∈ φ.readNames) : T.Within C n := by
  obtain ⟨p, hp, rfl, hsource⟩ | ⟨e, he, rfl, hsource⟩ := T.source_of_read hd hφ hn
  · exact within_reactive hp (hC _ hsource)
  · exact within_derived he (hC _ hsource)

/-- Among properties with everything that they are computed from, values go by the fields of these properties. -/
theorem Reads.of_same (hclosed : T.model.Closed C) (hsame : T.Same C m m') {x : String} {v : Value}
    (h : T.Reads m x v) (hC : T.Within C x) : T.Reads m' x v := by
  induction h with
  | reactive mem exposed found =>
    exact .reactive mem exposed ((hsame.reactive _ mem (hC.reactive _ mem rfl)).trans found)
  | stored mem exposed slotted settled found =>
    have hd := hC.derived _ mem rfl
    exact .stored mem exposed slotted (hsame.settled mem hd slotted settled)
      ((hsame.derived _ mem hd _ (Scene.value_mem_fieldNames slotted)).trans found)
  | automatic mem exposed announced auto found =>
    exact .automatic mem exposed announced auto ((hsame.automatic _ mem (hC.derived _ mem rfl)).trans found)
  | @computed d φ ρ v mem exposed opened formula known value ih =>
    have hd := hC.derived d mem rfl
    let read : Reading := fun n => if n ∈ φ.readNames then ρ n else none
    refine @Reads.computed T m' d φ read v mem exposed (hsame.opened mem hd opened) formula ?_ ?_
    · intro y u hu
      dsimp only [read] at hu
      split at hu
      · rename_i hread
        exact ih y u hu (within_of_read mem (hclosed d mem hd) formula hread)
      · cases hu
    · refine Formula.value_mono (fun n hn u hu => ?_) value
      dsimp only [read]
      rw [if_pos hn]
      exact hu

/-- What a derived value would be goes by the fields of what it depends on. -/
theorem Yields.of_same {d : DerivedProperty} (hd : d ∈ T.model.derived)
    (hsame : T.Same (fun i => T.model.DependsOn i d) m m') {v : Value} (h : T.Yields m d v) : T.Yields m' d v := by
  obtain ⟨φ, hφ, hvalue⟩ := yields_iff.mp h
  refine yields_iff.mpr ⟨φ, hφ, Formula.value_mono (fun n hn u hu => ?_) hvalue⟩
  have hwithin : T.Within (fun i => T.model.DependsOn i d) n := within_of_read hd (fun _ hi => .direct hd hi) hφ hn
  exact reading_eq_some_iff.mpr ((reading_eq_some_iff.mp hu).of_same ClassModel.closed_dependsOn hsame hwithin)

/-! ### Lazy values that are computed meanwhile -/

/-- Lazy values of a set of properties may have been computed meanwhile, as they were then; commands may have been
created; all other fields stay. -/
structure Settles (T : Setting) (C : PropertyId → Prop) (m m' : Machine) : Prop where
  kept : ∀ field, (∀ e ∈ T.model.derived, C e.property → e.cache = .lazy → field ∉ e.fieldNames) →
    (∀ c ∈ T.model.commands, field ≠ c.slot) → m'.field? T.object field = m.field? T.object field
  computed : ∀ e ∈ T.model.derived, ∀ slot, e.slot = some slot → ∀ flag, slot.flag = some flag →
    (m'.field? T.object slot.value = m.field? T.object slot.value ∧
      m'.field? T.object flag = m.field? T.object flag) ∨
    (m.field? T.object flag = some (.bool false) ∧ m'.field? T.object flag = some (.bool true) ∧
      ∃ v, m'.field? T.object slot.value = some v ∧ T.Yields m e v)

theorem Settles.of_fields (h : ∀ field, m'.field? T.object field = m.field? T.object field) : T.Settles C m m' :=
  ⟨fun field _ _ => h field, fun _ _ _ _ _ _ => Or.inl ⟨h _, h _⟩⟩

theorem Settles.refl (m : Machine) : T.Settles C m m := .of_fields fun _ => rfl

theorem Settles.of_objects (h : m'.objects = m.objects) : T.Settles C m m' :=
  .of_fields fun _ => by rw [Machine.field?, h]; rfl

/-- The field of a reactive property stays. -/
theorem Settles.reactive (h : T.Settles C m m') {p : MutableProperty} (hp : p ∈ T.model.mutableProperties) :
    m'.field? T.object p.slot = m.field? T.object p.slot :=
  h.kept _ (fun e he _ _ => T.nodup_fields.2.2.1 p hp e he) fun c hc heq => (T.nodup_fields.2.2.2 c hc).1 p hp heq.symm

/-- The field of an eager value stays. -/
theorem Settles.eager (h : T.Settles C m m') {d : DerivedProperty} (hd : d ∈ T.model.derived) (heager : d.cache = .eager)
    {field : String} (hfield : field ∈ d.fieldNames) : m'.field? T.object field = m.field? T.object field := by
  refine h.kept field (fun e he _ hlazy hmem => ?_) fun c hc heq => (T.nodup_fields.2.2.2 c hc).2 d hd (heq ▸ hfield)
  rw [Scene.eq_of_mem_fieldNames hd he hfield hmem, hlazy] at heager
  cases heager

theorem Settles.automatic (h : T.Settles C m m') (x : String) :
    m'.field? T.object (Naming.autoField x) = m.field? T.object (Naming.autoField x) :=
  h.kept _ (fun _ he _ _ => T.autoField_not_mem he x) fun _ hc => (T.commandSlot_ne_autoField hc x).symm

theorem cache_of_flag {d : DerivedProperty} (hd : d ∈ T.model.derived) {slot : DerivedSlot} (hslot : d.slot = some slot)
    {flag : String} (hflag : slot.flag = some flag) : d.cache = .lazy :=
  ((T.own_generated.2.derived d hd).lazy slot hslot).mp (by rw [hflag]; rfl)

/-- A value that is stored stays as it is. -/
theorem Settles.stored (h : T.Settles C m m') {d : DerivedProperty} (hd : d ∈ T.model.derived) {slot : DerivedSlot}
    (hslot : d.slot = some slot) (hsettled : T.Settled d slot m) :
    m'.field? T.object slot.value = m.field? T.object slot.value ∧ T.Settled d slot m' := by
  obtain heager | ⟨flag, hflag, hset⟩ := hsettled
  · exact ⟨h.eager hd heager (Scene.value_mem_fieldNames hslot), Or.inl heager⟩
  · obtain ⟨hvalue, hsame⟩ | ⟨hunset, -⟩ := h.computed d hd slot hslot flag hflag
    · exact ⟨hvalue, Or.inr ⟨flag, hflag, hsame.trans hset⟩⟩
    · rw [hset] at hunset
      cases hunset

/-- Values stay as they are when lazy ones are computed. -/
theorem Settles.reads {x : String} {v : Value} (h : T.Settles C m m') (hv : T.Reads m x v) : T.Reads m' x v := by
  induction hv with
  | reactive mem exposed found => exact .reactive mem exposed ((h.reactive mem).trans found)
  | stored mem exposed slotted settled found =>
    obtain ⟨hvalue, hsettled⟩ := h.stored mem slotted settled
    exact .stored mem exposed slotted hsettled (hvalue.trans found)
  | automatic mem exposed announced auto found => exact .automatic mem exposed announced auto ((h.automatic _).trans found)
  | @computed d φ ρ v mem exposed opened formula known value ih =>
    cases hslot : d.slot with
    | none => exact .computed mem exposed (fun slot hsome => by rw [hslot] at hsome; cases hsome) formula ih value
    | some slot =>
      obtain ⟨flag, hflag, hunset⟩ := opened slot hslot
      obtain ⟨-, hsame⟩ | ⟨-, hset, w, hw, hyields⟩ := h.computed d mem slot hslot flag hflag
      · refine .computed mem exposed (fun slot' hsome => ?_) formula ih value
        rw [hslot] at hsome
        cases hsome
        exact ⟨flag, hflag, hsame.trans hunset⟩
      · have hreads := (reads_open_iff mem exposed opened (written_of_slot mem hslot)).mpr hyields
        obtain rfl := hreads.unique v (.computed mem exposed opened formula known value)
        exact .stored mem exposed hslot (Or.inr ⟨flag, hflag, hset⟩) hw

/-- No value is new when lazy ones are computed. -/
theorem Settles.reads_before {x : String} {v : Value} (h : T.Settles C m m') (hv : T.Reads m' x v) : T.Reads m x v := by
  induction hv with
  | reactive mem exposed found => exact .reactive mem exposed ((h.reactive mem).symm.trans found)
  | @stored d slot v mem exposed slotted settled found =>
    obtain heager | ⟨flag, hflag, hset⟩ := settled
    · exact .stored mem exposed slotted (Or.inl heager)
        ((h.eager mem heager (Scene.value_mem_fieldNames slotted)).symm.trans found)
    · obtain ⟨hvalue, hsame⟩ | ⟨hunset, -, w, hw, hyields⟩ := h.computed d mem slot slotted flag hflag
      · exact .stored mem exposed slotted (Or.inr ⟨flag, hflag, hsame.symm.trans hset⟩) (hvalue.symm.trans found)
      · obtain rfl := Option.some.inj (found.symm.trans hw)
        have hopen : T.Open d m := fun slot' hslot' => Option.some.inj (slotted.symm.trans hslot') ▸ ⟨flag, hflag, hunset⟩
        exact (reads_open_iff mem exposed hopen (written_of_slot mem slotted)).mpr hyields
  | automatic mem exposed announced auto found =>
    exact .automatic mem exposed announced auto ((h.automatic _).symm.trans found)
  | @computed d φ ρ v mem exposed opened formula known value ih =>
    refine .computed mem exposed (fun slot hslot => ?_) formula ih value
    obtain ⟨flag, hflag, hunset⟩ := opened slot hslot
    obtain ⟨-, hsame⟩ | ⟨-, hset, -⟩ := h.computed d mem slot hslot flag hflag
    · exact ⟨flag, hflag, hsame.symm.trans hunset⟩
    · rw [hunset] at hset
      cases hset

theorem Settles.reading_eq (h : T.Settles C m m') : T.reading m' = T.reading m := by
  funext x
  exact Option.ext fun v => (reading_eq_some_iff.trans ⟨h.reads_before, h.reads⟩).trans reading_eq_some_iff.symm

theorem Settles.yields_iff (h : T.Settles C m m') {d : DerivedProperty} {v : Value} : T.Yields m' d v ↔ T.Yields m d v := by
  rw [Yields, Yields, h.reading_eq]

theorem Settles.trans (h : T.Settles C m m') (h' : T.Settles C m' m'') : T.Settles C m m'' := by
  refine ⟨fun field hfield hcommand => (h'.kept field hfield hcommand).trans (h.kept field hfield hcommand),
    fun e he slot hslot flag hflag => ?_⟩
  obtain ⟨hvalue, hsame⟩ | ⟨hunset, hset, v, hv, hyields⟩ := h.computed e he slot hslot flag hflag
  · obtain ⟨hvalue', hsame'⟩ | ⟨hunset', hset', v, hv, hyields⟩ := h'.computed e he slot hslot flag hflag
    · exact Or.inl ⟨hvalue'.trans hvalue, hsame'.trans hsame⟩
    · exact Or.inr ⟨hsame.symm.trans hunset', hset', v, hv, h.yields_iff.mp hyields⟩
  · obtain ⟨hvalue', hsame'⟩ | ⟨hunset', -⟩ := h'.computed e he slot hslot flag hflag
    · exact Or.inr ⟨hunset, hsame'.trans hset, v, hvalue'.trans hv, hyields⟩
    · rw [hset] at hunset'
      cases hunset'

/-- A lazy value is computed. -/
theorem Settles.store (h : T.Settles C m m') {d : DerivedProperty} (hd : d ∈ T.model.derived) (hC : C d.property)
    {slot : DerivedSlot} (hslot : d.slot = some slot) {flag : String} (hflag : slot.flag = some flag)
    (hunset : m.field? T.object flag = some (.bool false)) {v : Value} (hv : T.Yields m d v)
    (hobject : m'.objects[T.object]?.isSome) :
    T.Settles C m ((m'.store T.object slot.value v).store T.object flag (.bool true)) := by
  have hvalue := Scene.value_mem_fieldNames hslot
  have hflagMem := Scene.flag_mem_fieldNames hslot hflag
  have hne := T.flag_ne_value hd hslot hflag
  have hpresent : (m'.store T.object slot.value v).objects[T.object]?.isSome := by
    rw [Machine.store, List.getElem?_modify]
    simpa using hobject
  have hother {field : String} (hfield : field ∉ d.fieldNames) :
      ((m'.store T.object slot.value v).store T.object flag (.bool true)).field? T.object field =
        m'.field? T.object field := by
    rw [Machine.field?_store, if_neg, Machine.field?_store, if_neg]
    · rintro ⟨-, rfl, -⟩
      exact hfield hvalue
    · rintro ⟨-, rfl, -⟩
      exact hfield hflagMem
  refine ⟨fun field hfield hcommand => ?_, fun e he slot' hslot' flag' hflag' => ?_⟩
  · rw [hother (hfield d hd hC (cache_of_flag hd hslot hflag))]
    exact h.kept field hfield hcommand
  · by_cases heq : e = d
    · subst heq
      rw [hslot] at hslot'
      cases hslot'
      rw [hflag] at hflag'
      cases hflag'
      refine Or.inr ⟨hunset, ?_, v, ?_, hv⟩
      · rw [Machine.field?_store, if_pos ⟨rfl, rfl, hpresent⟩]
      · rw [Machine.field?_store, if_neg (fun hsame => hne hsame.2.1.symm), Machine.field?_store,
          if_pos ⟨rfl, rfl, hobject⟩]
    · have hapart {field : String} (hfield : field ∈ e.fieldNames) : field ∉ d.fieldNames :=
        fun hmem => heq (Scene.eq_of_mem_fieldNames he hd hfield hmem)
      rw [hother (hapart (Scene.value_mem_fieldNames hslot')), hother (hapart (Scene.flag_mem_fieldNames hslot' hflag'))]
      exact h.computed e he slot' hslot' flag' hflag'

/-- A command is stored in its field. -/
theorem Settles.store_command (h : T.Settles C m m') {c : CommandModel} (hc : c ∈ T.model.commands) (v : Value) :
    T.Settles C m (m'.store T.object c.slot v) := by
  have hother {field : String} (hfield : field ≠ c.slot) :
      (m'.store T.object c.slot v).field? T.object field = m'.field? T.object field := by
    rw [Machine.field?_store, if_neg fun hsame => hfield hsame.2.1]
  refine ⟨fun field hfield hcommand => (hother (hcommand c hc)).trans (h.kept field hfield hcommand),
    fun e he slot hslot flag hflag => ?_⟩
  have hapart := (T.nodup_fields.2.2.2 c hc).2 e he
  rw [hother fun heq => hapart (heq ▸ Scene.value_mem_fieldNames hslot),
    hother fun heq => hapart (heq ▸ Scene.flag_mem_fieldNames hslot hflag)]
  exact h.computed e he slot hslot flag hflag

end Setting

end Reactive
