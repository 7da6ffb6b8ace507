import Reactive.Proofs.Patching
import Reactive.Proofs.Propagation
import Reactive.Proofs.References

/-!
# Reactive.Proofs.Closure — patched classes have what their code refers to

A patch refers to members of the class that it is applied to, and the code that refers to a member and the member come
from different places: one from the statements of a generated method, the other from an edit or from the declaration.

* `ClassImage.Resolves`: what a reference of generated code stands for is there.
* `ClassModel.Backed.body`: what generated methods refer to is there if the fields, methods, functions and gates of the
  model are.
* `ClassImage.Woven.gates_mutable`, `gates_computed`, `gates_announced`: a property that says whether a command may run
  can be read, unless the class declares it without a getter and only its changes are announced.
* `patched_image_closed`: a class that is analyzed without errors and patched has everything that its code refers to.
-/

namespace Reactive

/-- The class declares no method whose name is one of an accessor. -/
def ClassDecl.SparesAccessors (c : ClassDecl) : Prop :=
  ∀ m ∈ c.members, m.method?.isSome = true → Naming.isAccessor m.name = false

/-- The class declares a property of the name, but no getter of it. -/
def ClassDecl.Withholds (c : ClassDecl) (property : String) : Prop :=
  ∃ m ∈ c.members, m.name = property ∧ ∃ decl, m.kind = .property decl ∧ decl.getter = none

/-- Only changes of the derived value are announced. -/
def ClassModel.OnlyAnnounces (m : ClassModel) (property : String) : Prop :=
  ∃ d ∈ m.derived, d.name = property ∧ d.recompute = none

/-- A method that has a body is declared. -/
theorem ClassDecl.hasMethod_of_implements {c : ClassDecl} {name : String} (h : c.implements name = true) :
    c.HasMethod name := by
  obtain ⟨m, hm, h⟩ := List.any_eq_true.mp h
  rw [Bool.and_eq_true, beq_iff_eq] at h
  refine ⟨m, hm, h.1, ?_⟩
  obtain ⟨-, hbody⟩ := h
  unfold MemberDecl.method? at hbody
  cases hkind : m.kind with
  | method decl => exact ⟨decl, rfl⟩
  | property p =>
    rw [hkind] at hbody
    cases hbody

namespace ClassImage

/-- The class has a method of the name, or at least declares one. -/
def Offers (image : ClassImage) (name : String) : Prop := image.Known name ∨ name ∈ image.externs

/-- A property is there to say whether a command may run: one with a getter, or one that the class declares without a
getter and of which only changes are announced. -/
inductive Gates (c : ClassDecl) (model : ClassModel) (image : ClassImage) (property : String) : Prop
  | readable {p : PropertyDef} {getter : String} (found : image.properties.find? property = some p)
    (reads : p.getter = some getter) (offered : image.Offers getter) : Gates c model image property
  | announced {p : PropertyDef} (found : image.properties.find? property = some p) (unread : p.getter = none)
    (withheld : c.Withholds property) (announced : model.OnlyAnnounces property) : Gates c model image property

/-- What a reference stands for is there. -/
def Resolves (c : ClassDecl) (model : ClassModel) (module : PatchModule) (image : ClassImage) : Reference → Prop
  | .field name => name ∈ image.fields.map Prod.fst
  | .method name => image.Offers name
  | .function name => image.statics.has name = true ∧ ∃ f, .addStatic f ∈ module.edits ∧ f.name = name
  | .gate property => image.Gates c model property

end ClassImage

namespace ClassModel

variable {c : ClassDecl} {m : ClassModel} {σ : Reference → Prop} {implemented : String → Bool}

/-- What the parts of a model stand for is there. -/
structure Backed (c : ClassDecl) (m : ClassModel) (σ : Reference → Prop) : Prop where
  fields : ∀ n ∈ m.fieldNames, σ (.field n)
  generated : ∀ signature body, m.HasMethod signature body → σ (.method signature.name)
  declared : ∀ n, c.HasMethod n → σ (.method n)
  functions : ∀ f ∈ m.statics, σ (.function f.name)
  gates : ∀ k ∈ m.commands, ∀ g, k.enablement = some g → σ (.gate g.name)

theorem Backed.slot (h : m.Backed c σ) {p : MutableProperty} (hp : p ∈ m.mutableProperties) : σ (.field p.slot) :=
  h.fields _ (List.mem_append_left _ (List.mem_append_left _ (List.mem_map_of_mem hp)))

theorem Backed.cache (h : m.Backed c σ) {d : DerivedProperty} (hd : d ∈ m.derived) {slot : DerivedSlot}
    (hslot : d.slot = some slot) : σ (.field slot.value) ∧ ∀ flag, slot.flag = some flag → σ (.field flag) := by
  have hall : ∀ n ∈ d.fieldNames, σ (.field n) := fun n hn =>
    h.fields n (List.mem_append_left _ (List.mem_append_right _ (List.mem_flatMap.mpr ⟨d, hd, hn⟩)))
  rw [DerivedProperty.fieldNames, hslot] at hall
  exact ⟨hall _ List.mem_cons_self, fun flag hflag => hall _ (List.mem_cons_of_mem _ (Option.mem_toList.mpr hflag))⟩

/-- What a derived value is computed from is there. -/
theorem Backed.operand (h : m.Backed c σ) (ha : m.Analyzed c) {d : DerivedProperty} (hd : d ∈ m.derived)
    {value : Operand} (hvalue : m.operand? d = some value) : ∀ r ∈ value.references, σ r := by
  obtain ⟨recompute, hrecompute, rfl⟩ := Option.map_eq_some_iff.mp hvalue
  have hwritten := (ha.derived d hd).written recompute hrecompute
  cases recompute with
  | inline body => exact nofun
  | hoisted id =>
    cases hwritten with
    | projection declared hoisted projects =>
      simpa [hoisted, Operand.references] using h.functions _ (List.mem_of_getElem? hoisted)
  | method name =>
    cases hwritten with
    | method declared => simpa [Operand.references] using h.declared _ declared

/-- What statements refer to is there if what each of them refers to is. -/
theorem forall_referencesAll {body : List Statement} :
    (∀ r ∈ Statement.referencesAll implemented body, σ r) ↔ ∀ s ∈ body, ∀ r ∈ s.references implemented, σ r := by
  simp only [Statement.mem_referencesAll]
  exact ⟨fun h s hs r hr => h r ⟨s, hs, hr⟩, fun h r ⟨s, hs, hr⟩ => h s hs r hr⟩

theorem Backed.getterBody (h : m.Backed c σ) (ha : m.Analyzed c) {d : DerivedProperty} (hd : d ∈ m.derived)
    {value : Operand} (hvalue : m.operand? d = some value) :
    ∀ r ∈ Statement.referencesAll implemented (getterBody d value), σ r := by
  have hoperand := h.operand ha hd hvalue
  unfold ClassModel.getterBody
  split
  · simpa [Statement.referencesAll, Statement.references] using hoperand
  · rename_i slot hslot
    obtain ⟨hfield, hflag⟩ := h.cache hd hslot
    split
    · simpa [Statement.referencesAll, Statement.references] using hfield
    · split
      · rename_i flag _ hsome
        have hflag := hflag flag hsome
        simpa [Statement.referencesAll, Statement.references, or_imp, forall_and, hflag, hfield] using hoperand
      · simpa [Statement.referencesAll, Statement.references] using hfield

theorem Backed.recomputeBody (h : m.Backed c σ) (ha : m.Analyzed c) {d : DerivedProperty} (hd : d ∈ m.derived)
    {slot : DerivedSlot} (hslot : d.slot = some slot) {value : Operand} (hvalue : m.operand? d = some value) :
    ∀ r ∈ Statement.referencesAll implemented (recomputeBody d slot value), σ r := by
  have hoperand := h.operand ha hd hvalue
  obtain ⟨hfield, hflag⟩ := h.cache hd hslot
  unfold ClassModel.recomputeBody
  cases hsome : slot.flag with
  | none => simpa [Statement.referencesAll, Statement.references, hfield] using hoperand
  | some flag =>
    have hflag := hflag flag hsome
    simpa [Statement.referencesAll, Statement.references, hflag, hfield] using hoperand

/-- A derived value that a write affects is no helper, so there is a method that recomputes it if it is cached. -/
theorem Backed.refresh (h : m.Backed c σ) (ha : m.Analyzed c) (ho : m.Orderly) {p : MutableProperty}
    {d : DerivedProperty} (hd : d ∈ m.affected p) : ∀ r ∈ (refresh d).references implemented, σ r := by
  have hdepends := (mem_affected_iff ha ho).mp hd
  have hfits := ha.derived d hdepends.mem
  have hown : d.isObservable = false := by
    refine Bool.eq_false_iff.mpr fun hobservable => ?_
    have hnone := hfits.helper hobservable
    cases hdepends with
    | direct _ named | through _ _ named =>
      rw [hnone] at named
      cases named
  unfold ClassModel.refresh
  split
  · rename_i hcached
    obtain ⟨hslot, hrecompute⟩ := hfits.cached hcached
    obtain ⟨slot, hslot⟩ := Option.isSome_iff_exists.mp hslot
    obtain ⟨recompute, hrecompute⟩ := Option.isSome_iff_exists.mp hrecompute
    have hvalue : ∃ value, m.operand? d = some value := ⟨_, by rw [operand?, hrecompute]; rfl⟩
    obtain ⟨value, hvalue⟩ := hvalue
    simpa [Statement.references] using
      h.generated _ _ (.recompute d hdepends.mem slot hslot value hvalue hown)
  · exact List.forall_mem_nil _

theorem Backed.raiseAndSetBody (h : m.Backed c σ) (ha : m.Analyzed c) (ho : m.Orderly) {p : MutableProperty}
    (hp : p ∈ m.mutableProperties) (hhooks : ∀ hook ∈ [Naming.changingHook p.name, Naming.changedHook p.name],
      implemented hook = true → σ (.method hook)) :
    ∀ r ∈ Statement.referencesAll implemented (m.raiseAndSetBody p), σ r := by
  have hslot := h.slot hp
  have hhook (hook : String) (hmem : hook ∈ [Naming.changingHook p.name, Naming.changedHook p.name]) :
      ∀ r ∈ (Statement.callHook hook).references implemented, σ r := by
    rw [Statement.references]
    split
    · rename_i himplemented
      simpa using hhooks hook hmem himplemented
    · exact List.forall_mem_nil _
  have hchanging := hhook (Naming.changingHook p.name) (by simp)
  have hchanged := hhook (Naming.changedHook p.name) (by simp)
  rw [forall_referencesAll]
  unfold ClassModel.raiseAndSetBody
  simp only [List.forall_mem_append, List.forall_mem_cons]
  have hfield : ∀ r ∈ [Reference.field p.slot], σ r := List.forall_mem_singleton.mpr hslot
  have hnone : ∀ r ∈ ([] : List Reference), σ r := List.forall_mem_nil _
  refine ⟨⟨⟨⟨?_, hfield, hnone, hchanging, List.forall_mem_nil _⟩, ?_⟩, hfield, hnone, hchanged, List.forall_mem_nil _⟩,
    ?_⟩
  · split
    · exact List.forall_mem_nil _
    · exact fun s hs => List.mem_singleton.mp hs ▸ hfield
  · intro s hs
    obtain ⟨d, -, rfl⟩ := List.mem_map.mp hs
    exact hnone
  · intro s hs
    obtain ⟨d, hd, rfl⟩ := List.mem_map.mp hs
    exact h.refresh ha ho hd

theorem Backed.initialSteps (h : m.Backed c σ) (ha : m.Analyzed c)
    (hsilent : ∀ d ∈ m.derived, d.isObservable = true → d.notifiesInitially = false) {d : DerivedProperty}
    (hd : d ∈ m.derived) : ∀ s ∈ m.initialSteps d, ∀ r ∈ s.references implemented, σ r := by
  unfold ClassModel.initialSteps
  split
  · split
    · rename_i slot value hslot hvalue
      split
      · rename_i hnotifies
        have hown : d.isObservable = false := by
          refine Bool.eq_false_iff.mpr fun hobservable => ?_
          rw [hsilent d hd hobservable] at hnotifies
          cases hnotifies
        simpa [Statement.references] using h.generated _ _ (.recompute d hd slot hslot value hvalue hown)
      · obtain ⟨hfield, -⟩ := h.cache hd hslot
        simpa [Statement.references, hfield] using h.operand ha hd hvalue
    · exact nofun
  · split
    · exact List.forall_mem_singleton.mpr nofun
    · exact nofun
  · exact nofun

/-- The registration of locale objects refers to nothing. -/
theorem references_registrations : ∀ (unnamed : Nat) (objects : List (String × LocaleGrouping)),
    ∀ s ∈ registrations unnamed objects, s.references implemented = []
  | _, [] => nofun
  | unnamed, (registry, grouping) :: rest => by
    unfold registrations registration
    refine List.forall_mem_append.mpr ⟨List.forall_mem_cons.mpr ⟨rfl, fun s hs => ?_⟩, references_registrations _ rest⟩
    obtain ⟨binding, -, rfl⟩ := List.mem_map.mp hs
    rfl

theorem Backed.initBody (h : m.Backed c σ) (ha : m.Analyzed c)
    (hsilent : ∀ d ∈ m.derived, d.isObservable = true → d.notifiesInitially = false) :
    ∀ r ∈ Statement.referencesAll implemented m.initBody, σ r := by
  rw [forall_referencesAll]
  unfold ClassModel.initBody
  refine List.forall_mem_append.mpr ⟨fun s hs => ?_, fun s hs => ?_⟩
  · obtain ⟨d, hd, hs⟩ := List.mem_flatMap.mp hs
    obtain ⟨i, -, hi⟩ := List.mem_filterMap.mp hd
    exact h.initialSteps ha hsilent (List.mem_of_getElem? hi) s hs
  · rw [references_registrations 0 _ s hs]
    exact List.forall_mem_nil _

/-- What generated methods refer to is there. -/
theorem Backed.body (h : m.Backed c σ) (ha : m.Analyzed c) (ho : m.Orderly)
    (hsilent : ∀ d ∈ m.derived, d.isObservable = true → d.notifiesInitially = false)
    (hhooks : ∀ p ∈ m.mutableProperties, ∀ hook ∈ [Naming.changingHook p.name, Naming.changedHook p.name],
      implemented hook = true → σ (.method hook)) {signature : MethodSignature} {body : List Statement}
    (hbody : m.HasMethod signature body) : ∀ r ∈ Statement.referencesAll implemented body, σ r := by
  cases hbody with
  | raiseAndSet p hp => exact h.raiseAndSetBody ha ho hp (hhooks p hp)
  | mutableGetter p hp => simpa [Statement.referencesAll, Statement.references] using h.slot hp
  | mutableSetter p hp =>
    simpa [Statement.referencesAll, Statement.references] using h.generated _ _ (.raiseAndSet p hp)
  | derivedGetter d hd value hvalue => exact h.getterBody ha hd hvalue
  | recompute d hd slot hslot value hvalue => exact h.recomputeBody ha hd hslot hvalue
  | commandGetter k hk =>
    have hfield := h.fields k.slot (List.mem_append_right _ (List.mem_map_of_mem hk))
    have hmethod := h.declared _ (ha.commands k hk).declared
    have hgates := h.gates k hk
    cases henablement : k.enablement with
    | none =>
      simpa [Statement.referencesAll, Statement.references, CommandModel.factory, henablement, hfield] using hmethod
    | some g =>
      have hgate := hgates g henablement
      simpa [Statement.referencesAll, Statement.references, CommandModel.factory, henablement, hfield, hmethod] using hgate
  | init => exact h.initBody ha hsilent

end ClassModel

/-! ### Patched classes -/

/-- Of declared properties with names of their own, one of a name is the only one. -/
theorem eq_of_propertyNames {members : List MemberDecl} (hnodup : (propertyNames members).Nodup) {x y : MemberDecl}
    (hx : x ∈ members) (hy : y ∈ members) {p q : PropertyDecl} (hp : x.kind = .property p) (hq : y.kind = .property q)
    (hname : x.name = y.name) : x = y := by
  have happart := List.pairwise_iff_getElem.mp (List.pairwise_filterMap.mp hnodup)
  have hsome {m : MemberDecl} {p : PropertyDecl} (hp : m.kind = .property p) :
      (m.property?.map fun _ => m.name) = some m.name := by
    rw [MemberDecl.property?_eq_some.mpr hp]
    rfl
  obtain ⟨i, hi, rfl⟩ := List.getElem_of_mem hx
  obtain ⟨j, hj, rfl⟩ := List.getElem_of_mem hy
  obtain hlt | rfl | hlt := Nat.lt_trichotomy i j
  · exact absurd hname (happart i j hi hj hlt _ (hsome hp) _ (hsome hq))
  · rfl
  · exact absurd hname.symm (happart j i hj hi hlt _ (hsome hq) _ (hsome hp))

namespace ClassImage

/-- A declared property is there, with a getter if it is declared with one. -/
theorem Mirrors.property_of_declared {c : ClassDecl} {base : ClassImage} (h : base.Mirrors c c.members)
    (hnodup : (propertyNames c.members).Nodup) {x : MemberDecl} (hx : x ∈ c.members) {decl : PropertyDecl}
    (hdecl : x.kind = .property decl) : ∃ p, base.properties.find? x.name = some p ∧
      p.getter = decl.getter.map fun _ => Naming.getter x.name := by
  obtain ⟨p, hp⟩ := Option.isSome_iff_exists.mp ((h.properties x.name).mpr (mem_propertyNames hx hdecl))
  obtain ⟨y, hy, hname, decl', hdecl', hgetter⟩ := h.getters x.name p hp
  obtain rfl := eq_of_propertyNames hnodup hy hx hdecl' hdecl hname
  rw [hdecl] at hdecl'
  cases hdecl'
  exact ⟨p, hp, hgetter⟩

/-- A declared class with the patch module of its model, whose analysis has found no error. -/
structure Woven (c : ClassDecl) (model : ClassModel) (module : PatchModule) (base image : ClassImage) : Prop where
  analyzed : model.Analyzed c
  orderly : model.Orderly
  entered : model.Entered c
  declared : (propertyNames c.members).Nodup
  compiled : PatchModule.ofModel model = .ok module
  mirrors : base.Mirrors c c.members
  brings : Brings module.edits base image
  keeps : Keeps module.edits base image
  generated : Generated c model image

variable {c : ClassDecl} {model : ClassModel} {module : PatchModule} {base image : ClassImage}

/-- A declared method is there. -/
theorem Woven.offers_declared (h : Woven c model module base image) {n : String} (hn : c.HasMethod n) : image.Offers n := by
  obtain ⟨m, hm, rfl, decl, hdecl⟩ := hn
  cases hbody : decl.body with
  | none =>
    rw [Offers, h.keeps.externs]
    exact Or.inr (h.mirrors.externs m hm decl hdecl hbody)
  | some body =>
    refine Or.inl ((h.brings.known _).mpr (Or.inr ((h.mirrors.known _).mpr (List.mem_flatMap.mpr ⟨m, hm, ?_⟩))))
    rw [MemberDecl.bodyNames, hdecl]
    simp [hbody]

/-- A generated method is there. -/
theorem Woven.offers_generated (h : Woven c model module base image) {signature : MethodSignature}
    {body : List Statement} (hmethod : model.HasMethod signature body) : image.Offers signature.name :=
  Or.inl (Or.inl (h.generated.present signature body hmethod))

/-! ### Gates -/

/-- A declared property with a getter can be read. -/
theorem Woven.gates_of_declared (h : Woven c model module base image) {x : MemberDecl} (hx : x ∈ c.members)
    {decl : PropertyDecl} (hdecl : x.kind = .property decl) (hgetter : decl.getter.isSome = true) :
    Gates c model image x.name := by
  obtain ⟨p, hp, hreads⟩ := h.mirrors.property_of_declared h.declared hx hdecl
  obtain ⟨accessor, haccessor⟩ := Option.isSome_iff_exists.mp hgetter
  rw [haccessor] at hreads
  refine .readable (h.keeps.properties _ _ hp) hreads (Or.inl ((h.brings.known _).mpr (Or.inr ?_)))
  exact h.mirrors.known_getter hx hdecl hgetter

/-- A reactive property is declared with a getter, since its getter is replaced. -/
theorem Woven.gates_mutable (h : Woven c model module base image) (hspares : c.SparesAccessors) {p : MutableProperty}
    (hp : p ∈ model.mutableProperties) : Gates c model image p.name := by
  obtain ⟨-, -, -, hmethods, -⟩ := outline_of_ofModel h.compiled
  have hreplaced : (false, Naming.getter p.name) ∈ model.methodOutline := by
    simp only [ClassModel.methodOutline, List.mem_append, List.mem_flatMap]
    exact Or.inl (Or.inl (Or.inl (Or.inl (Or.inr ⟨p, hp, List.mem_cons_self⟩))))
  rw [← hmethods] at hreplaced
  obtain hnew | hknown := h.brings.replaced _ hreplaced
  · -- No getter of a declared property is new.
    exfalso
    rw [hmethods] at hnew
    obtain hnew | hnew := List.mem_append.mp (model.newMethods_perm.subset (ClassModel.mem_methodsOf.mpr hnew))
    · have hplain := (ClassModel.shape_of_mem_stores hnew).1
      rw [Naming.isAccessor_getter] at hplain
      cases hplain
    obtain hnew | hnew := List.mem_append.mp hnew
    · obtain ⟨property, hadded, heq⟩ := List.mem_map.mp hnew
      rw [Naming.getter_inj heq] at hadded
      obtain ⟨m, hm, hname, -⟩ := (h.analyzed.mutable p hp).declared
      refine h.entered.undeclared _ ((ClassModel.addedProperties_sublist h.entered h.orderly).subset hadded) ?_
      exact hname ▸ List.mem_map_of_mem hm
    · have hkind := h.generated.init _ _ (.mutableGetter p hp) (List.mem_singleton.mp hnew)
      cases hkind
  · obtain ⟨m, hm, hn⟩ := List.mem_flatMap.mp ((h.mirrors.known _).mp hknown)
    unfold MemberDecl.bodyNames at hn
    split at hn
    · rename_i decl hdecl
      obtain hn | hn := List.mem_append.mp hn
      · obtain ⟨accessor, haccessor, heq⟩ := Option.map_eq_some_iff.mp (Option.mem_toList.mp hn)
        rw [← Naming.getter_inj heq]
        exact h.gates_of_declared hm hdecl (by rw [haccessor]; rfl)
      · obtain ⟨accessor, -, heq⟩ := Option.map_eq_some_iff.mp (Option.mem_toList.mp hn)
        exact absurd heq.symm (Naming.getter_ne_setter _ _)
    · rename_i decl hdecl
      obtain ⟨body, -, heq⟩ := Option.map_eq_some_iff.mp (Option.mem_toList.mp hn)
      have hplain := hspares m hm (by rw [MemberDecl.method?, hdecl]; rfl)
      rw [heq, Naming.isAccessor_getter] at hplain
      cases hplain

/-- A derived value that is computed can be read. -/
theorem Woven.gates_computed (h : Woven c model module base image) {d : DerivedProperty} (hd : d ∈ model.derived)
    (hrecompute : d.recompute.isSome = true) : Gates c model image d.name := by
  cases hexposes : model.exposes d with
  | false =>
    rw [ClassModel.exposes_eq h.entered h.orderly hd hrecompute] at hexposes
    obtain ⟨body, x, hx, hname, decl, hdecl, hbody⟩ := (h.entered.derived d hd hrecompute).written hexposes
    rw [← hname]
    refine h.gates_of_declared hx hdecl ?_
    obtain ⟨accessor, haccessor, -⟩ := Option.bind_eq_some_iff.mp hbody
    rw [haccessor]
    rfl
  | true =>
    obtain ⟨-, -, hadded, -⟩ := outline_of_ofModel h.compiled
    have hmem : d.name ∈ model.addedProperties :=
      List.mem_append_left _ (List.mem_map_of_mem (List.mem_filter.mpr ⟨hd, by rw [hrecompute, hexposes]; rfl⟩))
    rw [← hadded] at hmem
    obtain ⟨e, he, hname⟩ := List.mem_filterMap.mp hmem
    obtain ⟨type, getter, rfl⟩ : ∃ type getter, e = .addProperty d.name type getter := by
      cases e <;> cases hname
      exact ⟨_, _, rfl⟩
    have hfound := h.brings.properties _ _ _ he
    refine .readable hfound rfl ?_
    obtain ⟨recompute, hsome⟩ := Option.isSome_iff_exists.mp hrecompute
    rw [(h.generated.getters _ _ getter hfound rfl).1]
    exact h.offers_generated (.derivedGetter d hd _ (by rw [ClassModel.operand?, hsome]; rfl))

/-- A derived value that is only announced can be read unless its getter is withheld. -/
theorem Woven.gates_announced (h : Woven c model module base image) {d : DerivedProperty} (hd : d ∈ model.derived)
    (hnone : d.recompute = none) (hdeclared : d.name ∈ propertyNames c.members) : Gates c model image d.name := by
  obtain ⟨x, hx, hname⟩ := List.mem_filterMap.mp hdeclared
  obtain ⟨decl, hdecl, hname⟩ := Option.map_eq_some_iff.mp hname
  have hdecl := MemberDecl.property?_eq_some.mp hdecl
  cases hgetter : decl.getter with
  | some accessor =>
    rw [← hname]
    exact h.gates_of_declared hx hdecl (by rw [hgetter]; rfl)
  | none =>
    obtain ⟨p, hp, hreads⟩ := h.mirrors.property_of_declared h.declared hx hdecl
    rw [hname] at hp
    rw [hgetter] at hreads
    exact .announced (h.keeps.properties _ _ hp) hreads ⟨x, hx, hname, decl, hdecl, hgetter⟩ ⟨d, hd, rfl, hnone⟩

/-! ### Everything that is referred to -/

/-- What the parts of the model stand for is there. -/
theorem Woven.backed (h : Woven c model module base image) {d : Draft} (hbuilt : model.Built c d) (hclean : d.Clean)
    (hspares : c.SparesAccessors) : model.Backed c (Resolves c model module image) := by
  obtain ⟨-, hfields, -⟩ := outline_of_ofModel h.compiled
  refine ⟨fun n hn => h.brings.fields n (hfields ▸ hn), fun signature body => h.offers_generated,
    fun n => h.offers_declared, fun f hf => ⟨h.generated.hoisted f hf, ?_⟩, fun k hk g hg => ?_⟩
  · obtain ⟨hooks, -, ess, hess, hedits⟩ := editsOf_ofModel h.compiled
    obtain ⟨m, hm, hname⟩ := Assembly.exists_addStatic hess hf
    exact ⟨m, by rwa [hedits], hname⟩
  · obtain ⟨p, hp, hname⟩ | ⟨e, he, hname⟩ := hbuilt.gates hclean.unrepeated k hk g hg
    · exact hname ▸ h.gates_mutable hspares hp
    · cases hrecompute : e.recompute with
      | none => exact hname ▸ h.gates_announced he hrecompute (hbuilt.announced hclean e he hrecompute)
      | some recompute => exact hname ▸ h.gates_computed he (by rw [hrecompute]; rfl)

/-- What a patch module and the code in it refer to is there. -/
structure Closed (c : ClassDecl) (model : ClassModel) (module : PatchModule) (image : ClassImage) : Prop where
  /-- The instructions of methods and hoisted functions. -/
  code : ∀ m ∈ module.edits.filterMap PatchEdit.method?, ∀ r ∈ m.references, image.Resolves c model module r
  /-- The statements of generated methods, with the methods that they call on the instance. -/
  statements : ∀ signature body, .method signature body ∈ model.generatedMembers →
    ∀ r ∈ Statement.referencesAll model.declaresHook body, image.Resolves c model module r
  setters : ∀ property setter, .redirectInitializer property setter ∈ module.edits → image.Offers setter
  getters : ∀ name type getter, .addProperty name type getter ∈ module.edits → image.Offers getter

/-- What the code of a patch refers to is there, and so are its setters and getters. -/
theorem Woven.closed (h : Woven c model module base image) {d : Draft} (hbuilt : model.Built c d) (hclean : d.Clean)
    (hspares : c.SparesAccessors) (hhooks : ∀ p ∈ model.mutableProperties, ∀ hook ∈ [Naming.changingHook p.name,
      Naming.changedHook p.name], model.declaresHook hook = c.implements hook) : Closed c model module image := by
  have hbacked := h.backed hbuilt hclean hspares
  have hbody {implemented : String → Bool} (himplemented : ∀ p ∈ model.mutableProperties,
      ∀ hook ∈ [Naming.changingHook p.name, Naming.changedHook p.name], implemented hook = model.declaresHook hook)
      {signature : MethodSignature} {body : List Statement} (hmethod : model.HasMethod signature body) :
      ∀ r ∈ Statement.referencesAll implemented body, image.Resolves c model module r := by
    refine hbacked.body h.analyzed h.orderly hbuilt.silent (fun p hp hook hhook htrue => ?_) hmethod
    rw [himplemented p hp hook hhook, hhooks p hp hook hhook] at htrue
    exact h.offers_declared (ClassDecl.hasMethod_of_implements htrue)
  obtain ⟨hooks, hcontains, ess, hess, hmodule⟩ := editsOf_ofModel h.compiled
  have hedits : module.edits = ess.flatten := by
    rw [hmodule]
    rfl
  refine ⟨fun m hm r hr => ?_, fun signature body hmem => hbody (fun _ _ _ _ => rfl) (ClassModel.mem_generatedMembers.mp hmem),
    fun property setter hmem => ?_, fun name type getter hmem => ?_⟩
  · rw [hedits] at hm
    obtain ⟨e, he, hmethod⟩ := List.mem_filterMap.mp hm
    cases e with
    | addStatic f =>
      cases hmethod
      obtain ⟨decl, -, hcompiled⟩ := Assembly.exists_function hess he
      rw [CompiledMethod.references_ofBody hcompiled] at hr
      cases hr
    | addMethod f | replaceBody f =>
      cases hmethod
      obtain ⟨signature, body, hmem, hcompiled⟩ := Assembly.exists_method hess (List.mem_filterMap.mpr ⟨_, he, rfl⟩)
      refine hbody hcontains (ClassModel.mem_generatedMembers.mp hmem) r ?_
      exact CompiledMethod.references_ofStatements hcompiled hr
    | addField | addProperty | redirectInitializer => cases hmethod
  · rw [hedits] at hmem
    obtain ⟨p, hp, rfl, rfl, -⟩ := model.mem_redirect (Assembly.exists_redirect hess hmem)
    exact h.offers_generated (.mutableSetter p hp)
  · rw [hedits] at hmem
    obtain ⟨signature, hmember, rfl, rfl⟩ := Assembly.exists_property hess hmem
    obtain ⟨getter, body, hmethod, hname, -⟩ := ClassModel.hasGetter_of_property hmember
    exact hname ▸ h.offers_generated hmethod

end ClassImage

/-- **Patched classes are closed.**  Let a class be analyzed with no findings but warnings, and let it declare no method
whose name is one of an accessor.  If the module of its model can be applied to the class that is compiled from the
declaration, then the patched class has everything that the module refers to: the fields that its code loads and stores,
the change hooks and the hoisted functions that it calls, the methods that its statements call on the instance, those
that commands run, the properties that enable these, the setters that initial values go through, and the getters of
added properties.  A property that enables a command has a getter, unless the class declares it without one and only its
changes are announced. -/
theorem patched_image_closed {s : DeclarationSet} {c : ClassDecl} {model : ClassModel}
    (hmodel : (s.analyzeClass c).1 = some model) (hclean : ∀ f ∈ (s.analyzeClass c).2, f.isWarning = true)
    (hspares : c.SparesAccessors) {module : PatchModule} (hmodule : PatchModule.ofModel model = .ok module)
    {image : ClassImage} (himage : ClassImage.ofPatched c s.conventions module = .ok image) :
    ClassImage.Closed c model module image := by
  obtain ⟨d, hfindings, hbuilt, -⟩ := built_of_analyzeClass hmodel
  have hclean : d.Clean := fun f hf => hclean f (hfindings ▸ hf)
  have hhooks : ∀ p ∈ model.mutableProperties, ∀ hook ∈ [Naming.changingHook p.name, Naming.changedHook p.name],
      model.declaresHook hook = c.implements hook := fun _ _ _ hhook => declaresHook_eq hmodel hhook
  obtain ⟨base, hbase, hrun⟩ := ClassImage.forM_of_ofPatched himage
  have hwoven : ClassImage.Woven c model module base image :=
    ⟨hbuilt.analyzed, hbuilt.orderly hclean.unrepeated, entered_of_analyzeClass hmodel, hbuilt.declared hclean.unrepeated,
      hmodule, ClassImage.mirrors_baseline hbase, ClassImage.brings_forM hrun, ClassImage.keeps_forM hrun,
      ClassImage.ofPatched_generated hhooks hmodule himage⟩
  exact hwoven.closed hbuilt hclean hspares hhooks

/-- A gate with a level, which can be passed when it is open.  Nothing says how to find out whether it is. -/
def gate : ClassDecl where
  name := "Gate"
  typeParams := []
  modifiers := [.partial_]
  bases := [⟨"ReactiveObjectBase", [], false⟩]
  members :=
    [⟨"Level", [⟨"Reactive", [], .none⟩], [],
        .property ⟨⟨"int", [], false⟩, some ⟨none, .none⟩, some ⟨none, .none⟩, none⟩, .none, .none⟩,
      ⟨"Open", [⟨"Derived", [⟨none, .path ["CacheMode", "Disabled"], .none⟩, ⟨none, .string "Level", .none⟩], .none⟩], [],
        .property ⟨boolType, none, none, none⟩, .none, .none⟩,
      ⟨"Pass", [⟨"Command", [⟨some "CanExecute", .string "Open", .none⟩], .none⟩], [],
        .method ⟨⟨"void", [], false⟩, [], none⟩, .none, .none⟩]
  nameSpan := .none
  span := .none

/-- The file that declares a gate and nothing else. -/
def gateFile : DeclarationSet := ⟨"", "", ⟨[], none, [gate]⟩, default⟩

/-- Everything that the patch of a gate refers to is there, but the property that enables its command cannot be read. -/
theorem patched_image_closed_gate : ∃ model module image p, (gateFile.analyzeClass gate).1 = some model ∧
    PatchModule.ofModel model = .ok module ∧ ClassImage.ofPatched gate gateFile.conventions module = .ok image ∧
      ClassImage.Closed gate model module image ∧
      (∃ m ∈ module.edits.filterMap PatchEdit.method?, .gate "Open" ∈ m.references) ∧
        image.properties.find? "Open" = some p ∧ p.getter = none := by
  obtain ⟨model, hmodel⟩ := Option.isSome_iff_exists.mp
    (show (gateFile.analyzeClass gate).1.isSome = true by decide +kernel)
  have hclean : ∀ f ∈ (gateFile.analyzeClass gate).2, f.isWarning = true := by decide +kernel
  have hspares : gate.SparesAccessors := by
    unfold ClassDecl.SparesAccessors
    decide +kernel
  have hfacts : ((gateFile.analyzeClass gate).1.any fun model =>
      (PatchModule.ofModel model).toOption.any fun module =>
        (ClassImage.baseline gate gateFile.conventions).toOption.any fun base =>
          let result := module.edits.forM ClassImage.applyEdit base
          Stateful.isOk result && decide (model.header.name = base.name) &&
            (module.edits.filterMap PatchEdit.method?).any (fun m => decide (.gate "Open" ∈ m.references)) &&
              ((Stateful.final result).properties.find? "Open").any (·.getter.isNone)) = true := by decide +kernel
  rw [hmodel, Option.any_some] at hfacts
  obtain ⟨module, hmodule, hfacts⟩ := Stateful.exists_of_toOption_any hfacts
  obtain ⟨base, hbase, hfacts⟩ := Stateful.exists_of_toOption_any hfacts
  simp only [Bool.and_eq_true, decide_eq_true_eq] at hfacts
  obtain ⟨⟨⟨hok, hname⟩, hgate⟩, hunread⟩ := hfacts
  obtain ⟨hsealed, -⟩ := ClassImage.outline_of_ofModel hmodule
  have hrun := Stateful.eq_ok_final hok
  generalize Stateful.final (module.edits.forM ClassImage.applyEdit base) = image at hrun hunread
  have himage : ClassImage.ofPatched gate gateFile.conventions module = .ok image :=
    hsealed ▸ ClassImage.ofPatched_of_forM hbase hname hrun
  obtain ⟨m, hm, hgate⟩ := List.any_eq_true.mp hgate
  obtain ⟨p, hp, hnone⟩ := (Option.any_eq_true _ _).mp hunread
  exact ⟨model, module, image, p, hmodel, hmodule, himage,
    patched_image_closed hmodel hclean hspares hmodule himage, ⟨m, hm, of_decide_eq_true hgate⟩, hp,
    Option.isNone_iff_eq_none.mp hnone⟩

end Reactive
