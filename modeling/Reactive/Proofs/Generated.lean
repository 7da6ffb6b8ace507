import Reactive.Proofs.Loading

/-!
# Reactive.Proofs.Generated — what a class is like with the members that are generated for it

* `ClassModel.Compiles`: the method of the statements of a generated method.
* `ClassImage.Generated`: a method of the class is generated or declared; the init method has a name of its own; no two
  generated fields have the same name.
* `ofPatched_generated`: a declared class with the patch module of its model is like that.
-/

namespace Reactive

/-- The name of a field that is generated. -/
def GeneratedMember.field? : GeneratedMember → Option String
  | .field decl => some decl.name
  | _ => none

/-- The names of the fields of a cached value. -/
def DerivedProperty.fieldNames (d : DerivedProperty) : List String :=
  match d.slot with
  | none => []
  | some slot => slot.value :: slot.flag.toList

namespace ClassModel

/-- The names of the generated fields. -/
def fieldNames (m : ClassModel) : List String :=
  m.mutableProperties.map (·.slot) ++ m.derived.flatMap DerivedProperty.fieldNames ++ m.commands.map (·.slot)

theorem filterMap_cacheFields (d : DerivedProperty) :
    (cacheFields d).filterMap GeneratedMember.field? = d.fieldNames := by
  unfold cacheFields DerivedProperty.fieldNames
  cases d.slot with
  | none => rfl
  | some slot => cases hflag : slot.flag <;> simp [GeneratedMember.field?, hflag]

theorem filterMap_field (m : ClassModel) : m.generatedMembers.filterMap GeneratedMember.field? = m.fieldNames := by
  have hnone {α : Type} (xs : List α) (f : α → List GeneratedMember)
      (h : ∀ x ∈ xs, ∀ member ∈ f x, member.field? = none) : (xs.flatMap f).filterMap GeneratedMember.field? = [] := by
    refine List.filterMap_eq_nil_iff.mpr fun member hmem => ?_
    obtain ⟨x, hx, hmem⟩ := List.mem_flatMap.mp hmem
    exact h x hx member hmem
  have hslots : (m.mutableProperties.map slotField).filterMap GeneratedMember.field? =
      m.mutableProperties.map (·.slot) := by
    rw [List.filterMap_map]
    exact congrFun (List.filterMap_eq_map (f := fun p : MutableProperty => p.slot)) _
  have hcaches : (m.derived.flatMap cacheFields).filterMap GeneratedMember.field? =
      m.derived.flatMap DerivedProperty.fieldNames := by
    rw [List.filterMap_flatMap]
    exact List.flatMap_congr fun d _ => filterMap_cacheFields d
  have hstatics : (m.statics.map fun f => GeneratedMember.function f.toStaticFunction).filterMap
      GeneratedMember.field? = [] := by
    rw [List.filterMap_map]
    exact List.filterMap_eq_nil_iff.mpr fun _ _ => rfl
  have hhooks : (m.mutableProperties.flatMap m.hooks).filterMap GeneratedMember.field? = [] := by
    refine hnone _ _ fun p _ member hmem => ?_
    obtain ⟨hook, -, rfl⟩ := List.mem_map.mp hmem
    rfl
  have hstores : (m.mutableProperties.map m.raiseAndSet).filterMap GeneratedMember.field? = [] := by
    rw [List.filterMap_map]
    exact List.filterMap_eq_nil_iff.mpr fun _ _ => rfl
  have haccessors : (m.mutableProperties.flatMap m.mutableAccessors).filterMap GeneratedMember.field? = [] := by
    refine hnone _ _ fun p _ member hmem => ?_
    simp only [mutableAccessors, List.mem_append, List.mem_cons, List.not_mem_nil, or_false] at hmem
    obtain (rfl | rfl | rfl) | hmem := hmem
    · rfl
    · rfl
    · rfl
    · split at hmem
      · rw [List.mem_singleton.mp hmem]
        rfl
      · cases hmem
  have hderived : (m.derived.flatMap m.derivedAccessors).filterMap GeneratedMember.field? = [] := by
    refine hnone _ _ fun d _ member hmem => ?_
    unfold derivedAccessors at hmem
    split at hmem
    · cases hmem
    · simp only [List.mem_cons, List.not_mem_nil, or_false] at hmem
      obtain rfl | rfl := hmem <;> rfl
  have hrecompute : (m.derived.filterMap m.recomputer?).filterMap GeneratedMember.field? = [] := by
    refine List.filterMap_eq_nil_iff.mpr fun member hmem => ?_
    obtain ⟨d, -, hd⟩ := List.mem_filterMap.mp hmem
    unfold recomputer? at hd
    split at hd
    · split at hd
      · cases hd
      · cases hd
        rfl
    · cases hd
  have hcommands : (m.commands.flatMap commandMembers).filterMap GeneratedMember.field? =
      m.commands.map (·.slot) := by
    rw [List.filterMap_flatMap, ← List.flatMap_singleton' (m.commands.map _), List.flatMap_map]
    rfl
  have hinit : [m.initializer].filterMap GeneratedMember.field? = [] := rfl
  simp only [generatedMembers, fieldNames, List.filterMap_append, hslots, hcaches, hstatics, hhooks, hstores, haccessors,
    hderived, hrecompute, hcommands, hinit, List.append_nil]

/-- The method of the statements of a generated method, the class implementing some hooks. -/
def Compiles (d : ClassDecl) (m : ClassModel) (signature : MethodSignature) (body : List Statement)
    (method : CompiledMethod) : Prop :=
  ∃ hooks : List String, (∀ p ∈ m.mutableProperties, ∀ hook ∈ [Naming.changingHook p.name, Naming.changedHook p.name],
    hooks.contains hook = d.implements hook) ∧ CompiledMethod.ofStatements hooks signature body = .ok method

theorem Compiles.realizes {d : ClassDecl} {m : ClassModel} {signature : MethodSignature} {body : List Statement}
    {method : CompiledMethod} (h : m.Compiles d signature body method) (hmethod : m.HasMethod signature body)
    (hsize : method.code.length < UInt64.size) (hlocals : Statement.localCountAll body < UInt16.size) :
    Realizes d.implements signature body method := by
  obtain ⟨hooks, hhooks, hcompiled⟩ := h
  exact realizes_ofStatements hhooks hmethod hcompiled hsize hlocals

end ClassModel

/-- The name of the method of statements. -/
theorem name_ofStatements {hooks : List String} {signature : MethodSignature} {body : List Statement}
    {m : CompiledMethod} (h : CompiledMethod.ofStatements hooks signature body = .ok m) : m.name = signature.name := by
  obtain ⟨b, hbody, hbuild⟩ := ofStatements_eq_ok h
  exact (name_of_build hbuild).1.trans (Build.grows_statements body hbody).name

/-! ### Edits of members -/

namespace Assembly

variable {hooks : List String} {members : List GeneratedMember} {ess : List (List PatchEdit)}

/-- What the edits of members name, if the edits of each of them do. -/
theorem filterMap_flatten {β : Type} {f : PatchEdit → Option β} {g : GeneratedMember → Option β}
    (hone : ∀ member es, EditsOf hooks member es → es.filterMap f = (g member).toList)
    (h : List.Forall₂ (EditsOf hooks) members ess) : ess.flatten.filterMap f = members.filterMap g := by
  induction h with
  | nil => rfl
  | cons hmember _ ih =>
    rw [List.flatten_cons, List.filterMap_append, hone _ _ hmember, ih, ← filterMap_cons_toList]

/-- The fields that members add. -/
theorem filterMap_field_flatten (h : List.Forall₂ (EditsOf hooks) members ess) :
    ess.flatten.filterMap PatchEdit.field? = members.filterMap GeneratedMember.field? := by
  refine filterMap_flatten (fun member es hmember => ?_) h
  cases hmember with
  | property signature => cases signature.synthesized <;> rfl
  | field | function | hook | added | replaced | redirect => rfl

/-- An edit is one of those of a member. -/
theorem exists_editsOf (h : List.Forall₂ (EditsOf hooks) members ess) {e : PatchEdit} (he : e ∈ ess.flatten) :
    ∃ member ∈ members, ∃ es, e ∈ es ∧ EditsOf hooks member es := by
  obtain ⟨es, hes, he⟩ := List.mem_flatten.mp he
  obtain ⟨member, hmember, heach⟩ := exists_mem_right h hes
  exact ⟨member, hmember, es, he, heach⟩

/-- A member has its edits among all. -/
theorem editsOf_of_mem (h : List.Forall₂ (EditsOf hooks) members ess) {member : GeneratedMember}
    (hm : member ∈ members) : ∃ es, EditsOf hooks member es ∧ ∀ e ∈ es, e ∈ ess.flatten := by
  obtain ⟨es, hes, heach⟩ := exists_mem_left h hm
  exact ⟨es, heach, fun e he => List.mem_flatten.mpr ⟨es, hes, he⟩⟩

/-- A method that an edit brings in is the one of a member. -/
theorem exists_method (h : List.Forall₂ (EditsOf hooks) members ess) {m : CompiledMethod}
    (hm : m ∈ ess.flatten.filterMap PatchEdit.instanceMethod?) :
    ∃ signature body, .method signature body ∈ members ∧ CompiledMethod.ofStatements hooks signature body = .ok m := by
  obtain ⟨e, he, hmethod⟩ := List.mem_filterMap.mp hm
  obtain ⟨member, hmem, es, he, hes⟩ := exists_editsOf h he
  cases hes with
  | property signature =>
    split at he
    · obtain rfl := List.mem_singleton.mp he
      cases hmethod
    · cases he
  | added compiled =>
    obtain rfl := List.mem_singleton.mp he
    cases hmethod
    exact ⟨_, _, hmem, compiled⟩
  | replaced compiled =>
    obtain rfl := List.mem_singleton.mp he
    cases hmethod
    exact ⟨_, _, hmem, compiled⟩
  | hook => cases he
  | field | function | redirect =>
    obtain rfl := List.mem_singleton.mp he
    cases hmethod

/-- A method that is a member is brought in by an edit. -/
theorem exists_instanceMethod (h : List.Forall₂ (EditsOf hooks) members ess) {signature : MethodSignature}
    {body : List Statement} (hm : .method signature body ∈ members) :
    ∃ m ∈ ess.flatten.filterMap PatchEdit.instanceMethod?, CompiledMethod.ofStatements hooks signature body = .ok m := by
  obtain ⟨es, hes, hmem⟩ := editsOf_of_mem h hm
  cases hes with
  | added compiled => exact ⟨_, List.mem_filterMap.mpr ⟨_, hmem _ List.mem_cons_self, rfl⟩, compiled⟩
  | replaced compiled => exact ⟨_, List.mem_filterMap.mpr ⟨_, hmem _ List.mem_cons_self, rfl⟩, compiled⟩

/-- A function that an edit hoists is the one of a member. -/
theorem exists_function (h : List.Forall₂ (EditsOf hooks) members ess) {m : CompiledMethod}
    (hm : .addStatic m ∈ ess.flatten) :
    ∃ decl, .function decl ∈ members ∧ CompiledMethod.ofBody decl.name (.detached [decl.param]) decl.body = .ok m := by
  obtain ⟨member, hmem, es, he, hes⟩ := exists_editsOf h hm
  cases hes with
  | property signature =>
    split at he
    · cases List.mem_singleton.mp he
    · cases he
  | function compiled =>
    cases List.mem_singleton.mp he
    exact ⟨_, hmem, compiled⟩
  | hook => cases he
  | field | added | replaced | redirect => cases List.mem_singleton.mp he

/-- Every hoisted function of a class is added. -/
theorem exists_addStatic {model : ClassModel} (h : List.Forall₂ (EditsOf hooks) model.generatedMembers ess)
    {f : HoistedFunction} (hf : f ∈ model.statics) : ∃ m, .addStatic m ∈ ess.flatten ∧ m.name = f.name := by
  have hmem : .function f.toStaticFunction ∈ model.generatedMembers := by
    rw [ClassModel.generatedMembers_eq]
    simp only [ClassModel.declarations, List.mem_append, List.mem_map]
    exact Or.inl (Or.inl (Or.inr ⟨f, hf, rfl⟩))
  obtain ⟨es, hes, hin⟩ := editsOf_of_mem h hmem
  cases hes with
  | function compiled => exact ⟨_, hin _ List.mem_cons_self, name_ofBody compiled⟩

/-- A property that an edit adds is a member. -/
theorem exists_property (h : List.Forall₂ (EditsOf hooks) members ess) {name type getter : String}
    (hp : .addProperty name type getter ∈ ess.flatten) :
    ∃ signature, .property signature ∈ members ∧ signature.name = name ∧ getter = Naming.getter name := by
  obtain ⟨member, hmem, es, he, hes⟩ := exists_editsOf h hp
  cases hes with
  | property signature =>
    split at he
    · cases List.mem_singleton.mp he
      exact ⟨signature, hmem, rfl, rfl⟩
    · cases he
  | hook => cases he
  | field | function | added | replaced | redirect => cases List.mem_singleton.mp he

/-- An initial value that an edit redirects is one that a member does. -/
theorem exists_redirect (h : List.Forall₂ (EditsOf hooks) members ess) {property setter : String}
    (hr : .redirectInitializer property setter ∈ ess.flatten) : .redirect property setter ∈ members := by
  obtain ⟨member, hmem, es, he, hes⟩ := exists_editsOf h hr
  cases hes with
  | property signature =>
    split at he
    · cases List.mem_singleton.mp he
    · cases he
  | redirect =>
    cases List.mem_singleton.mp he
    exact hmem
  | hook => cases he
  | field | function | added | replaced => cases List.mem_singleton.mp he

end Assembly

/-! ### Classes with generated members -/

namespace ClassModel

variable {m : ClassModel}

/-- The getter of a generated property is generated, too, and is not the init method. -/
theorem hasGetter_of_property {signature : PropertySignature} (h : .property signature ∈ m.generatedMembers) :
    m.HasGetter signature.name := by
  rw [generatedMembers_eq, List.mem_append] at h
  obtain h | h := h
  · obtain ⟨_, ⟨⟩⟩ | ⟨_, _, ⟨⟩⟩ | ⟨_, _, _, _, ⟨⟩⟩ := mem_declarations h
  · obtain (⟨_, ⟨⟩, hgetter⟩ | ⟨_, ⟨⟩⟩) | ⟨_, _, ⟨⟩⟩ | ⟨_, _, ⟨⟩, _⟩ := mem_accessors h
    exact hgetter

/-- The generated members before the init method. -/
def beforeInit (m : ClassModel) : List GeneratedMember :=
  m.declarations ++ (m.mutableProperties.map m.raiseAndSet ++ m.mutableProperties.flatMap m.mutableAccessors
    ++ m.derived.flatMap m.derivedAccessors ++ m.derived.filterMap m.recomputer? ++ m.commands.flatMap commandMembers)

theorem generatedMembers_eq_beforeInit (m : ClassModel) : m.generatedMembers = m.beforeInit ++ [m.initializer] := by
  simp only [generatedMembers_eq, beforeInit, accessors, List.append_assoc]

theorem mem_generatedMembers {signature : MethodSignature} {body : List Statement} :
    .method signature body ∈ m.generatedMembers ↔ m.HasMethod signature body := by
  constructor
  · intro h
    exact hasMethod_of_mem (List.mem_filterMap.mpr ⟨_, h, rfl⟩)
  · intro h
    obtain ⟨member, hmem, hmethod⟩ := List.mem_filterMap.mp (mem_of_hasMethod h)
    obtain rfl : member = .method signature body := by
      cases member <;> cases hmethod
      rfl
    exact hmem

/-- A generated method is the init method or stands before it. -/
theorem HasMethod.init_or_mem {signature : MethodSignature} {body : List Statement} (h : m.HasMethod signature body) :
    (signature = ⟨m.initMethod, .init m.derivesExtensibleBase, [], none⟩ ∧ body = m.initBody) ∨
      .method signature body ∈ m.beforeInit := by
  have hmem := mem_generatedMembers.mpr h
  rw [generatedMembers_eq_beforeInit] at hmem
  obtain hmem | hmem := List.mem_append.mp hmem
  · exact Or.inr hmem
  · cases List.mem_singleton.mp hmem
    exact Or.inl ⟨rfl, rfl⟩

end ClassModel

/-- The init method is the last member, so it is added to all that is there before it. -/
theorem Assembly.exists_init {model : ClassModel} {hooks : List String} {ess : List (List PatchEdit)}
    (hess : List.Forall₂ (EditsOf hooks) model.generatedMembers ess) :
    ∃ front init, ess.flatten = front.flatten ++ [.addMethod init] ∧
      List.Forall₂ (EditsOf hooks) model.beforeInit front ∧ CompiledMethod.ofStatements hooks
        ⟨model.initMethod, .init model.derivesExtensibleBase, [], none⟩ model.initBody = .ok init := by
  have hreverse := List.forall₂_reverse_iff.mpr hess
  rw [ClassModel.generatedMembers_eq_beforeInit, List.reverse_append, List.reverse_singleton, List.singleton_append]
    at hreverse
  generalize hrev : ess.reverse = rev at hreverse
  cases hreverse with
  | @cons _ es _ rest hlast hrest =>
    have hess' : ess = rest.reverse ++ [es] := by rw [← List.reverse_reverse ess, hrev, List.reverse_cons]
    refine ⟨rest.reverse, ?_⟩
    have hfront := List.forall₂_reverse_iff.mpr hrest
    rw [List.reverse_reverse] at hfront
    cases hlast with
    | added compiled => exact ⟨_, by rw [hess', List.flatten_append]; rfl, hfront, compiled⟩
    | replaced _ accessor =>
      obtain ⟨p, hp | hp⟩ := accessor <;> cases hp

namespace ClassImage

/-- What a class is like that is loaded with the members that are generated for it. -/
structure Generated (d : ClassDecl) (model : ClassModel) (c : ClassImage) : Prop where
  methods : ∀ n m, c.methods.find? n = some m → m.name = n ∧
    ((∃ signature body, model.HasMethod signature body ∧ signature.name = n ∧ model.Compiles d signature body m) ∨
      (d.Defines m ∧ ∀ signature body, model.HasMethod signature body → signature.name ≠ n))
  present : ∀ signature body, model.HasMethod signature body → c.methods.has signature.name = true
  init : ∀ signature body, model.HasMethod signature body → signature.name = model.initMethod →
    signature.kind = .init model.derivesExtensibleBase
  bodies : ∀ n, d.implements n = true → n ≠ model.initMethod
  getters : ∀ n p g, c.properties.find? n = some p → p.getter = some g → g = Naming.getter n ∧ g ≠ model.initMethod
  setters : ∀ n p s, c.properties.find? n = some p → p.setter = some s → s = Naming.setter n ∧ s ≠ model.initMethod
  statics : ∀ n f, c.statics.find? n = some f →
    ∃ h ∈ model.statics, h.name = n ∧ CompiledMethod.ofBody n (.detached [h.param]) h.body = .ok f
  hoisted : ∀ h ∈ model.statics, c.statics.has h.name = true
  fields : model.fieldNames.Nodup

/-- A declared class with the patch module of its model. -/
theorem ofPatched_generated {d : ClassDecl} {conventions : Conventions} {model : ClassModel} {module : PatchModule}
    {c : ClassImage} (hhooks : ∀ p ∈ model.mutableProperties, ∀ hook ∈ [Naming.changingHook p.name,
      Naming.changedHook p.name], model.declaresHook hook = d.implements hook)
    (hmodule : PatchModule.ofModel model = .ok module) (hc : ofPatched d conventions module = .ok c) :
    Generated d model c := by
  obtain ⟨hooks, hcontains, ess, hess, rfl⟩ := editsOf_ofModel hmodule
  obtain ⟨front, init, hsplit, hfront, hinit⟩ := Assembly.exists_init hess
  rw [hsplit] at hc
  obtain ⟨base, mid, hbase, hknown, hmid, hwider, hnew, rfl, hall⟩ := ofPatched_eq_ok hc
  rw [← hsplit] at hall
  have hname : init.name = model.initMethod := name_ofStatements hinit
  rw [hname] at hnew
  have hapart {signature : MethodSignature} {body : List Statement} (h : .method signature body ∈ model.beforeInit) :
      signature.name ≠ model.initMethod := by
    obtain ⟨m, hm, hcompiled⟩ := Assembly.exists_instanceMethod hfront h
    rintro heq
    refine hnew (Or.inl ?_)
    rw [← heq, ← name_ofStatements hcompiled]
    exact hmid.added m hm
  have haccess : ∀ n p, (mid.putMethod init).properties.find? n = some p →
      (∀ g, p.getter = some g → g = Naming.getter n ∧ g ≠ model.initMethod) ∧
        ∀ s, p.setter = some s → s = Naming.setter n ∧ s ≠ model.initMethod := by
    intro n p hp
    obtain haccess | ⟨type, getter, hadd, rfl⟩ := hmid.properties n p hp
    · exact ⟨fun g hg => ⟨(haccess.getter g hg).1, fun heq => hnew (heq ▸ (haccess.getter g hg).2)⟩,
        fun s hs => ⟨(haccess.setter s hs).1, fun heq => hnew (heq ▸ (haccess.setter s hs).2)⟩⟩
    · refine ⟨fun g hg => ?_, nofun⟩
      cases hg
      obtain ⟨signature, hmem, rfl, rfl⟩ := Assembly.exists_property hfront hadd
      refine ⟨rfl, ?_⟩
      have hmem' : .property signature ∈ model.generatedMembers := by
        rw [ClassModel.generatedMembers_eq_beforeInit]
        exact List.mem_append_left _ hmem
      obtain ⟨getter, body, hmethod, hgetter, hkind⟩ := ClassModel.hasGetter_of_property hmem'
      obtain ⟨rfl, -⟩ | hbefore := hmethod.init_or_mem
      · exact absurd rfl (hkind _)
      · exact hgetter ▸ hapart hbefore
  refine ⟨fun n m hfind => ?_, fun signature body hmethod => ?_, fun signature body hmethod heq => ?_,
    fun n himpl heq => ?_, fun n p g hp hg => (haccess n p hp).1 g hg, fun n p s hp hs => (haccess n p hp).2 s hs,
    fun n f hf => ?_, fun h hh => ?_, ?_⟩
  · obtain ⟨hname, hin | ⟨hdefines, hother⟩⟩ := hall.methods n m hfind
    · refine ⟨hname, Or.inl ?_⟩
      obtain ⟨signature, body, hmem, hcompiled⟩ := Assembly.exists_method hess hin
      exact ⟨signature, body, ClassModel.mem_generatedMembers.mp hmem, (name_ofStatements hcompiled).symm.trans hname,
        hooks, fun p hp hook hhook => (hcontains p hp hook hhook).trans (hhooks p hp hook hhook), hcompiled⟩
    · refine ⟨hname, Or.inr ⟨hdefines, fun signature body hmethod heq => ?_⟩⟩
      obtain ⟨m', hm', hcompiled⟩ := Assembly.exists_instanceMethod hess (ClassModel.mem_generatedMembers.mpr hmethod)
      exact hother m' hm' ((name_ofStatements hcompiled).trans heq)
  · obtain ⟨m, hm, hcompiled⟩ := Assembly.exists_instanceMethod hess (ClassModel.mem_generatedMembers.mpr hmethod)
    rw [← name_ofStatements hcompiled]
    exact hall.added m hm
  · obtain ⟨rfl, -⟩ | hbefore := hmethod.init_or_mem
    · rfl
    · exact absurd heq (hapart hbefore)
  · exact hnew (hwider _ (heq ▸ hknown n himpl))
  · obtain ⟨hname, hadd⟩ := hall.statics n f hf
    obtain ⟨decl, hmem, hcompiled⟩ := Assembly.exists_function hess hadd
    rw [ClassModel.generatedMembers_eq, List.mem_append] at hmem
    obtain hmem | hmem := hmem
    · obtain ⟨_, ⟨⟩⟩ | ⟨h, hh, ⟨⟩⟩ | ⟨_, _, _, _, ⟨⟩⟩ := ClassModel.mem_declarations hmem
      obtain rfl : h.name = n := (name_ofBody hcompiled).symm.trans hname
      exact ⟨h, hh, rfl, hcompiled⟩
    · obtain (⟨_, ⟨⟩, _⟩ | ⟨_, ⟨⟩⟩) | ⟨_, _, ⟨⟩⟩ | ⟨_, _, ⟨⟩, _⟩ := ClassModel.mem_accessors hmem
  · obtain ⟨m, hm, hname⟩ := Assembly.exists_addStatic hess hh
    exact hname ▸ hall.hoisted m hm
  · rw [← ClassModel.filterMap_field, ← Assembly.filterMap_field_flatten hess]
    exact hall.distinct

end ClassImage

end Reactive
