import Mathlib.Tactic.Common
import Reactive.Analysis
import Reactive.Proofs.Assembling
import Reactive.Proofs.Statements

/-!
# Reactive.Proofs.Methods — generated methods do what their statements say

* `ClassModel.HasMethod`: what methods are generated for a class, with their statements.
* `simulates_ofStatements`: the method of statements does what their interpretation does.
-/

namespace Reactive

open MethodBuilder

namespace ClassModel

variable {m : ClassModel}

/-- The methods that are generated for a class, in order. -/
def methods (m : ClassModel) : List (MethodSignature × List Statement) :=
  m.generatedMembers.filterMap GeneratedMember.method?

/-- A method is generated for a class. -/
inductive HasMethod (m : ClassModel) : MethodSignature → List Statement → Prop
  | raiseAndSet (p : MutableProperty) (mem : p ∈ m.mutableProperties) :
    HasMethod m ⟨Naming.raiseAndSet p.name, .raiseAndSet p.name, [("value", p.type)], none⟩ (m.raiseAndSetBody p)
  | mutableGetter (p : MutableProperty) (mem : p ∈ m.mutableProperties) :
    HasMethod m (.getter p.name p.type) [.ret (.slot p.slot)]
  | mutableSetter (p : MutableProperty) (mem : p ∈ m.mutableProperties) :
    HasMethod m (.setter p.name p.type) [.callMethod (Naming.raiseAndSet p.name) true]
  | derivedGetter (d : DerivedProperty) (mem : d ∈ m.derived) (value : Operand) (computed : m.operand? d = some value) :
    HasMethod m (.getter d.name d.type) (getterBody d value)
  | recompute (d : DerivedProperty) (mem : d ∈ m.derived) (slot : DerivedSlot) (cached : d.slot = some slot)
    (value : Operand) (computed : m.operand? d = some value) (own : d.isObservable = false) :
    HasMethod m ⟨Naming.recompute d.name, .recompute d.name, [], none⟩ (recomputeBody d slot value)
  | commandGetter (c : CommandModel) (mem : c ∈ m.commands) :
    HasMethod m ⟨Naming.getter c.property, .commandGetter c.property, [], some c.type⟩
      [.returnCommand c.slot c.factory]
  | init : HasMethod m ⟨m.initMethod, .init m.derivesExtensibleBase, [], none⟩ m.initBody

/-- The generated members before the first method. -/
def declarations (m : ClassModel) : List GeneratedMember :=
  m.mutableProperties.map slotField ++ m.derived.flatMap cacheFields
    ++ m.statics.map (fun f => .function f.toStaticFunction) ++ m.mutableProperties.flatMap m.hooks

/-- The generated members from the first method on. -/
def accessors (m : ClassModel) : List GeneratedMember :=
  m.mutableProperties.map m.raiseAndSet ++ m.mutableProperties.flatMap m.mutableAccessors
    ++ m.derived.flatMap m.derivedAccessors ++ m.derived.filterMap m.recomputer? ++ m.commands.flatMap commandMembers
    ++ [m.initializer]

theorem generatedMembers_eq (m : ClassModel) : m.generatedMembers = m.declarations ++ m.accessors := by
  simp only [generatedMembers, declarations, accessors, List.append_assoc]

/-- Before the first method stand fields, functions and hooks. -/
theorem mem_declarations {member : GeneratedMember} (h : member ∈ m.declarations) :
    (∃ decl, member = .field decl) ∨ (∃ f ∈ m.statics, member = .function f.toStaticFunction) ∨
      ∃ p ∈ m.mutableProperties, ∃ hook ∈ [Naming.changingHook p.name, Naming.changedHook p.name],
        member = .hook ⟨hook, p.type, m.declaresHook hook⟩ := by
  simp only [declarations, List.mem_append, List.mem_map, List.mem_flatMap] at h
  rcases h with ((⟨p, -, rfl⟩ | ⟨d, -, h⟩) | ⟨f, hf, rfl⟩) | ⟨p, hp, h⟩
  · exact Or.inl ⟨_, rfl⟩
  · unfold cacheFields at h
    split at h
    · cases h
    · rename_i slot
      obtain rfl | h := List.mem_cons.mp h
      · exact Or.inl ⟨_, rfl⟩
      · obtain ⟨flag, -, rfl⟩ := Option.map_eq_some_iff.mp (Option.mem_toList.mp h)
        exact Or.inl ⟨_, rfl⟩
  · exact Or.inr (Or.inl ⟨f, hf, rfl⟩)
  · obtain ⟨hook, hhook, rfl⟩ := List.mem_map.mp h
    exact Or.inr (Or.inr ⟨p, hp, hook, hhook, rfl⟩)

/-- A getter of the property is generated for the class. -/
def HasGetter (m : ClassModel) (property : String) : Prop :=
  ∃ signature body, m.HasMethod signature body ∧ signature.name = Naming.getter property ∧
    ∀ isOverride, signature.kind ≠ .init isOverride

/-- From the first method on there are no hooks and no functions. -/
theorem mem_accessors {member : GeneratedMember} (h : member ∈ m.accessors) :
    ((∃ signature, member = .property signature ∧ m.HasGetter signature.name) ∨ ∃ decl, member = .field decl) ∨
      (∃ p s, member = .redirect p s) ∨ ∃ signature body, member = .method signature body ∧ m.HasMethod signature body := by
  simp only [accessors, List.mem_append, List.mem_map, List.mem_flatMap, List.mem_filterMap, List.mem_singleton] at h
  rcases h with ((((⟨p, hp, rfl⟩ | ⟨p, hp, h⟩) | ⟨d, hd, h⟩) | ⟨d, hd, h⟩) | ⟨c, hc, h⟩) | rfl
  · exact Or.inr (Or.inr ⟨_, _, rfl, .raiseAndSet p hp⟩)
  · simp only [mutableAccessors, List.mem_append, List.mem_cons, List.not_mem_nil, or_false] at h
    rcases h with (rfl | rfl | rfl) | h
    · exact Or.inl (Or.inl ⟨_, rfl, _, _, .mutableGetter p hp, rfl, fun _ hkind => by cases hkind⟩)
    · exact Or.inr (Or.inr ⟨_, _, rfl, .mutableGetter p hp⟩)
    · exact Or.inr (Or.inr ⟨_, _, rfl, .mutableSetter p hp⟩)
    · split at h
      · exact Or.inr (Or.inl ⟨_, _, List.mem_singleton.mp h⟩)
      · cases h
  · unfold derivedAccessors at h
    split at h
    · cases h
    · rename_i value hvalue
      simp only [List.mem_cons, List.not_mem_nil, or_false] at h
      rcases h with rfl | rfl
      · exact Or.inl (Or.inl ⟨_, rfl, _, _, .derivedGetter d hd value hvalue, rfl, fun _ hkind => by cases hkind⟩)
      · exact Or.inr (Or.inr ⟨_, _, rfl, .derivedGetter d hd value hvalue⟩)
  · unfold recomputer? at h
    split at h
    · rename_i slot value hslot hvalue
      split at h
      · cases h
      · rename_i hown
        cases h
        exact Or.inr (Or.inr ⟨_, _, rfl, .recompute d hd slot hslot value hvalue (by simpa using hown)⟩)
    · cases h
  · simp only [commandMembers, List.mem_cons, List.not_mem_nil, or_false] at h
    rcases h with rfl | rfl | rfl
    · exact Or.inl (Or.inr ⟨_, rfl⟩)
    · exact Or.inl (Or.inl ⟨_, rfl, _, _, .commandGetter c hc, rfl, fun _ hkind => by cases hkind⟩)
    · exact Or.inr (Or.inr ⟨_, _, rfl, .commandGetter c hc⟩)
  · exact Or.inr (Or.inr ⟨_, _, rfl, .init⟩)

theorem hasMethod_of_mem {signature : MethodSignature} {body : List Statement} (h : (signature, body) ∈ m.methods) :
    m.HasMethod signature body := by
  obtain ⟨member, hmem, hmethod⟩ := List.mem_filterMap.mp h
  obtain rfl : member = .method signature body := by
    cases member <;> cases hmethod
    rfl
  rw [generatedMembers_eq, List.mem_append] at hmem
  rcases hmem with hmem | hmem
  · obtain ⟨_, ⟨⟩⟩ | ⟨_, _, ⟨⟩⟩ | ⟨_, _, _, _, ⟨⟩⟩ := mem_declarations hmem
  · obtain (⟨_, ⟨⟩, _⟩ | ⟨_, ⟨⟩⟩) | ⟨_, _, ⟨⟩⟩ | ⟨_, _, ⟨⟩, hmethod⟩ := mem_accessors hmem
    exact hmethod

theorem mem_of_hasMethod {signature : MethodSignature} {body : List Statement} (h : m.HasMethod signature body) :
    (signature, body) ∈ m.methods := by
  refine List.mem_filterMap.mpr ⟨.method signature body, ?_, rfl⟩
  rw [generatedMembers_eq]
  refine List.mem_append_right _ ?_
  simp only [accessors, List.mem_append, List.mem_map, List.mem_flatMap, List.mem_filterMap, List.mem_singleton]
  cases h with
  | raiseAndSet p mem => exact Or.inl (Or.inl (Or.inl (Or.inl (Or.inl ⟨p, mem, rfl⟩))))
  | mutableGetter p mem =>
    exact Or.inl (Or.inl (Or.inl (Or.inl (Or.inr ⟨p, mem, by simp [mutableAccessors]⟩))))
  | mutableSetter p mem =>
    exact Or.inl (Or.inl (Or.inl (Or.inl (Or.inr ⟨p, mem, by simp [mutableAccessors]⟩))))
  | derivedGetter d mem value computed =>
    exact Or.inl (Or.inl (Or.inl (Or.inr ⟨d, mem, by simp [derivedAccessors, computed]⟩)))
  | recompute d mem slot cached value computed own =>
    exact Or.inl (Or.inl (Or.inr ⟨d, mem, by simp [recomputer?, cached, computed, own]⟩))
  | commandGetter c mem => exact Or.inl (Or.inr ⟨c, mem, by simp [commandMembers]⟩)
  | init => exact Or.inr rfl

end ClassModel

/-! ### Hooks -/

mutual

/-- The hooks that a statement calls. -/
def Statement.hooks : Statement → List String
  | .callHook hook => [hook]
  | .ifUnset _ body => hooksAll body
  | _ => []

/-- The hooks that statements call. -/
def Statement.hooksAll : List Statement → List String
  | [] => []
  | s :: rest => s.hooks ++ hooksAll rest

end

namespace Run

variable {enter : Enter} {a : Activation} {declares declares' : String → Bool} {params : List String}

mutual

/-- Only the hooks that a statement calls matter for what it does. -/
theorem interpret_congr : ∀ (s : Statement), (∀ hook ∈ s.hooks, declares hook = declares' hook) → ∀ names,
    interpret enter a declares params names s = interpret enter a declares' params names s
  | .callHook hook, h, names => by
    have hhook : declares hook = declares' hook := h hook (by simp [Statement.hooks])
    simp only [interpret, hhook]
  | .ifUnset flag body, h, names => by
    have hbody := interpretAll_congr body (by simpa only [Statement.hooks] using h) names
    simp only [interpret, hbody]
  | .returnIfUnchanged _, _, _ | .captureOld _, _, _ | .raiseChanging _, _, _ | .raiseChanged _, _, _
  | .storeValue _, _, _ | .callMethod .., _, _ | .setIfChanged .., _, _ | .store .., _, _ | .ret _, _, _
  | .returnCommand .., _, _ | .registerLocale .., _, _ | .addLocaleProperty .., _, _ => by
    simp only [interpret]

/-- Only the hooks that statements call matter for what they do. -/
theorem interpretAll_congr : ∀ (ss : List Statement), (∀ hook ∈ Statement.hooksAll ss, declares hook = declares' hook) →
    ∀ names, interpretAll enter a declares params names ss = interpretAll enter a declares' params names ss
  | [], _, _ => by simp only [interpretAll]
  | s :: rest, h, names => by
    simp only [Statement.hooksAll, List.mem_append] at h
    have hs := interpret_congr s (fun hook hmem => h hook (Or.inl hmem)) names
    have hrest := interpretAll_congr rest fun hook hmem => h hook (Or.inr hmem)
    simp only [interpretAll, hs, hrest]

end

end Run

/-! ### Locals and hooks of generated methods -/

namespace Statement

theorem localCountAll_append : ∀ ss ts : List Statement,
    localCountAll (ss ++ ts) = localCountAll ss + localCountAll ts
  | [], ts => by rw [List.nil_append, localCountAll, Nat.zero_add]
  | s :: ss, ts => by rw [List.cons_append, localCountAll, localCountAll, localCountAll_append ss ts, Nat.add_assoc]

theorem hooksAll_append : ∀ ss ts : List Statement, hooksAll (ss ++ ts) = hooksAll ss ++ hooksAll ts
  | [], ts => by rw [List.nil_append, hooksAll, List.nil_append]
  | s :: ss, ts => by rw [List.cons_append, hooksAll, hooksAll, hooksAll_append ss ts, List.append_assoc]

/-- A statement that asks for no local and calls no hook. -/
def IsPlain (s : Statement) : Prop := s.localCount = 0 ∧ s.hooks = []

theorem localCountAll_plain : ∀ {ss : List Statement}, (∀ s ∈ ss, s.IsPlain) → localCountAll ss = 0
  | [], _ => rfl
  | s :: ss, h => by
    rw [localCountAll, (h s List.mem_cons_self).1, localCountAll_plain fun t ht => h t (List.mem_cons_of_mem _ ht)]

theorem hooksAll_plain : ∀ {ss : List Statement}, (∀ s ∈ ss, s.IsPlain) → hooksAll ss = []
  | [], _ => rfl
  | s :: ss, h => by
    rw [hooksAll, (h s List.mem_cons_self).2, hooksAll_plain fun t ht => h t (List.mem_cons_of_mem _ ht),
      List.append_nil]

end Statement

namespace ClassModel

open Statement

variable {m : ClassModel}

theorem refresh_isPlain (d : DerivedProperty) : (refresh d).IsPlain := by
  unfold refresh
  split <;> exact ⟨rfl, rfl⟩

theorem localCountAll_raiseAndSetBody (p : MutableProperty) : localCountAll (m.raiseAndSetBody p) = 3 := by
  have hchanging : localCountAll (((m.affected p).filter (·.cache = .disabled)).map
      fun d => Statement.raiseChanging d.name) = 0 := by
    refine localCountAll_plain fun s hs => ?_
    obtain ⟨d, -, rfl⟩ := List.mem_map.mp hs
    exact ⟨rfl, rfl⟩
  have hrefresh : localCountAll ((m.affected p).map refresh) = 0 := by
    refine localCountAll_plain fun s hs => ?_
    obtain ⟨d, -, rfl⟩ := List.mem_map.mp hs
    exact refresh_isPlain d
  have hcheck : localCountAll (if p.skipsEqualityCheck then [] else [.returnIfUnchanged p.slot]) = 0 := by
    split <;> rfl
  simp only [raiseAndSetBody, localCountAll_append, hchanging, hrefresh, hcheck]
  rfl

theorem hooksAll_raiseAndSetBody (p : MutableProperty) :
    hooksAll (m.raiseAndSetBody p) = [Naming.changingHook p.name, Naming.changedHook p.name] := by
  have hchanging : hooksAll (((m.affected p).filter (·.cache = .disabled)).map
      fun d => Statement.raiseChanging d.name) = [] := by
    refine hooksAll_plain fun s hs => ?_
    obtain ⟨d, -, rfl⟩ := List.mem_map.mp hs
    exact ⟨rfl, rfl⟩
  have hrefresh : hooksAll ((m.affected p).map refresh) = [] := by
    refine hooksAll_plain fun s hs => ?_
    obtain ⟨d, -, rfl⟩ := List.mem_map.mp hs
    exact refresh_isPlain d
  have hcheck : hooksAll (if p.skipsEqualityCheck then [] else [.returnIfUnchanged p.slot]) = [] := by
    split <;> rfl
  simp only [raiseAndSetBody, hooksAll_append, hchanging, hrefresh, hcheck]
  rfl

theorem localCountAll_registrations : ∀ (unnamed : Nat) (objects : List (String × LocaleGrouping)),
    localCountAll (registrations unnamed objects) = objects.length
  | _, [] => rfl
  | unnamed, (registry, grouping) :: rest => by
    have hbindings : localCountAll (grouping.bindings.map fun b => .addLocaleProperty (localeObject unnamed grouping.name)
        b.keyName b.targetName b.retain) = 0 := by
      refine localCountAll_plain fun s hs => ?_
      obtain ⟨b, -, rfl⟩ := List.mem_map.mp hs
      exact ⟨rfl, rfl⟩
    rw [registrations, localCountAll_append, localCountAll_registrations, registration, localCountAll, hbindings,
      List.length_cons, Nat.add_comm]
    rfl

theorem hooksAll_registrations : ∀ (unnamed : Nat) (objects : List (String × LocaleGrouping)),
    hooksAll (registrations unnamed objects) = []
  | _, [] => rfl
  | unnamed, (registry, grouping) :: rest => by
    have hbindings : hooksAll (grouping.bindings.map fun b => .addLocaleProperty (localeObject unnamed grouping.name)
        b.keyName b.targetName b.retain) = [] := by
      refine hooksAll_plain fun s hs => ?_
      obtain ⟨b, -, rfl⟩ := List.mem_map.mp hs
      exact ⟨rfl, rfl⟩
    rw [registrations, hooksAll_append, hooksAll_registrations, registration, hooksAll, hbindings]
    rfl

theorem initialSteps_isPlain (d : DerivedProperty) {s : Statement} (h : s ∈ m.initialSteps d) : s.IsPlain := by
  unfold initialSteps at h
  split at h
  · split at h
    · split at h <;> obtain rfl := List.mem_singleton.mp h <;> exact ⟨rfl, rfl⟩
    · cases h
  · split at h
    · obtain rfl := List.mem_singleton.mp h
      exact ⟨rfl, rfl⟩
    · cases h
  · cases h

theorem initBody_isPlain {s : Statement}
    (h : s ∈ (m.initializationOrder.filterMap (m.derived[·]?)).flatMap m.initialSteps) : s.IsPlain := by
  obtain ⟨d, -, hs⟩ := List.mem_flatMap.mp h
  exact initialSteps_isPlain d hs

/-- What bounds the parameters and locals of a method, and says which hooks it calls. -/
structure Modest (m : ClassModel) (signature : MethodSignature) (body : List Statement) : Prop where
  params : signature.params.length ≤ 1
  locals : localCountAll body ≤ max 3 m.localeObjects.length
  hooks : ∀ hook ∈ hooksAll body, ∃ p ∈ m.mutableProperties,
    hook ∈ [Naming.changingHook p.name, Naming.changedHook p.name]

theorem HasMethod.modest {signature : MethodSignature} {body : List Statement} (h : m.HasMethod signature body) :
    m.Modest signature body := by
  cases h with
  | raiseAndSet p mem =>
    refine ⟨Nat.le_refl _, ?_, fun hook hhook => ⟨p, mem, ?_⟩⟩
    · rw [localCountAll_raiseAndSetBody]
      omega
    · rwa [hooksAll_raiseAndSetBody] at hhook
  | mutableGetter p mem => exact ⟨Nat.zero_le _, Nat.zero_le _, fun _ h => nomatch h⟩
  | mutableSetter p mem => exact ⟨Nat.le_refl _, Nat.zero_le _, fun _ h => nomatch h⟩
  | derivedGetter d mem value computed =>
    have hplain : localCountAll (getterBody d value) = 0 ∧ hooksAll (getterBody d value) = [] := by
      unfold getterBody
      repeat' split
      all_goals exact ⟨rfl, rfl⟩
    refine ⟨Nat.zero_le _, by omega, fun hook hhook => ?_⟩
    rw [hplain.2] at hhook
    cases hhook
  | recompute d mem slot cached value computed own =>
    have hplain : localCountAll (recomputeBody d slot value) = 1 ∧ hooksAll (recomputeBody d slot value) = [] := by
      unfold recomputeBody
      cases slot.flag <;> exact ⟨rfl, rfl⟩
    refine ⟨Nat.zero_le _, by omega, fun hook hhook => ?_⟩
    rw [hplain.2] at hhook
    cases hhook
  | commandGetter c mem => exact ⟨Nat.zero_le _, Nat.zero_le _, fun _ h => nomatch h⟩
  | init =>
    refine ⟨Nat.zero_le _, ?_, fun hook hhook => ?_⟩
    · rw [initBody, localCountAll_append, localCountAll_plain fun s hs => initBody_isPlain hs,
        localCountAll_registrations]
      omega
    · rw [initBody, hooksAll_append, hooksAll_plain fun s hs => initBody_isPlain hs, hooksAll_registrations] at hhook
      cases hhook

end ClassModel

/-! ### Methods of statements -/

/-- The class declares a method of the name, and has a body for it. -/
def ClassDecl.implements (c : ClassDecl) (name : String) : Bool :=
  c.members.any fun m => m.name == name && (m.method?.map (·.body.isSome)).getD false

/-- The methods that a module adds to the instance or replaces, in order. -/
def PatchModule.methods (m : PatchModule) : List CompiledMethod := m.edits.filterMap PatchEdit.instanceMethod?

theorem isHookName_hooks {property hook : String}
    (h : hook ∈ [Naming.changingHook property, Naming.changedHook property]) : isHookName hook = true := by
  have hprefix (rest : String) : "On".toList.isPrefixOf ("On" ++ property ++ rest).toList = true := by
    rw [List.isPrefixOf_iff_prefix, String.append_assoc, String.toList_append]
    exact List.prefix_append _ _
  have hsuffix (rest : String) : rest.toList.isSuffixOf ("On" ++ property ++ rest).toList = true := by
    rw [List.isSuffixOf_iff_suffix, String.toList_append]
    exact List.suffix_append _ _
  simp only [List.mem_cons, List.not_mem_nil, or_false] at h
  rcases h with rfl | rfl
  · simp only [isHookName, Naming.changingHook, hprefix, hsuffix, Bool.true_or, Bool.and_self]
  · simp only [isHookName, Naming.changedHook, hprefix, hsuffix, Bool.or_true, Bool.and_self]

/-- Of change hooks a model knows those that the class implements. -/
theorem declaresHook_eq {s : DeclarationSet} {c : ClassDecl} {model : ClassModel}
    (h : (s.analyzeClass c).1 = some model) {property hook : String}
    (hhook : hook ∈ [Naming.changingHook property, Naming.changedHook property]) :
    model.declaresHook hook = c.implements hook := by
  have hdeclared : model.declaredHooks = declaredHooks c := by
    unfold DeclarationSet.analyzeClass at h
    split at h
    · cases h
    · split at h
      · cases h
      · cases h
        rfl
  have hname := isHookName_hooks hhook
  rw [Bool.eq_iff_iff, ClassModel.declaresHook, List.contains_iff_mem, hdeclared, ClassDecl.implements,
    List.any_eq_true]
  simp only [declaredHooks, List.mem_map, List.mem_filter, Bool.and_eq_true, beq_iff_eq]
  constructor
  · rintro ⟨member, ⟨hmem, hbody, -⟩, rfl⟩
    exact ⟨member, hmem, rfl, hbody⟩
  · rintro ⟨member, hmem, rfl, hbody⟩
    exact ⟨member, ⟨hmem, hbody, hname⟩, rfl⟩

theorem ofStatements_eq_ok {hooks : List String} {signature : MethodSignature} {body : List Statement}
    {method : CompiledMethod} (h : CompiledMethod.ofStatements hooks signature body = .ok method) :
    ∃ b, Build.statements hooks (signature.params.map Prod.fst) body
        (.start signature.name (UInt16.ofNat signature.params.length)) = .ok () b ∧
      (if b.endsInReturn then b else b.push .retVoid).build = .ok method := by
  unfold CompiledMethod.ofStatements at h
  cases hbody : Build.statements hooks (signature.params.map Prod.fst) body
      (.start signature.name (UInt16.ofNat signature.params.length)) with
  | error e b =>
    rw [hbody] at h
    cases h
  | ok _ b =>
    rw [hbody] at h
    exact ⟨b, rfl, h⟩

/-- The return at the end of a method leaves its name and its number of parameters as they are. -/
theorem name_of_build {b : MethodBuilder} {method : CompiledMethod}
    (h : (if b.endsInReturn then b else b.push .retVoid).build = .ok method) :
    method.name = b.name ∧ method.paramCount = b.paramCount := by
  obtain ⟨hname, hcount, -⟩ := build_eq_ok h
  split at hname
  · rw [if_pos ‹_›] at hcount
    exact ⟨hname, hcount⟩
  · rw [if_neg ‹_›] at hcount
    exact ⟨hname, hcount⟩

namespace Run

open Build

variable {enter : Enter} {a : Activation}

/-- The method of statements does what their interpretation does. -/
theorem simulates_ofStatements {hooks : List String} {signature : MethodSignature} {body : List Statement}
    (h : CompiledMethod.ofStatements hooks signature body = .ok a.method) (hsize : a.method.code.length < UInt64.size)
    (hlocals : Statement.localCountAll body < UInt16.size) (hparams : signature.params.length < UInt16.size) :
    Simulates enter a (.start a.method)
      (interpretBody enter a (hooks.contains ·) (signature.params.map Prod.fst) body) .returned := by
  obtain ⟨b, hbody, hbuild⟩ := ofStatements_eq_ok h
  have hgrows := grows_statements body hbody
  -- The last stage of the method: a return is added unless one stands there.
  obtain ⟨built, hbuilt, hlast⟩ : ∃ built, (if b.endsInReturn then b else b.push .retVoid) = built ∧
      b.Grows 0 built := by
    split
    · exact ⟨_, rfl, .refl b⟩
    · exact ⟨_, rfl, grows_push b _⟩
  rw [hbuilt] at hbuild
  have hall := hgrows.trans hlast
  have hfew : built.locals.length < UInt16.size := by
    have hle : built.locals.length ≤ 0 + (Statement.localCountAll body + 0) := hall.few
    omega
  have hnumbered : built.Numbered := ⟨hall.nodup List.nodup_nil, hfew⟩
  have hlength := length_of_build hbuild
  have hB : Built built a.method := by
    have hpaid : built.labels.length + 0 ≤ 0 + built.code.length := hall.paid
    exact ⟨hbuild, by omega, by omega⟩
  have hstart : Frame.start a.method = ⟨0, [], localsOf built []⟩ := by
    have hnull : localsOf built [] = List.replicate built.locals.length .null := List.map_const' ..
    rw [Frame.start, (build_eq_ok hbuild).2.2.1, UInt16.toNat_ofNat_of_lt' hfew, hnull]
  rw [hstart]
  have hrun : Simulates enter a _ (interpretAll enter a (hooks.contains ·) (signature.params.map Prod.fst) [] body) _ :=
    performs_statements hB hnumbered (by rwa [List.length_map]) body hbody hlast.extends []
  refine hrun.bind ?_ ?_
  · rintro (names | v) f' - ⟨⟩
    by_cases hend : b.endsInReturn = true
    · rw [if_pos hend] at hbuilt
      refine .off_end (List.getElem?_eq_none ?_) _ rfl
      rw [hlength, ← hbuilt]
      exact Nat.le_refl _
    · rw [if_neg hend] at hbuilt
      have hext : (b.push .retVoid).Extends built := by
        rw [hbuilt]
        exact Extends.refl built
      exact .return_ (fetched hbuild hext rfl) rfl _ rfl
  · rintro (names | v) w ⟨⟩
    exact ⟨_, rfl, rfl⟩

end Run

/-! ### The methods of a module -/

theorem editsOf_ofModel {model : ClassModel} {module : PatchModule} (h : PatchModule.ofModel model = .ok module) :
    ∃ hooks : List String,
      (∀ p ∈ model.mutableProperties, ∀ hook ∈ [Naming.changingHook p.name, Naming.changedHook p.name],
        hooks.contains hook = model.declaresHook hook) ∧
      ∃ ess, List.Forall₂ (Assembly.EditsOf hooks) model.generatedMembers ess ∧
        module = .ofEdits model.header.name ess.flatten := by
  obtain ⟨a, hall, rfl⟩ := Assembly.ofModel_eq_ok h
  rw [ClassModel.generatedMembers_eq] at hall ⊢
  obtain ⟨a₁, hdecl, hacc⟩ := Assembly.addAll_append_eq_ok.mp hall
  obtain ⟨ess, hess, hforall⟩ := Assembly.editsOf_addAll_of_not_method a₁.hooks (fun member hmem => by
    obtain ⟨_, rfl⟩ | ⟨_, _, rfl⟩ | ⟨_, _, _, _, rfl⟩ := ClassModel.mem_declarations hmem <;> rfl) hdecl
  obtain ⟨ess', hess', hforall'⟩ := Assembly.editsOf_addAll (fun member hmem => by
    obtain (⟨_, rfl, _⟩ | ⟨_, rfl⟩) | ⟨_, _, rfl⟩ | ⟨_, _, rfl, _⟩ := ClassModel.mem_accessors hmem <;> rfl) hacc
  have hhooks := Assembly.hooks_addAll hdecl
  refine ⟨a₁.hooks, fun p hp hook hhook => ?_, ess ++ ess', List.rel_append hforall hforall', ?_⟩
  · rw [Bool.eq_iff_iff, List.contains_iff_mem, hhooks, List.mem_append, List.mem_reverse, List.mem_filterMap]
    constructor
    · rintro (⟨member, hmem, himpl⟩ | hmem)
      swap
      · cases hmem
      obtain ⟨_, rfl⟩ | ⟨_, _, rfl⟩ | ⟨q, _, hook', _, rfl⟩ := ClassModel.mem_declarations hmem
      · cases himpl
      · cases himpl
      · obtain ⟨hdecl, rfl⟩ : model.declaresHook hook' = true ∧ hook' = hook := by
          simpa [GeneratedMember.implementedHook?] using himpl
        exact hdecl
    · intro hdeclares
      refine Or.inl ⟨.hook ⟨hook, p.type, model.declaresHook hook⟩, ?_, ?_⟩
      · simp only [ClassModel.declarations, List.mem_append, List.mem_flatMap]
        exact Or.inr ⟨p, hp, List.mem_map.mpr ⟨hook, hhook, rfl⟩⟩
      · rw [GeneratedMember.implementedHook?, if_pos hdeclares]
  · rw [hess', hess, List.flatten_append]
    rfl

theorem forall₂_ofModel {model : ClassModel} {module : PatchModule} (h : PatchModule.ofModel model = .ok module) :
    ∃ hooks : List String,
      (∀ p ∈ model.mutableProperties, ∀ hook ∈ [Naming.changingHook p.name, Naming.changedHook p.name],
        hooks.contains hook = model.declaresHook hook) ∧
      List.Forall₂ (fun method m => CompiledMethod.ofStatements hooks method.1 method.2 = .ok m)
        model.methods module.methods := by
  obtain ⟨hooks, hhooks, ess, hforall, rfl⟩ := editsOf_ofModel h
  exact ⟨hooks, hhooks, Assembly.forall₂_methods hforall⟩

/-- A compiled method does what a generated one says, the hooks that `declares` says being declared. -/
structure Realizes (declares : String → Bool) (signature : MethodSignature) (body : List Statement)
    (m : CompiledMethod) : Prop where
  name : m.name = signature.name
  paramCount : m.paramCount.toNat = signature.params.length
  simulates : ∀ (enter : Enter) (receiver : Nat) (args : List Value) (refreshing : List Nat),
    Run.Simulates enter ⟨m, receiver, args, refreshing⟩ (.start m) (Run.interpretBody enter ⟨m, receiver, args, refreshing⟩
      declares (signature.params.map Prod.fst) body) .returned

/-- The method of the statements of a generated method realizes it, unless it has too many locals. -/
theorem realizes_ofStatements {c : ClassDecl} {model : ClassModel} {hooks : List String}
    (hhooks : ∀ p ∈ model.mutableProperties, ∀ hook ∈ [Naming.changingHook p.name, Naming.changedHook p.name],
      hooks.contains hook = c.implements hook)
    {signature : MethodSignature} {body : List Statement} (hmethod : model.HasMethod signature body)
    {m : CompiledMethod} (h : CompiledMethod.ofStatements hooks signature body = .ok m)
    (hsize : m.code.length < UInt64.size) (hlocals : Statement.localCountAll body < UInt16.size) :
    Realizes c.implements signature body m := by
  have hmodest := hmethod.modest
  have hparams : signature.params.length < UInt16.size := Nat.lt_of_le_of_lt hmodest.params (by decide)
  obtain ⟨b, hbody, hbuild⟩ := ofStatements_eq_ok h
  obtain ⟨hname, hcount⟩ := name_of_build hbuild
  have hgrows := Build.grows_statements body hbody
  refine ⟨hname.trans hgrows.name, ?_, fun enter receiver args refreshing => ?_⟩
  · rw [hcount, hgrows.paramCount]
    exact UInt16.toNat_ofNat_of_lt' hparams
  · have hrun : Run.Simulates enter ⟨m, receiver, args, refreshing⟩ (.start m) _ .returned :=
      Run.simulates_ofStatements (a := ⟨m, receiver, args, refreshing⟩) h hsize hlocals hparams
    have hcongr : ∀ hook ∈ Statement.hooksAll body, hooks.contains hook = c.implements hook := by
      intro hook hhook
      obtain ⟨p, hp, hpair⟩ := hmodest.hooks hook hhook
      exact hhooks p hp hook hpair
    unfold Run.interpretBody at hrun ⊢
    rwa [Run.interpretAll_congr body hcongr] at hrun

/-- **Generated methods are lowered correctly.**  Let a class have a model with fewer than 65536 locale objects, and let
the model have a patch module, the places of whose instructions are machine words.  Then the methods that the module
adds or replaces are the methods that are generated for the class, in order.  Each does on every object of every
machine, with any arguments and any way to enter the methods it calls, what the interpretation of its statements does:
it gives the same value and leaves the machine in the same state, or it fails with the same error in the same state.
More instructions than it has are enough for it. -/
theorem generated_methods_correct {s : DeclarationSet} {c : ClassDecl} {model : ClassModel}
    (hmodel : (s.analyzeClass c).1 = some model) (hlocale : model.localeObjects.length < 65536) {module : PatchModule}
    (hmodule : PatchModule.ofModel model = .ok module) (hsize : ∀ m ∈ module.methods, m.code.length < UInt64.size) :
    List.Forall₂ (fun method m => m.name = method.1.name ∧ m.paramCount.toNat = method.1.params.length ∧
        ∀ (enter : Enter) (receiver : Nat) (args : List Value) (refreshing : List Nat) (fuel : Nat),
          m.code.length < fuel → Run.body enter ⟨m, receiver, args, refreshing⟩ fuel (.start m) =
            Run.interpretBody enter ⟨m, receiver, args, refreshing⟩ c.implements (method.1.params.map Prod.fst) method.2)
      model.methods module.methods := by
  obtain ⟨hooks, hhooks, hmethods⟩ := forall₂_ofModel hmodule
  obtain ⟨hlen, hzip⟩ := List.forall₂_iff_zip.mp hmethods
  refine List.forall₂_iff_zip.mpr ⟨hlen, fun {method m} hpair => ?_⟩
  obtain ⟨signature, body⟩ := method
  obtain ⟨hmem, hm⟩ := List.of_mem_zip hpair
  have hmethod := ClassModel.hasMethod_of_mem hmem
  have hlocals : Statement.localCountAll body < UInt16.size := by
    have hmax := hmethod.modest.locals
    have hsize16 : UInt16.size = 65536 := rfl
    omega
  have hrealizes := realizes_ofStatements (c := c)
    (fun p hp hook hhook => (hhooks p hp hook hhook).trans (declaresHook_eq hmodel hhook)) hmethod (hzip hpair)
    (hsize m hm) hlocals
  refine ⟨hrealizes.name, hrealizes.paramCount, fun enter receiver args refreshing fuel hfuel => ?_⟩
  exact Run.body_of_simulates (hrealizes.simulates enter receiver args refreshing) hfuel

/-- A room with a target temperature, which is warm if that is above twenty. -/
def room : ClassDecl where
  name := "Room"
  typeParams := []
  modifiers := [.partial_]
  bases := [⟨"IReactiveObject", [], false⟩]
  members :=
    [⟨"Target", [⟨"Reactive", [], .none⟩], [],
        .property ⟨⟨"int", [], false⟩, some ⟨none, .none⟩, some ⟨none, .none⟩, none⟩, .none, .none⟩,
      ⟨"Warm", [⟨"Derived", [⟨none, .string "Target", .none⟩], .none⟩], [],
        .property ⟨boolType, some ⟨some (.binary .greater (.name "Target" .none) (.literal (.int 20) .none) .none), .none⟩,
          none, none⟩, .none, .none⟩]
  nameSpan := .none
  span := .none

/-- The file that declares a room and nothing else. -/
def roomFile : DeclarationSet := ⟨"", "", ⟨[], none, [room]⟩, default⟩

/-- The six methods of a room are lowered correctly. -/
theorem generated_methods_correct_room : ∃ model module, (roomFile.analyzeClass room).1 = some model ∧
    PatchModule.ofModel model = .ok module ∧ model.methods.length = 6 ∧
      List.Forall₂ (fun method m => m.name = method.1.name ∧ m.paramCount.toNat = method.1.params.length ∧
          ∀ (enter : Enter) (receiver : Nat) (args : List Value) (refreshing : List Nat) (fuel : Nat),
            m.code.length < fuel → Run.body enter ⟨m, receiver, args, refreshing⟩ fuel (.start m) =
              Run.interpretBody enter ⟨m, receiver, args, refreshing⟩ room.implements (method.1.params.map Prod.fst)
                method.2)
        model.methods module.methods := by
  obtain ⟨model, hmodel⟩ := Option.isSome_iff_exists.mp
    (show (roomFile.analyzeClass room).1.isSome = true by decide +kernel)
  have hfacts : ((roomFile.analyzeClass room).1.any fun model =>
      decide (model.localeObjects.length < 65536) && decide (model.methods.length = 6) &&
        match PatchModule.ofModel model with
        | .ok module => module.methods.all fun m => decide (m.code.length < UInt64.size)
        | .error _ => false) = true := by decide +kernel
  rw [hmodel, Option.any_some, Bool.and_eq_true, Bool.and_eq_true, decide_eq_true_eq, decide_eq_true_eq] at hfacts
  obtain ⟨⟨hlocale, hlength⟩, hfacts⟩ := hfacts
  cases hmodule : PatchModule.ofModel model with
  | error e =>
    rw [hmodule] at hfacts
    cases hfacts
  | ok module =>
    rw [hmodule] at hfacts
    have hsize : ∀ m ∈ module.methods, m.code.length < UInt64.size := fun m hm =>
      of_decide_eq_true (List.all_eq_true.mp hfacts m hm)
    exact ⟨model, module, hmodel, hmodule, hlength, generated_methods_correct hmodel hlocale hmodule hsize⟩

end Reactive
