import Reactive.Proofs.Fitting
import Reactive.Proofs.Generated

/-!
# Reactive.Proofs.Outline — what the edits of a module name

A module is put together member by member.  Whether the accessor of a property is new or replaces a declared one depends
on the last property of the name that has been announced; a property is announced right before its accessors.

* `Assembly.methodEntries`: the methods of members, and whether they are new.
* `ClassModel.enters_generatedMembers`: the methods that are generated for a class, and whether they are new.
* `ClassModel.addedProperties`: the properties that are generated for a class and not declared.
-/

namespace Reactive

open Stateful

namespace GeneratedMember

/-- The name of the property that is added. -/
def addedProperty? : GeneratedMember → Option String
  | .property signature => if signature.synthesized then some signature.name else none
  | _ => none

/-- The property whose initial value is redirected. -/
def redirected? : GeneratedMember → Option String
  | .redirect name _ => some name
  | _ => none

end GeneratedMember

namespace Assembly

/-- The properties that members add. -/
theorem filterMap_property_flatten {hooks : List String} {members : List GeneratedMember} {ess : List (List PatchEdit)}
    (h : List.Forall₂ (EditsOf hooks) members ess) :
    ess.flatten.filterMap PatchEdit.property? = members.filterMap GeneratedMember.addedProperty? := by
  refine filterMap_flatten (fun member es hmember => ?_) h
  cases hmember with
  | property signature =>
    rw [GeneratedMember.addedProperty?]
    cases signature.synthesized <;> rfl
  | field | function | hook | added | replaced | redirect => rfl

/-- The properties whose initial values members redirect. -/
theorem filterMap_redirected_flatten {hooks : List String} {members : List GeneratedMember}
    {ess : List (List PatchEdit)} (h : List.Forall₂ (EditsOf hooks) members ess) :
    ess.flatten.filterMap PatchEdit.redirected? = members.filterMap GeneratedMember.redirected? := by
  refine filterMap_flatten (fun member es hmember => ?_) h
  cases hmember with
  | property signature => cases signature.synthesized <;> rfl
  | field | function | hook | added | replaced | redirect => rfl

/-! ### Methods -/

/-- A method is new unless it is an accessor of a property that has been announced as declared. -/
def isNew (announced : List PropertySignature) : MethodKind → Bool
  | .getter p | .setter p => !(Assembly.mk none [] [] announced none).declares p
  | _ => true

/-- The methods of members, and whether they are new when some properties have been announced. -/
def methodEntries : List PropertySignature → List GeneratedMember → List (Bool × String)
  | _, [] => []
  | announced, .property signature :: rest => methodEntries (signature :: announced) rest
  | announced, .method signature _ :: rest =>
    (isNew announced signature.kind, signature.name) :: methodEntries announced rest
  | announced, .field _ :: rest | announced, .function _ :: rest | announced, .hook _ :: rest
  | announced, .redirect .. :: rest => methodEntries announced rest

/-- The edit of a method names it, and tells whether it is new. -/
theorem writtenMethod_methodEdit (a : Assembly) (kind : MethodKind) (m : CompiledMethod) :
    (a.methodEdit kind m).writtenMethod? = some (isNew a.properties kind, m.name) := by
  have haccessor (p : String) : (if a.declares p then PatchEdit.replaceBody m else .addMethod m).writtenMethod? =
      some (!a.declares p, m.name) := by
    cases a.declares p <;> rfl
  cases kind with
  | getter p | setter p => exact haccessor p
  | raiseAndSet | recompute | commandGetter | init => rfl

/-- The edits of members name their methods. -/
theorem filterMap_writtenMethod_addAll : ∀ {members : List GeneratedMember} {a a' : Assembly},
    a.addAll members = .ok a' → a'.edits.filterMap PatchEdit.writtenMethod? =
      a.edits.filterMap PatchEdit.writtenMethod? ++ methodEntries a.properties members
  | [], a, a', h => by
    cases h
    rw [methodEntries, List.append_nil]
  | member :: rest, a, a', h => by
    obtain ⟨a₁, h₁, h⟩ := addAll_cons_eq_ok.mp h
    rw [filterMap_writtenMethod_addAll h]
    cases member with
    | method signature body =>
      unfold addMember at h₁
      dsimp only at h₁
      cases hmethod : CompiledMethod.ofStatements a.hooks signature body with
      | error e =>
        rw [hmethod] at h₁
        cases h₁
      | ok m =>
        rw [hmethod] at h₁
        cases h₁
        rw [List.filterMap_append, List.filterMap_cons_some (writtenMethod_methodEdit a signature.kind m),
          methodEntries, name_ofStatements hmethod, List.append_assoc]
        rfl
    | function decl =>
      unfold addMember at h₁
      dsimp only at h₁
      cases hbody : CompiledMethod.ofBody decl.name (.detached [decl.param]) decl.body with
      | error e =>
        rw [hbody] at h₁
        cases h₁
      | ok m =>
        rw [hbody] at h₁
        cases h₁
        rw [List.filterMap_append, methodEntries]
        exact congrArg (· ++ _) (List.append_nil _)
    | hook decl =>
      cases h₁
      rfl
    | property signature =>
      cases h₁
      rw [List.filterMap_append, methodEntries]
      refine congrArg (· ++ _) ?_
      cases signature.synthesized <;> exact List.append_nil _
    | field decl | redirect property setter =>
      cases h₁
      rw [List.filterMap_append, methodEntries]
      exact congrArg (· ++ _) (List.append_nil _)

/-- The methods of members, whatever has been announced before. -/
def Enters (members : List GeneratedMember) (entries : List (Bool × String)) : Prop :=
  ∀ announced, methodEntries announced members = entries

theorem methodEntries_append : ∀ (members rest : List GeneratedMember) (announced : List PropertySignature),
    ∃ announced', methodEntries announced (members ++ rest) =
      methodEntries announced members ++ methodEntries announced' rest
  | [], rest, announced => ⟨announced, rfl⟩
  | member :: members, rest, announced => by
    cases member with
    | property signature =>
      obtain ⟨announced', h⟩ := methodEntries_append members rest (signature :: announced)
      exact ⟨announced', h⟩
    | method signature body =>
      obtain ⟨announced', h⟩ := methodEntries_append members rest announced
      exact ⟨announced', congrArg _ h⟩
    | field | function | hook | redirect =>
      obtain ⟨announced', h⟩ := methodEntries_append members rest announced
      exact ⟨announced', h⟩

variable {members rest : List GeneratedMember} {entries entries' : List (Bool × String)}

theorem Enters.append (h : Enters members entries) (h' : Enters rest entries') :
    Enters (members ++ rest) (entries ++ entries') := by
  intro announced
  obtain ⟨announced', hsplit⟩ := methodEntries_append members rest announced
  rw [hsplit, h announced, h' announced']

theorem Enters.flatMap {α : Type} {f : α → List GeneratedMember} {g : α → List (Bool × String)}
    (h : ∀ x, Enters (f x) (g x)) : ∀ xs : List α, Enters (xs.flatMap f) (xs.flatMap g)
  | [] => fun _ => rfl
  | x :: xs => by
    rw [List.flatMap_cons, List.flatMap_cons]
    exact (h x).append (Enters.flatMap h xs)

theorem Enters.map {α : Type} {f : α → GeneratedMember} {g : α → List (Bool × String)} (h : ∀ x, Enters [f x] (g x))
    (xs : List α) : Enters (xs.map f) (xs.flatMap g) := by
  have hflat := Enters.flatMap h xs
  rwa [← List.map_eq_flatMap] at hflat

theorem Enters.filterMap {α : Type} {f : α → Option GeneratedMember} {g : α → List (Bool × String)}
    (h : ∀ x, Enters (f x).toList (g x)) : ∀ xs : List α, Enters (xs.filterMap f) (xs.flatMap g)
  | [] => fun _ => rfl
  | x :: xs => by
    rw [filterMap_cons_toList, List.flatMap_cons]
    exact (h x).append (Enters.filterMap h xs)

/-- Members that are no methods. -/
theorem enters_nil : ∀ {members : List GeneratedMember}, (∀ member ∈ members, member.method? = none) → Enters members []
  | [], _ => fun _ => rfl
  | member :: members, h => by
    have hrest := enters_nil fun x hx => h x (List.mem_cons_of_mem _ hx)
    intro announced
    cases member with
    | property signature => exact hrest (signature :: announced)
    | method signature body => cases h _ List.mem_cons_self
    | field | function | hook | redirect => exact hrest announced

theorem enters_method (signature : MethodSignature) (body : List Statement)
    (hkind : ∀ announced, isNew announced signature.kind = true) :
    Enters [.method signature body] [(true, signature.name)] := by
  intro announced
  rw [methodEntries, hkind]
  rfl

/-- What has been announced last of a property tells whether its accessors are new. -/
theorem isNew_announced (signature : PropertySignature) (announced : List PropertySignature) :
    isNew (signature :: announced) (.getter signature.name) = signature.synthesized ∧
      isNew (signature :: announced) (.setter signature.name) = signature.synthesized := by
  have hdeclares : (Assembly.mk none [] [] (signature :: announced) none).declares signature.name =
      !signature.synthesized := by
    unfold declares
    simp only [List.find?_cons_of_pos, beq_self_eq_true]
  constructor
  · rw [isNew, hdeclares, Bool.not_not]
  · rw [isNew, hdeclares, Bool.not_not]

end Assembly

namespace DerivedProperty

/-- A method recomputes the value. -/
def isRecomputed (d : DerivedProperty) : Bool := (d.slot.isSome && d.recompute.isSome) && !d.isObservable

end DerivedProperty

namespace ClassModel

open Assembly

variable (m : ClassModel)

/-- The property of a derived value is added; it is not declared. -/
def exposes (d : DerivedProperty) : Bool := ((m.members[d.property]?).map (·.synthesized)).getD false

/-- The properties that are generated for a class and not declared. -/
def addedProperties : List String :=
  (m.derived.filter fun d => d.recompute.isSome && m.exposes d).map DerivedProperty.name ++ m.commands.map (·.property)

/-- The methods that are generated for a class, and whether they are new. -/
def methodOutline : List (Bool × String) :=
  m.mutableProperties.flatMap (fun p => [(true, Naming.raiseAndSet p.name)])
    ++ m.mutableProperties.flatMap (fun p => [(false, Naming.getter p.name), (false, Naming.setter p.name)])
    ++ m.derived.flatMap (fun d => if d.recompute.isSome then [(m.exposes d, Naming.getter d.name)] else [])
    ++ m.derived.flatMap (fun d => if d.isRecomputed then [(true, Naming.recompute d.name)] else [])
    ++ m.commands.flatMap (fun k => [(true, Naming.getter k.property)])
    ++ [(true, m.initMethod)]

theorem operand?_eq_none {d : DerivedProperty} : m.operand? d = none ↔ d.recompute.isSome = false := by
  rw [operand?, Option.map_eq_none_iff, ← Option.not_isSome_iff_eq_none, Bool.not_eq_true]

theorem isSome_of_operand? {d : DerivedProperty} {value : Operand} (h : m.operand? d = some value) :
    d.recompute.isSome = true := by
  obtain ⟨r, hr, -⟩ := Option.map_eq_some_iff.mp h
  rw [hr]
  rfl

theorem enters_mutableAccessors (p : MutableProperty) :
    Enters (m.mutableAccessors p) [(false, Naming.getter p.name), (false, Naming.setter p.name)] := by
  intro announced
  -- The property has just been announced as a declared one.
  obtain ⟨hgetter, hsetter⟩ := isNew_announced
    ⟨p.name, p.type, m.members[p.id]?.bind PropertyInfo.accessibility, false, true⟩ announced
  have hentries :=
    congrArg₂ (fun new new' => [(new, Naming.getter p.name), (new', Naming.setter p.name)]) hgetter hsetter
  unfold mutableAccessors
  cases p.initializer.isSome <;> exact hentries

theorem enters_derivedAccessors (d : DerivedProperty) :
    Enters (m.derivedAccessors d) (if d.recompute.isSome then [(m.exposes d, Naming.getter d.name)] else []) := by
  intro announced
  unfold derivedAccessors
  split
  · rename_i hnone
    rw [(m.operand?_eq_none).mp hnone]
    rfl
  · rename_i value hvalue
    have hsome := m.isSome_of_operand? hvalue
    rw [if_pos hsome]
    have hgetter := (isNew_announced
      ⟨d.name, d.type, (m.members[d.property]?).bind PropertyInfo.accessibility, m.exposes d, false⟩ announced).1
    exact congrArg (fun new => [(new, Naming.getter d.name)]) hgetter

theorem enters_recomputer (d : DerivedProperty) :
    Enters (m.recomputer? d).toList (if d.isRecomputed then [(true, Naming.recompute d.name)] else []) := by
  unfold recomputer? DerivedProperty.isRecomputed
  split
  · rename_i slot value hslot hvalue
    have hsome := m.isSome_of_operand? hvalue
    rw [hslot, hsome]
    cases d.isObservable with
    | true => exact fun _ => rfl
    | false => exact enters_method _ _ fun _ => rfl
  · rename_i hnone
    have hno : ¬ (d.slot.isSome && d.recompute.isSome) = true := by
      intro hboth
      rw [Bool.and_eq_true, Option.isSome_iff_exists, Option.isSome_iff_exists] at hboth
      obtain ⟨⟨slot, hslot⟩, r, hr⟩ := hboth
      exact hnone slot _ hslot (by rw [operand?, hr]; rfl)
    rw [Bool.eq_false_iff.mpr hno]
    exact fun _ => rfl

/-- The methods that are generated for a class. -/
theorem enters_generatedMembers : Enters m.generatedMembers m.methodOutline := by
  rw [generatedMembers_eq]
  have hdeclarations : Enters m.declarations [] := enters_nil fun member hmem => by
    obtain ⟨_, rfl⟩ | ⟨_, _, rfl⟩ | ⟨_, _, _, _, rfl⟩ := mem_declarations hmem <;> rfl
  have hstore (p : MutableProperty) : Enters [m.raiseAndSet p] [(true, Naming.raiseAndSet p.name)] :=
    enters_method _ _ fun _ => rfl
  have hcommand (k : CommandModel) : Enters (commandMembers k) [(true, Naming.getter k.property)] := fun _ => rfl
  have hinit := enters_method ⟨m.initMethod, .init m.derivesExtensibleBase, [], none⟩ m.initBody fun _ => rfl
  exact hdeclarations.append ((((((Enters.map hstore _).append (Enters.flatMap m.enters_mutableAccessors _)).append
    (Enters.flatMap m.enters_derivedAccessors _)).append (Enters.filterMap m.enters_recomputer _)).append
      (Enters.flatMap hcommand _)).append hinit)

theorem filterMap_derivedAccessors (d : DerivedProperty) :
    (m.derivedAccessors d).filterMap GeneratedMember.addedProperty? =
      if d.recompute.isSome && m.exposes d then [d.name] else [] := by
  unfold derivedAccessors
  split
  · rename_i hnone
    rw [(m.operand?_eq_none).mp hnone]
    rfl
  · rename_i value hvalue
    have hsome := m.isSome_of_operand? hvalue
    rw [hsome, Bool.true_and]
    cases hexposes : m.exposes d with
    | true => exact List.filterMap_cons_some (by rw [GeneratedMember.addedProperty?]; exact if_pos hexposes)
    | false =>
      refine List.filterMap_cons_none ?_
      rw [GeneratedMember.addedProperty?]
      exact if_neg (Bool.eq_false_iff.mp hexposes)

/-- The properties that are generated for a class and not declared. -/
theorem filterMap_addedProperty : m.generatedMembers.filterMap GeneratedMember.addedProperty? = m.addedProperties := by
  have hnone (members : List GeneratedMember) (h : ∀ member ∈ members, member.addedProperty? = none) :
      members.filterMap GeneratedMember.addedProperty? = [] := List.filterMap_eq_nil_iff.mpr h
  have hdeclarations := hnone m.declarations fun member hmem => by
    obtain ⟨_, rfl⟩ | ⟨_, _, rfl⟩ | ⟨_, _, _, _, rfl⟩ := mem_declarations hmem <;> rfl
  have hstores := hnone (m.mutableProperties.map m.raiseAndSet) fun member hmem => by
    obtain ⟨p, -, rfl⟩ := List.mem_map.mp hmem
    rfl
  have hmutable := hnone (m.mutableProperties.flatMap m.mutableAccessors) fun member hmem => by
    obtain ⟨p, -, hmem⟩ := List.mem_flatMap.mp hmem
    simp only [mutableAccessors, List.mem_append, List.mem_cons, List.not_mem_nil, or_false] at hmem
    obtain (rfl | rfl | rfl) | hmem := hmem
    · rfl
    · rfl
    · rfl
    · split at hmem
      · rw [List.mem_singleton.mp hmem]
        rfl
      · cases hmem
  have hderived : ∀ ds : List DerivedProperty,
      (ds.flatMap m.derivedAccessors).filterMap GeneratedMember.addedProperty? = (ds.filter fun d => d.recompute.isSome && m.exposes d).map DerivedProperty.name := by
    intro ds
    induction ds with
    | nil => rfl
    | cons d ds ih =>
      rw [List.flatMap_cons, List.filterMap_append, ih, m.filterMap_derivedAccessors, List.filter_cons]
      split <;> rfl
  have hrecompute := hnone (m.derived.filterMap m.recomputer?) fun member hmem => by
    obtain ⟨d, -, hd⟩ := List.mem_filterMap.mp hmem
    unfold recomputer? at hd
    split at hd
    · split at hd
      · cases hd
      · cases hd
        rfl
    · cases hd
  have hcommands : ∀ ks : List CommandModel, (ks.flatMap commandMembers).filterMap GeneratedMember.addedProperty? =
      ks.map (·.property) := by
    intro ks
    induction ks with
    | nil => rfl
    | cons k ks ih =>
      rw [List.flatMap_cons, List.filterMap_append, ih]
      rfl
  have hinit : [m.initializer].filterMap GeneratedMember.addedProperty? = [] := rfl
  simp only [generatedMembers_eq, accessors, List.filterMap_append, hdeclarations, hstores, hmutable, hderived,
    hrecompute, hcommands, hinit, List.nil_append, List.append_nil]
  rfl

/-- Only the declared initial value of a reactive property is redirected, and it goes through the setter. -/
theorem mem_redirect {name setter : String} (hmem : .redirect name setter ∈ m.generatedMembers) :
    ∃ p ∈ m.mutableProperties, p.name = name ∧ setter = Naming.setter name ∧ p.initializer.isSome = true := by
  rw [generatedMembers_eq, List.mem_append] at hmem
  obtain hmem | hmem := hmem
  · obtain ⟨_, ⟨⟩⟩ | ⟨_, _, ⟨⟩⟩ | ⟨_, _, _, _, ⟨⟩⟩ := mem_declarations hmem
  · simp only [accessors, List.mem_append, List.mem_map, List.mem_flatMap, List.mem_filterMap,
      List.mem_singleton] at hmem
    rcases hmem with ((((⟨p, -, ⟨⟩⟩ | ⟨p, hp, hmem⟩) | ⟨d, -, hmem⟩) | ⟨d, -, hmem⟩) | ⟨k, -, hmem⟩) | ⟨⟨⟩⟩
    · simp only [mutableAccessors, List.mem_append, List.mem_cons, List.not_mem_nil, or_false] at hmem
      obtain (⟨⟨⟩⟩ | ⟨⟨⟩⟩ | ⟨⟨⟩⟩) | hmem := hmem
      split at hmem
      · rename_i hinitializer
        cases List.mem_singleton.mp hmem
        exact ⟨p, hp, rfl, rfl, hinitializer⟩
      · cases hmem
    · unfold derivedAccessors at hmem
      split at hmem
      · cases hmem
      · simp at hmem
    · unfold recomputer? at hmem
      split at hmem
      · split at hmem <;> cases hmem
      · cases hmem
    · simp [commandMembers] at hmem

theorem mem_redirected {name : String} (h : name ∈ m.generatedMembers.filterMap GeneratedMember.redirected?) :
    ∃ p ∈ m.mutableProperties, p.name = name ∧ p.initializer.isSome = true := by
  obtain ⟨member, hmem, hname⟩ := List.mem_filterMap.mp h
  obtain ⟨setter, rfl⟩ : ∃ setter, member = .redirect name setter := by
    cases member <;> cases hname
    exact ⟨_, rfl⟩
  obtain ⟨p, hp, hpname, -, hinitializer⟩ := m.mem_redirect hmem
  exact ⟨p, hp, hpname, hinitializer⟩

end ClassModel

end Reactive
