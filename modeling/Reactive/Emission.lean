import Reactive.Fragment

/-!
# Reactive.Emission — what is generated for a class

`ClassModel.generatedMembers` lists the members in their order: fields, hoisted functions and hooks; the methods that
store reactive properties; accessors; the methods that recompute cached values; commands; and the init method, which
computes the eager values, each behind those that it is computed from, and registers the locale objects.
-/

namespace Reactive

/-- The type of a command's argument or result if there is none. -/
def unitType : TypeRef := ⟨"System.Reactive.Unit", [], false⟩

/-- The type of truth values. -/
def boolType : TypeRef := ⟨"bool", [], false⟩

/-- The type of the helper behind an observable property. -/
def helperType (type : TypeRef) : TypeRef := ⟨"ReactiveUI.ObservableAsPropertyHelper", [type], false⟩

/-- The type of a command. -/
def CommandModel.type (c : CommandModel) : TypeRef :=
  ⟨"ReactiveUI.ReactiveCommand", [c.argumentType.getD unitType, c.returnType.getD unitType], false⟩

/-- How the command is constructed. -/
def CommandModel.factory (c : CommandModel) : CommandFactory :=
  ⟨c.method, c.argumentType, c.returnType, c.isAsync, c.enablement.map Enablement.name⟩

namespace ClassModel

variable (m : ClassModel)

/-- What a derived value is recomputed from. -/
def operand? (d : DerivedProperty) : Option Operand :=
  d.recompute.map fun
    | .inline body => .expression body
    | .hoisted id => .application ((m.statics[id]?.map (·.name)).getD "")
    | .method name => .method name

/-! ### Fields, functions and hooks -/

/-- The field of a reactive property. -/
def slotField (p : MutableProperty) : GeneratedMember := .field ⟨p.slot, p.type, .propertySlot, p.initializer⟩

/-- The fields of a cached value. -/
def cacheFields (d : DerivedProperty) : List GeneratedMember :=
  match d.slot with
  | none => []
  | some slot =>
    .field ⟨slot.value, if d.isObservable then helperType d.type else d.type, .derivedSlot, none⟩
      :: (slot.flag.map fun flag => .field ⟨flag, boolType, .lazyFlag, none⟩).toList

/-- The hooks before and behind a change. -/
def hooks (p : MutableProperty) : List GeneratedMember :=
  [Naming.changingHook p.name, Naming.changedHook p.name].map fun hook => .hook ⟨hook, p.type, m.declaresHook hook⟩

/-! ### Writing a reactive property -/

/-- The derived values that a write to a reactive property affects. -/
def affected (p : MutableProperty) : List DerivedProperty :=
  (m.propagation p.id).filterMap (m.derived[·]?)

/-- What follows for a derived value that a write affects: a cached one is recomputed, another announced. -/
def refresh (d : DerivedProperty) : Statement :=
  if d.cache.isCached then .callMethod (Naming.recompute d.name) false else .raiseChanged d.name

/-- The body of the method that stores a reactive property: unless nothing changes, the property and the values computed
at every read are announced, the value is stored, and everything that depends on it follows. -/
def raiseAndSetBody (p : MutableProperty) : List Statement :=
  (if p.skipsEqualityCheck then [] else [.returnIfUnchanged p.slot])
    ++ [.captureOld p.slot, .raiseChanging p.name, .callHook (Naming.changingHook p.name)]
    ++ ((m.affected p).filter (·.cache = .disabled)).map (fun d => .raiseChanging d.name)
    ++ [.storeValue p.slot, .raiseChanged p.name, .callHook (Naming.changedHook p.name)]
    ++ (m.affected p).map refresh

/-- The method that stores a reactive property. -/
def raiseAndSet (p : MutableProperty) : GeneratedMember :=
  .method ⟨Naming.raiseAndSet p.name, .raiseAndSet p.name, [("value", p.type)], none⟩ (m.raiseAndSetBody p)

/-! ### Accessors -/

/-- The accessors of a reactive property. -/
def mutableAccessors (p : MutableProperty) : List GeneratedMember :=
  [.property ⟨p.name, p.type, m.members[p.id]?.bind PropertyInfo.accessibility, false, true⟩,
    .method (.getter p.name p.type) [.ret (.slot p.slot)],
    .method (.setter p.name p.type) [.callMethod (Naming.raiseAndSet p.name) true]]
    ++ if p.initializer.isSome then [.redirect p.name (Naming.setter p.name)] else []

/-- The body of the getter of a derived value. -/
def getterBody (d : DerivedProperty) (value : Operand) : List Statement :=
  match d.slot with
  | none => [.ret value]
  | some slot =>
    if d.isObservable then [.ret (.helperValue slot.value d.type)]
    else
      (match d.cache, slot.flag with
        | .lazy, some flag => [.ifUnset flag [.store slot.value value, .store flag (.bool true)]]
        | _, _ => [])
        ++ [.ret (.slot slot.value)]

/-- The getter of a derived value; one that is not regenerated stays as it is declared. -/
def derivedAccessors (d : DerivedProperty) : List GeneratedMember :=
  match m.operand? d with
  | none => []
  | some value =>
    let info := m.members[d.property]?
    [.property ⟨d.name, d.type, info.bind PropertyInfo.accessibility, (info.map (·.synthesized)).getD false, false⟩,
      .method (.getter d.name d.type) (getterBody d value)]

/-! ### Recomputing cached values -/

/-- The body of the method that recomputes a cached value. -/
def recomputeBody (d : DerivedProperty) (slot : DerivedSlot) (value : Operand) : List Statement :=
  (slot.flag.map fun flag => .store flag (.bool true)).toList ++ [.setIfChanged slot.value value d.name]

/-- The method that recomputes a cached value; an observable helper does that by itself. -/
def recomputer? (d : DerivedProperty) : Option GeneratedMember :=
  match d.slot, m.operand? d with
  | some slot, some value =>
    if d.isObservable then none
    else some (.method ⟨Naming.recompute d.name, .recompute d.name, [], none⟩ (recomputeBody d slot value))
  | _, _ => none

/-! ### Commands and the init method -/

/-- The field, the property and the getter of a command. -/
def commandMembers (c : CommandModel) : List GeneratedMember :=
  [.field ⟨c.slot, c.type, .commandSlot, none⟩,
    .property ⟨c.property, c.type, some "public", true, false⟩,
    .method ⟨Naming.getter c.property, .commandGetter c.property, [], some c.type⟩
      [.returnCommand c.slot c.factory]]

/-- What the init method does for a derived value. -/
def initialSteps (d : DerivedProperty) : List Statement :=
  match d.cache with
  | .eager =>
    match d.slot, m.operand? d with
    | some slot, some value =>
      if d.notifiesInitially then [.callMethod (Naming.recompute d.name) false] else [.store slot.value value]
    | _, _ => []
  | .disabled => if d.notifiesInitially then [.raiseChanged d.name] else []
  | .lazy => []

/-- The name of a locale object: of its grouping, or a numbered one; `unnamed` objects have none so far. -/
def localeObject (unnamed : Nat) : Option String → String
  | some name => name
  | none => if unnamed = 0 then "i18nObject" else "i18nObject" ++ toString (unnamed + 1)

/-- The registration of one locale object and its bindings. -/
def registration (registry object : String) (grouping : LocaleGrouping) : List Statement :=
  .registerLocale registry grouping.name object
    :: grouping.bindings.map fun b => .addLocaleProperty object b.keyName b.targetName b.retain

/-- The registrations of locale objects, `unnamed` of them being without a name before. -/
def registrations (unnamed : Nat) : List (String × LocaleGrouping) → List Statement
  | [] => []
  | (registry, grouping) :: rest =>
    registration registry (localeObject unnamed grouping.name) grouping
      ++ registrations (if grouping.name.isNone then unnamed + 1 else unnamed) rest

/-- Every locale object with its registry. -/
def localeObjects : List (String × LocaleGrouping) :=
  m.localeGroups.flatMap fun group => group.groupings.map fun grouping => (group.registry, grouping)

/-- The body of the init method. -/
def initBody : List Statement :=
  (m.initializationOrder.filterMap (m.derived[·]?)).flatMap m.initialSteps ++ registrations 0 m.localeObjects

/-- The init method. -/
def initializer : GeneratedMember :=
  .method ⟨m.initMethod, .init m.derivesExtensibleBase, [], none⟩ m.initBody

/-! ### The whole class -/

/-- The generated members of a class, in order. -/
def generatedMembers : List GeneratedMember :=
  m.mutableProperties.map slotField
    ++ m.derived.flatMap cacheFields
    ++ m.statics.map (fun f => .function f.toStaticFunction)
    ++ m.mutableProperties.flatMap m.hooks
    ++ m.mutableProperties.map m.raiseAndSet
    ++ m.mutableProperties.flatMap m.mutableAccessors
    ++ m.derived.flatMap m.derivedAccessors
    ++ m.derived.filterMap m.recomputer?
    ++ m.commands.flatMap commandMembers
    ++ [m.initializer]

/-- The class with its generated members, piece by piece. -/
def fragments : List Fragment :=
  .beginClass m.header :: m.generatedMembers.flatMap GeneratedMember.fragments

end ClassModel

end Reactive
