import Reactive.Proofs.Ledger
import Reactive.Proofs.Loaded
import Reactive.Proofs.Outline

/-!
# Reactive.Proofs.Patching — patches that fit

* `ClassModel.fieldNames_sublist`, `ClassModel.addedProperties_sublist`, `ClassModel.nodup_newMethods`: what is added to
  a class has names that the analysis has taken.
* `ClassImage.Mirrors.fits`: the edits of a module fit the class that it is for.
* `clean_patch_fits`: a class that is analyzed without errors has a patch module that fits it, and what is neither
  reactive nor derived stays as it is declared.
-/

namespace Reactive

namespace Naming

/-- The name is one of an accessor. -/
def isAccessor (name : String) : Bool := "get_".toList.isPrefixOf name.toList || "set_".toList.isPrefixOf name.toList

theorem isAccessor_getter (property : String) : isAccessor (getter property) = true := by
  unfold isAccessor getter
  rw [String.toList_append]
  rfl

theorem isAccessor_setter (property : String) : isAccessor (setter property) = true := by
  unfold isAccessor setter
  rw [String.toList_append]
  rfl

theorem isAccessor_raiseAndSet (property : String) : isAccessor (raiseAndSet property) = false := by
  unfold isAccessor raiseAndSet
  rw [String.toList_append]
  rfl

theorem isAccessor_recompute (property : String) : isAccessor (recompute property) = false := by
  unfold isAccessor recompute
  rw [String.toList_append]
  rfl

/-- A compiled automatic property stores into a field that no generated one is. -/
theorem head_autoField (property : String) : (autoField property).toList.head? = some '<' := by
  rw [autoField, String.append_assoc, String.toList_append]
  rfl

end Naming

namespace ClassDecl

/-- The class declares a property of the name that is annotated as reactive. -/
def reacts (c : ClassDecl) (property : String) : Bool :=
  c.members.any fun m => m.name == property && (m.property?.isSome && m.isReactive)

end ClassDecl

namespace ClassModel

/-- The getter of a property is generated for a derived value. -/
def regenerates (m : ClassModel) (property : String) : Bool :=
  m.derived.any fun d => d.name == property && d.replacesGetter

variable {c : ClassDecl} {m : ClassModel}

theorem fieldNames_sublist_derived (d : DerivedProperty) : d.fieldNames.Sublist d.takenNames := by
  unfold DerivedProperty.fieldNames DerivedProperty.takenNames derivedNames
  refine List.Sublist.trans ?_ (List.sublist_append_right _ _)
  cases d.slot with
  | none => exact .refl _
  | some slot => exact (List.sublist_append_right _ _).cons_cons _

/-- Generated fields have names that are taken for them. -/
theorem fieldNames_sublist (m : ClassModel) : m.fieldNames.Sublist m.takenNames := by
  unfold fieldNames takenNames
  rw [List.map_eq_flatMap, List.map_eq_flatMap]
  refine ((List.Sublist.flatMap_right _ fun p _ => ?_).append (List.Sublist.flatMap_right _ fun d _ => ?_)).append
    (List.Sublist.flatMap_right _ fun k _ => ?_)
  · exact List.sublist_append_left [p.slot] _
  · exact fieldNames_sublist_derived d
  · exact List.sublist_append_right [k.property] _

/-- The getter of a derived value is new if the value is one of a method. -/
theorem exposes_eq (hentered : m.Entered c) (horderly : m.Orderly) {d : DerivedProperty} (hd : d ∈ m.derived)
    (hrecompute : d.recompute.isSome = true) : m.exposes d = d.origin.isMethod := by
  obtain ⟨i, hi, hsynthesized⟩ := (hentered.derived d hd hrecompute).info
  have hresolved := horderly.derived d hd
  have hat : m.members[d.property]? = some i := by
    obtain ⟨-, hindex⟩ := List.findIdx?_eq_some_iff_findIdx_eq.mp hresolved
    rw [← hi, MemberTable.find?, List.find?_eq_getElem?_findIdx, hindex]
  rw [exposes, hat]
  exact hsynthesized

/-- The derived values of methods, which are exposed as properties of their own. -/
theorem filter_exposes (hentered : m.Entered c) (horderly : m.Orderly) :
    m.derived.filter (fun d => d.recompute.isSome && m.exposes d) =
      m.derived.filter (fun d => d.recompute.isSome && d.origin.isMethod) := by
  refine List.filter_congr fun d hd => ?_
  cases hrecompute : d.recompute.isSome with
  | true => rw [exposes_eq hentered horderly hd hrecompute]
  | false => rfl

theorem filter_map_eq_flatMap {α β : Type} (p : α → Bool) (f : α → β) (xs : List α) :
    (xs.filter p).map f = xs.flatMap fun x => if p x then [f x] else [] := by
  induction xs with
  | nil => rfl
  | cons x xs ih =>
    rw [List.filter_cons, List.flatMap_cons, ← ih]
    split <;> rfl

/-- Added properties have names that are taken for them. -/
theorem addedProperties_sublist (hentered : m.Entered c) (horderly : m.Orderly) :
    m.addedProperties.Sublist m.takenNames := by
  unfold addedProperties takenNames
  rw [filter_exposes hentered horderly, filter_map_eq_flatMap, List.map_eq_flatMap]
  refine List.Sublist.append (.trans (List.Sublist.flatMap_right _ fun d _ => ?_) (List.sublist_append_right _ _))
    (List.Sublist.flatMap_right _ fun k _ => ?_)
  · unfold DerivedProperty.takenNames derivedNames
    refine List.Sublist.trans ?_ (List.sublist_append_left _ _)
    cases d.origin.isMethod with
    | true => cases d.recompute.isSome <;> simp
    | false => simp
  · exact List.sublist_append_left [k.property] _

/-- The methods that store reactive properties, and those that recompute derived values. -/
def stores (m : ClassModel) : List String :=
  m.mutableProperties.map (fun p => Naming.raiseAndSet p.name) ++
    (m.derived.filter DerivedProperty.isRecomputed).map fun d => Naming.recompute d.name

/-- The methods that store and recompute have names that are taken for them. -/
theorem stores_sublist (m : ClassModel) : m.stores.Sublist m.takenNames := by
  unfold stores takenNames
  rw [filter_map_eq_flatMap, List.map_eq_flatMap]
  refine List.Sublist.trans (List.Sublist.append (List.Sublist.flatMap_right _ fun p _ => ?_)
    (List.Sublist.flatMap_right _ fun d _ => ?_)) (List.sublist_append_left _ _)
  · exact List.sublist_append_right [p.slot] _
  · cases hrecomputed : d.isRecomputed with
    | false => simp
    | true =>
      unfold DerivedProperty.isRecomputed at hrecomputed
      rw [Bool.and_eq_true, Bool.and_eq_true, Option.isSome_iff_exists] at hrecomputed
      obtain ⟨⟨⟨slot, hslot⟩, -⟩, hown⟩ := hrecomputed
      have hown : d.origin ≠ .observable := by simpa [DerivedProperty.isObservable] using hown
      unfold DerivedProperty.takenNames derivedNames
      rw [hslot, cacheNames, if_neg hown]
      simp

/-- Their names are no names of accessors, and begin with a letter of their own. -/
theorem shape_of_mem_stores {n : String} (h : n ∈ m.stores) :
    Naming.isAccessor n = false ∧ n.toList.head? = some 'R' := by
  obtain h | h := List.mem_append.mp h
  · obtain ⟨p, -, rfl⟩ := List.mem_map.mp h
    exact ⟨Naming.isAccessor_raiseAndSet _, Naming.head_raiseAndSet _⟩
  · obtain ⟨d, -, rfl⟩ := List.mem_map.mp h
    exact ⟨Naming.isAccessor_recompute _, Naming.head_recompute _⟩

/-- The methods that are new. -/
def newMethods (m : ClassModel) : List String := m.stores ++ (m.addedProperties.map Naming.getter ++ [m.initMethod])

theorem methodsOf_flatMap {α : Type} (new : Bool) (f : α → List (Bool × String)) (xs : List α) :
    ClassImage.methodsOf new (xs.flatMap f) = xs.flatMap fun x => ClassImage.methodsOf new (f x) := by
  induction xs with
  | nil => rfl
  | cons x xs ih => rw [List.flatMap_cons, List.flatMap_cons, ClassImage.methodsOf_append, ih]

/-- The new methods, in another order. -/
theorem newMethods_perm (m : ClassModel) : (ClassImage.methodsOf true m.methodOutline).Perm m.newMethods := by
  have hderived : ClassImage.methodsOf true (m.derived.flatMap fun d =>
        if d.recompute.isSome then [(m.exposes d, Naming.getter d.name)] else []) =
      (m.derived.filter fun d => d.recompute.isSome && m.exposes d).map fun d => Naming.getter d.name := by
    rw [methodsOf_flatMap, filter_map_eq_flatMap]
    refine List.flatMap_congr fun d _ => ?_
    cases d.recompute.isSome <;> cases m.exposes d <;> rfl
  have hrecompute : ClassImage.methodsOf true (m.derived.flatMap fun d =>
        if d.isRecomputed then [(true, Naming.recompute d.name)] else []) =
      (m.derived.filter DerivedProperty.isRecomputed).map fun d => Naming.recompute d.name := by
    rw [methodsOf_flatMap, filter_map_eq_flatMap]
    refine List.flatMap_congr fun d _ => ?_
    cases d.isRecomputed <;> rfl
  have haccessors : ClassImage.methodsOf true (m.mutableProperties.flatMap fun p =>
      [(false, Naming.getter p.name), (false, Naming.setter p.name)]) = [] := by
    rw [methodsOf_flatMap]
    exact List.flatMap_eq_nil_iff.mpr fun _ _ => rfl
  have hstores : ClassImage.methodsOf true (m.mutableProperties.flatMap fun p => [(true, Naming.raiseAndSet p.name)]) =
      m.mutableProperties.map fun p => Naming.raiseAndSet p.name := by
    rw [methodsOf_flatMap, List.map_eq_flatMap]
    rfl
  have hcommands : ClassImage.methodsOf true (m.commands.flatMap fun k => [(true, Naming.getter k.property)]) =
      m.commands.map fun k => Naming.getter k.property := by
    rw [methodsOf_flatMap, List.map_eq_flatMap]
    rfl
  unfold methodOutline newMethods stores addedProperties
  simp only [ClassImage.methodsOf_append, hderived, hrecompute, haccessors, hstores, hcommands, List.append_nil,
    List.map_append, List.map_map]
  refine List.perm_iff_count.mpr fun n => ?_
  simp only [List.count_append, Function.comp_def]
  have hinit : ClassImage.methodsOf true [(true, m.initMethod)] = [m.initMethod] := rfl
  rw [hinit]
  omega

/-- New methods have names of their own. -/
theorem nodup_newMethods (hentered : m.Entered c) (horderly : m.Orderly)
    (hinit : m.initMethod = "InitializeReactiveObject") : m.newMethods.Nodup := by
  have hstores : m.stores.Nodup := hentered.distinct.sublist m.stores_sublist
  have hgetters : (m.addedProperties.map Naming.getter).Nodup :=
    (hentered.distinct.sublist (addedProperties_sublist hentered horderly)).map fun _ _ h => Naming.getter_inj h
  refine List.nodup_append.mpr ⟨hstores, List.nodup_append.mpr ⟨hgetters, List.nodup_singleton _, ?_⟩, ?_⟩
  · rintro n hn _ hn' rfl
    obtain ⟨property, -, rfl⟩ := List.mem_map.mp hn
    have haccessor := Naming.isAccessor_getter property
    rw [List.mem_singleton.mp hn', hinit] at haccessor
    exact absurd haccessor (by decide)
  · rintro n hn _ hn' rfl
    obtain ⟨hplain, hhead⟩ := shape_of_mem_stores hn
    obtain hn' | hn' := List.mem_append.mp hn'
    · obtain ⟨property, -, rfl⟩ := List.mem_map.mp hn'
      rw [Naming.isAccessor_getter] at hplain
      cases hplain
    · rw [List.mem_singleton.mp hn', hinit] at hhead
      exact absurd hhead (by decide)

/-- The names of generated fields begin with an underscore. -/
theorem Analyzed.head_of_mem_fieldNames (h : m.Analyzed c) {n : String} (hn : n ∈ m.fieldNames) :
    n.toList.head? = some '_' := by
  obtain hn | hn := List.mem_append.mp hn
  · obtain hn | hn := List.mem_append.mp hn
    · obtain ⟨p, hp, rfl⟩ := List.mem_map.mp hn
      rw [(h.mutable p hp).slot]
      exact Naming.head_slot _
    · obtain ⟨d, hd, hn⟩ := List.mem_flatMap.mp hn
      unfold DerivedProperty.fieldNames at hn
      split at hn
      · cases hn
      · rename_i slot hslot
        obtain ⟨hvalue, hflag⟩ := (h.derived d hd).named slot hslot
        obtain rfl | hn := List.mem_cons.mp hn
        · rw [hvalue]
          exact Naming.head_slot _
        · rw [hflag n (Option.mem_toList.mp hn)]
          exact Naming.head_lazyFlag _
  · obtain ⟨k, hk, rfl⟩ := List.mem_map.mp hn
    rw [(h.commands k hk).slot]
    exact Naming.head_slot _

end ClassModel

/-! ### Edits that fit -/

/-- The class declares no method whose name is one of an accessor or of the init method. -/
def ClassDecl.SparesNames (c : ClassDecl) : Prop :=
  ∀ m ∈ c.members, m.method?.isSome = true → m.name ≠ "InitializeReactiveObject" ∧ Naming.isAccessor m.name = false

/-- Every property that is annotated as reactive is declared with a getter. -/
def ClassDecl.ReadsReactive (c : ClassDecl) : Prop :=
  ∀ m ∈ c.members, m.isReactive = true → ∀ p ∈ m.property?, p.getter.isSome = true

/-- A declared member has a method of the name, or an accessor. -/
inductive ClassDecl.Occupies (c : ClassDecl) : String → Prop
  | method {m : MemberDecl} (mem : m ∈ c.members) (method : m.method?.isSome = true) : Occupies c m.name
  | getter {property : String} (declared : property ∈ propertyNames c.members) : Occupies c (Naming.getter property)
  | setter {property : String} (declared : property ∈ propertyNames c.members) : Occupies c (Naming.setter property)

namespace ClassModel

variable {c : ClassDecl} {m : ClassModel}

theorem mem_methodsOf {new : Bool} {n : String} {entries : List (Bool × String)} :
    n ∈ ClassImage.methodsOf new entries ↔ (new, n) ∈ entries := by
  unfold ClassImage.methodsOf
  constructor
  · intro h
    obtain ⟨⟨new', n'⟩, hmem, rfl⟩ := List.mem_map.mp h
    obtain ⟨hentry, hnew⟩ := List.mem_filter.mp hmem
    obtain rfl : new' = new := of_decide_eq_true hnew
    exact hentry
  · intro h
    exact List.mem_map.mpr ⟨(new, n), List.mem_filter.mpr ⟨h, decide_eq_true rfl⟩, rfl⟩

/-- What is replaced are the accessors of reactive properties, and the getters of derived values. -/
theorem replaced_cases {n : String} (h : (false, n) ∈ m.methodOutline) :
    (∃ p ∈ m.mutableProperties, n = Naming.getter p.name ∨ n = Naming.setter p.name) ∨
      ∃ d ∈ m.derived, d.recompute.isSome = true ∧ m.exposes d = false ∧ n = Naming.getter d.name := by
  simp only [methodOutline, List.mem_append, List.mem_flatMap] at h
  obtain ((((⟨p, -, h⟩ | ⟨p, hp, h⟩) | ⟨d, hd, h⟩) | ⟨d, -, h⟩) | ⟨k, -, h⟩) | h := h
  · cases List.mem_singleton.mp h
  · simp only [List.mem_cons, List.not_mem_nil, or_false, Prod.mk.injEq, true_and] at h
    exact Or.inl ⟨p, hp, h⟩
  · split at h
    · rename_i hrecompute
      obtain ⟨hexposes, hname⟩ := Prod.mk.inj (List.mem_singleton.mp h)
      exact Or.inr ⟨d, hd, hrecompute, hexposes.symm, hname⟩
    · cases h
  · split at h
    · cases List.mem_singleton.mp h
    · cases h
  · cases List.mem_singleton.mp h
  · cases List.mem_singleton.mp h

/-- New methods are not declared. -/
theorem Entered.not_occupied (hentered : m.Entered c) (horderly : m.Orderly)
    (hinit : m.initMethod = "InitializeReactiveObject") (hspares : c.SparesNames) {n : String} (hn : c.Occupies n) :
    n ∉ m.newMethods := by
  intro hnew
  have hproperty {property : String} (hdeclared : property ∈ propertyNames c.members) : property ∉ m.addedProperties :=
    fun hadded => hentered.undeclared property ((addedProperties_sublist hentered horderly).subset hadded)
      (Drafting.mem_names_of_propertyNames (fun _ hm => hm) hdeclared)
  have haccessor {n : String} (hn : Naming.isAccessor n = true) (hnew : n ∈ m.newMethods) :
      n ∈ m.addedProperties.map Naming.getter := by
    obtain hnew | hnew := List.mem_append.mp hnew
    · rw [(shape_of_mem_stores hnew).1] at hn
      cases hn
    obtain hnew | hnew := List.mem_append.mp hnew
    · exact hnew
    · rw [List.mem_singleton.mp hnew, hinit] at hn
      exact absurd hn (by decide)
  cases hn with
  | @method member mem method =>
    obtain ⟨hother, hplain⟩ := hspares member mem method
    obtain hnew | hnew := List.mem_append.mp hnew
    · exact hentered.undeclared _ (m.stores_sublist.subset hnew) (List.mem_map_of_mem mem)
    obtain hnew | hnew := List.mem_append.mp hnew
    · obtain ⟨property, -, heq⟩ := List.mem_map.mp hnew
      rw [← heq, Naming.isAccessor_getter] at hplain
      cases hplain
    · exact hother ((List.mem_singleton.mp hnew).trans hinit)
  | getter declared =>
    obtain ⟨property, hadded, heq⟩ := List.mem_map.mp (haccessor (Naming.isAccessor_getter _) hnew)
    exact hproperty declared (Naming.getter_inj heq ▸ hadded)
  | setter declared =>
    obtain ⟨property, -, heq⟩ := List.mem_map.mp (haccessor (Naming.isAccessor_setter _) hnew)
    exact Naming.getter_ne_setter _ _ heq

end ClassModel

namespace ClassImage

variable {c : ClassDecl} {model : ClassModel} {base : ClassImage}

theorem mem_propertyNames {members : List MemberDecl} {m : MemberDecl} {p : PropertyDecl} (hm : m ∈ members)
    (hp : m.kind = .property p) : m.name ∈ propertyNames members := by
  refine List.mem_filterMap.mpr ⟨m, hm, ?_⟩
  rw [MemberDecl.property?_eq_some.mpr hp]
  rfl

/-- A declared body is that of a method or of an accessor. -/
theorem Mirrors.occupies (h : base.Mirrors c c.members) {n : String} (hn : base.Known n) : c.Occupies n := by
  obtain ⟨m, hm, hn⟩ := List.mem_flatMap.mp ((h.known n).mp hn)
  unfold MemberDecl.bodyNames at hn
  split at hn
  · rename_i p hp
    obtain hn | hn := List.mem_append.mp hn
    · obtain ⟨_, -, rfl⟩ := Option.map_eq_some_iff.mp (Option.mem_toList.mp hn)
      exact .getter (mem_propertyNames hm hp)
    · obtain ⟨_, -, rfl⟩ := Option.map_eq_some_iff.mp (Option.mem_toList.mp hn)
      exact .setter (mem_propertyNames hm hp)
  · rename_i decl hdecl
    obtain ⟨_, -, rfl⟩ := Option.map_eq_some_iff.mp (Option.mem_toList.mp hn)
    exact .method hm (by rw [MemberDecl.method?, hdecl]; rfl)

theorem Mirrors.known_getter (h : base.Mirrors c c.members) {m : MemberDecl} (hm : m ∈ c.members) {p : PropertyDecl}
    (hp : m.kind = .property p) (hgetter : p.getter.isSome = true) : base.Known (Naming.getter m.name) := by
  refine (h.known _).mpr (List.mem_flatMap.mpr ⟨m, hm, ?_⟩)
  obtain ⟨accessor, haccessor⟩ := Option.isSome_iff_exists.mp hgetter
  rw [MemberDecl.bodyNames, hp]
  simp [haccessor]

theorem Mirrors.known_setter (h : base.Mirrors c c.members) {m : MemberDecl} (hm : m ∈ c.members) {p : PropertyDecl}
    (hp : m.kind = .property p) (hsetter : p.setter.isSome = true) : base.Known (Naming.setter m.name) := by
  refine (h.known _).mpr (List.mem_flatMap.mpr ⟨m, hm, ?_⟩)
  obtain ⟨accessor, haccessor⟩ := Option.isSome_iff_exists.mp hsetter
  rw [MemberDecl.bodyNames, hp]
  simp [haccessor]

/-- What the edits of a module name. -/
theorem outline_of_ofModel {module : PatchModule} (h : PatchModule.ofModel model = .ok module) :
    module = .ofEdits model.header.name module.edits ∧ module.edits.filterMap PatchEdit.field? = model.fieldNames ∧
      module.edits.filterMap PatchEdit.property? = model.addedProperties ∧
        module.edits.filterMap PatchEdit.writtenMethod? = model.methodOutline ∧
          module.edits.filterMap PatchEdit.redirected? =
            model.generatedMembers.filterMap GeneratedMember.redirected? := by
  obtain ⟨a, hall, hmodule⟩ := Assembly.ofModel_eq_ok h
  obtain ⟨hooks, -, ess, hess, hmodule'⟩ := editsOf_ofModel h
  have hedits : module.edits = ess.flatten := by
    rw [hmodule']
    rfl
  refine ⟨?_, ?_, ?_, ?_, ?_⟩
  · rw [hedits]
    exact hmodule'
  · rw [hedits, Assembly.filterMap_field_flatten hess, ClassModel.filterMap_field]
  · rw [hedits, Assembly.filterMap_property_flatten hess, ClassModel.filterMap_addedProperty]
  · rw [hmodule]
    exact (Assembly.filterMap_writtenMethod_addAll hall).trans (model.enters_generatedMembers _)
  · rw [hedits, Assembly.filterMap_redirected_flatten hess]

/-- The edits of a module fit the class as it is compiled from its declaration. -/
theorem Mirrors.fits (h : base.Mirrors c c.members) (hentered : model.Entered c) (hanalyzed : model.Analyzed c)
    (horderly : model.Orderly) (hinit : model.initMethod = "InitializeReactiveObject") (hspares : c.SparesNames)
    (hreads : c.ReadsReactive) {module : PatchModule} (hmodule : PatchModule.ofModel model = .ok module) :
    base.Fits module.edits := by
  obtain ⟨-, hfields, hproperties, hmethods, hredirected⟩ := outline_of_ofModel hmodule
  refine ⟨?_, ?_, ?_, ?_, ?_⟩
  · rw [hfields]
    refine ⟨hentered.distinct.sublist model.fieldNames_sublist, fun n hn hold => ?_⟩
    obtain ⟨f, hf, rfl⟩ := List.mem_map.mp hold
    obtain ⟨property, hfield⟩ := h.fields f hf
    exact Naming.ne_of_head (hanalyzed.head_of_mem_fieldNames hn) (Naming.head_autoField property) (by decide) hfield
  · rw [hproperties]
    have hsub := ClassModel.addedProperties_sublist hentered horderly
    refine ⟨hentered.distinct.sublist hsub, fun n hn hold => ?_⟩
    exact hentered.undeclared n (hsub.subset hn)
      (Drafting.mem_names_of_propertyNames (fun _ hm => hm) ((h.properties n).mp hold))
  · rw [hmethods]
    have hperm := model.newMethods_perm
    refine ⟨hperm.nodup_iff.mpr (ClassModel.nodup_newMethods hentered horderly hinit), fun n hn hknown => ?_⟩
    exact hentered.not_occupied horderly hinit hspares (h.occupies hknown) (hperm.subset hn)
  · rw [hmethods]
    intro n hn
    have hreplaced := ClassModel.mem_methodsOf.mp hn
    obtain ⟨p, hp, hn⟩ | ⟨d, hd, hrecompute, hexposes, rfl⟩ := ClassModel.replaced_cases hreplaced
    · obtain ⟨member, hmember, hname, hreactive, decl, hdecl, hsetter, -⟩ := hentered.mutable p hp
      rw [← hname] at hn
      obtain rfl | rfl := hn
      · have hgetter := hreads member hmember hreactive decl (MemberDecl.property?_eq_some.mpr hdecl)
        exact h.known_getter hmember hdecl hgetter
      · exact h.known_setter hmember hdecl hsetter
    · rw [ClassModel.exposes_eq hentered horderly hd hrecompute] at hexposes
      obtain ⟨body, member, hmember, hname, decl, hdecl, hbody⟩ := (hentered.derived d hd hrecompute).written hexposes
      rw [← hname]
      refine h.known_getter hmember hdecl ?_
      obtain ⟨accessor, haccessor, -⟩ := Option.bind_eq_some_iff.mp hbody
      rw [haccessor]
      rfl
  · rw [hredirected, h.initialized]
    intro n hn
    obtain ⟨p, hp, rfl, hinitializer⟩ := ClassModel.mem_redirected model hn
    obtain ⟨member, hmember, hname, -, decl, hdecl, -, hsame⟩ := hentered.mutable p hp
    refine List.mem_filterMap.mpr ⟨member, hmember, ?_⟩
    obtain ⟨body, hbody⟩ := Option.isSome_iff_exists.mp hinitializer
    rw [MemberDecl.initialized?, MemberDecl.property?_eq_some.mpr hdecl, Option.bind_some, hsame, hbody, hname]
    rfl

/-- What a patch leaves of a class that it is made for: the bodies of declared methods and of the accessors that are not
generated, all fields, and the initial values of properties that are not reactive, which go to their fields. -/
structure Preserves (c : ClassDecl) (model : ClassModel) (base image : ClassImage) : Prop where
  methods : ∀ m ∈ c.members, m.method?.isSome = true → base.SameBody image m.name
  externs : image.externs = base.externs
  accessors : ∀ property ∈ propertyNames c.members, c.reacts property = false → model.regenerates property = false →
    base.SameBody image (Naming.getter property) ∧ base.SameBody image (Naming.setter property)
  fields : base.fields <+: image.fields
  initializers : image.initializers.filter (fun i => !c.reacts i.property) =
    base.initializers.filter fun i => !c.reacts i.property
  targets : ∀ i ∈ image.initializers, c.reacts i.property = false → i.target = .field (Naming.autoField i.property)

theorem reacts_of_mutable (hentered : model.Entered c) {p : MutableProperty} (hp : p ∈ model.mutableProperties) :
    c.reacts p.name = true := by
  obtain ⟨m, hm, hname, hreactive, decl, hdecl, -⟩ := hentered.mutable p hp
  refine List.any_eq_true.mpr ⟨m, hm, ?_⟩
  rw [hname, beq_self_eq_true, MemberDecl.property?_eq_some.mpr hdecl, hreactive]
  rfl

/-- Edits that name nothing else than the members of a model preserve the class. -/
theorem Mirrors.preserves (h : base.Mirrors c c.members) (hentered : model.Entered c) (horderly : model.Orderly)
    (hinit : model.initMethod = "InitializeReactiveObject") (hspares : c.SparesNames) {module : PatchModule}
    (hmodule : PatchModule.ofModel model = .ok module) {image : ClassImage} (hkeeps : Keeps module.edits base image) :
    Preserves c model base image := by
  obtain ⟨-, -, -, hmethods, hredirected⟩ := outline_of_ofModel hmodule
  have hbody {n : String} (hn : c.Occupies n) (hreplaced : (false, n) ∉ model.methodOutline) :
      base.SameBody image n := by
    refine hkeeps.bodies n fun hmem => ?_
    rw [hmethods] at hmem
    obtain ⟨⟨new, _⟩, hentry, rfl⟩ := List.mem_map.mp hmem
    cases new with
    | true =>
      exact hentered.not_occupied horderly hinit hspares hn
        (model.newMethods_perm.subset (ClassModel.mem_methodsOf.mpr hentry))
    | false => exact hreplaced hentry
  have hinitializers := hkeeps.initializers (fun i => !c.reacts i.property) fun i hi hmem => by
    rw [hredirected] at hmem
    obtain ⟨p, hp, hname, -⟩ := ClassModel.mem_redirected model hmem
    rw [← hname, reacts_of_mutable hentered hp] at hi
    cases hi
  refine ⟨fun m hm hmethod => hbody (.method hm hmethod) fun hreplaced => ?_, hkeeps.externs,
    fun property hproperty hplain hdeclared => ⟨hbody (.getter hproperty) fun hreplaced => ?_,
      hbody (.setter hproperty) fun hreplaced => ?_⟩, hkeeps.fields, hinitializers, fun i hi hplain => ?_⟩
  · have hother := (hspares m hm hmethod).2
    obtain ⟨p, -, hname | hname⟩ | ⟨d, -, -, -, hname⟩ := ClassModel.replaced_cases hreplaced
    · rw [hname, Naming.isAccessor_getter] at hother
      cases hother
    · rw [hname, Naming.isAccessor_setter] at hother
      cases hother
    · rw [hname, Naming.isAccessor_getter] at hother
      cases hother
  · obtain ⟨p, hp, hname | hname⟩ | ⟨d, hd, hrecompute, -, hname⟩ := ClassModel.replaced_cases hreplaced
    · rw [Naming.getter_inj hname, reacts_of_mutable hentered hp] at hplain
      cases hplain
    · exact Naming.getter_ne_setter _ _ hname
    · refine Bool.eq_false_iff.mp hdeclared (List.any_eq_true.mpr ⟨d, hd, ?_⟩)
      rw [Naming.getter_inj hname, beq_self_eq_true, DerivedProperty.replacesGetter, hrecompute]
      rfl
  · obtain ⟨p, hp, hname | hname⟩ | ⟨d, -, -, -, hname⟩ := ClassModel.replaced_cases hreplaced
    · exact Naming.getter_ne_setter _ _ hname.symm
    · rw [Naming.setter_inj hname, reacts_of_mutable hentered hp] at hplain
      cases hplain
    · exact Naming.getter_ne_setter _ _ hname.symm
  · have hkept : i ∈ image.initializers.filter fun i => !c.reacts i.property :=
      List.mem_filter.mpr ⟨hi, by rw [hplain]; rfl⟩
    rw [hinitializers] at hkept
    exact h.targets i (List.mem_filter.mp hkept).1

end ClassImage

/-- **A clean analysis gives a patch that fits.**  Under the default conventions, let a class be analyzed with no
findings but warnings; let its reactive properties have getters, and let it declare no method whose name is one of an
accessor or of the init method.  If the class compiles and its model has a patch module, then the module can be applied
to the class that is compiled from the declaration.  Afterwards every declared method and every accessor that is neither
that of a reactive property nor the regenerated one of a derived value has the body that it had, every field is there,
and the initial values of other properties than reactive ones go to the fields of these. -/
theorem clean_patch_fits {s : DeclarationSet} {c : ClassDecl} {model : ClassModel} (hconventions : s.conventions = default)
    (hmodel : (s.analyzeClass c).1 = some model) (hclean : ∀ f ∈ (s.analyzeClass c).2, f.isWarning = true)
    (hreads : c.ReadsReactive) (hspares : c.SparesNames) {base : ClassImage} {module : PatchModule}
    (hbase : ClassImage.baseline c s.conventions = .ok base) (hmodule : PatchModule.ofModel model = .ok module) :
    ∃ image, base.patched module = .ok image ∧ ClassImage.Preserves c model base image := by
  obtain ⟨hanalyzed, hinit, -, horderly⟩ := analyzeClass_eq_some hmodel
  have horderly := horderly hclean
  have hentered := entered_of_analyzeClass hmodel
  have hinit : model.initMethod = "InitializeReactiveObject" := by
    rw [hinit, hconventions]
    rfl
  have hmirrors := ClassImage.mirrors_baseline hbase
  obtain ⟨image, hrun⟩ := (hmirrors.fits hentered hanalyzed horderly hinit hspares hreads hmodule).forM
  refine ⟨image, ?_, hmirrors.preserves hentered horderly hinit hspares hmodule (ClassImage.keeps_forM hrun)⟩
  obtain ⟨hsealed, -⟩ := ClassImage.outline_of_ofModel hmodule
  have hname : model.header.name = base.name := hanalyzed.name.trans hmirrors.name.symm
  have happlied := ClassImage.ofPatched_of_forM hbase hname hrun
  rw [← hsealed] at happlied
  unfold ClassImage.ofPatched at happlied
  rw [hbase] at happlied
  exact happlied

/-- A lamp with a level, which starts at three and can be reset, a label and a brightness, and its doubled level. -/
def lamp : ClassDecl where
  name := "Lamp"
  typeParams := []
  modifiers := [.partial_]
  bases := [⟨"IReactiveObject", [], false⟩]
  members :=
    [⟨"Level", [⟨"Reactive", [], .none⟩], [],
        .property ⟨⟨"int", [], false⟩, some ⟨none, .none⟩, some ⟨none, .none⟩, some (.literal (.int 3) .none)⟩, .none, .none⟩,
      ⟨"Label", [], [],
        .property ⟨⟨"string", [], false⟩, some ⟨none, .none⟩, none, some (.literal (.string "lamp") .none)⟩, .none, .none⟩,
      ⟨"Bright", [⟨"Derived", [⟨none, .string "Level", .none⟩], .none⟩], [],
        .property ⟨boolType, some ⟨some (.binary .greater (.name "Level" .none) (.literal (.int 5) .none) .none), .none⟩,
          none, none⟩, .none, .none⟩,
      ⟨"Twice", [⟨"Derived", [⟨none, .string "Level", .none⟩, ⟨some "Property", .string "Doubled", .none⟩], .none⟩], [],
        .method ⟨⟨"int", [], false⟩, [], some (.binary .add (.name "Level" .none) (.name "Level" .none) .none)⟩,
        .none, .none⟩,
      ⟨"Reset", [⟨"Command", [], .none⟩], [], .method ⟨⟨"void", [], false⟩, [], none⟩, .none, .none⟩]
  nameSpan := .none
  span := .none

/-- The file that declares a lamp and nothing else. -/
def lampFile : DeclarationSet := ⟨"", "", ⟨[], none, [lamp]⟩, default⟩

/-- The patch of a lamp makes every kind of edit but one, and fits. -/
theorem clean_patch_fits_lamp : ∃ model module base image, (lampFile.analyzeClass lamp).1 = some model ∧
    PatchModule.ofModel model = .ok module ∧ ClassImage.baseline lamp lampFile.conventions = .ok base ∧
      module.edits.length = 16 ∧ base.patched module = .ok image ∧ ClassImage.Preserves lamp model base image := by
  obtain ⟨model, hmodel⟩ := Option.isSome_iff_exists.mp
    (show (lampFile.analyzeClass lamp).1.isSome = true by decide +kernel)
  have hclean : ∀ f ∈ (lampFile.analyzeClass lamp).2, f.isWarning = true := by decide +kernel
  have hreads : lamp.ReadsReactive := by
    unfold ClassDecl.ReadsReactive
    decide +kernel
  have hspares : lamp.SparesNames := by
    unfold ClassDecl.SparesNames
    decide +kernel
  have hfacts : ((lampFile.analyzeClass lamp).1.any fun model =>
      (ClassImage.baseline lamp lampFile.conventions).toOption.any fun _ =>
        (PatchModule.ofModel model).toOption.any fun module => decide (module.edits.length = 16)) = true := by
    decide +kernel
  rw [hmodel, Option.any_some] at hfacts
  obtain ⟨base, hbase, hfacts⟩ := Stateful.exists_of_toOption_any hfacts
  obtain ⟨module, hmodule, hlength⟩ := Stateful.exists_of_toOption_any hfacts
  obtain ⟨image, himage, hpreserves⟩ := clean_patch_fits rfl hmodel hclean hreads hspares hbase hmodule
  exact ⟨model, module, base, image, hmodel, hmodule, hbase, of_decide_eq_true hlength, himage, hpreserves⟩

end Reactive
