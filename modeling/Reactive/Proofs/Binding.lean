import Reactive.Proofs.Analyzing
import Reactive.Proofs.Keyed

/-!
# Reactive.Proofs.Binding — locale bindings are grouped in the order of their members

* `MemberTable.placed?`: the binding of a localized member, if its annotation is accepted.
* `LocaleGroup.of`: bindings by registry, and in each registry by object, all in the order in which they are first met.
  This is what putting them in one after another makes of them (`LocaleGroup.foldl_add`).
* `ClassModel.Localized`: the groups of a model hold the bindings of its class, each once.
-/

namespace Reactive

/-- What a member is bound to, if its annotation is accepted where the properties are those of the table. -/
def MemberTable.placed? (table : MemberTable) (m : MemberDecl) (annotations : List Annotation) : Option PlacedBinding := do
  let a ← findKind .localized annotations
  let p ← m.property?
  if p.setter.isSome then none
  else
    let registry ← a.string? "ResourceName"
    let keyName ← a.string? "KeyPropertyName"
    let key ← table.resolve? keyName
    let target ← table.resolve? m.name
    return ⟨registry, a.string? "ObjectName", ⟨key, keyName, target, m.name, a.bool "Retain" false, m.nameSpan⟩⟩

/-- A member that is bound is a property; the binding has its name and one of a key, with their numbers. -/
theorem MemberTable.of_placed? {table : MemberTable} {m : MemberDecl} {annotations : List Annotation} {p : PlacedBinding}
    (h : table.placed? m annotations = some p) : (∃ decl, m.property? = some decl) ∧ p.binding.targetName = m.name ∧
      table.resolve? p.binding.keyName = some p.binding.key ∧ table.resolve? m.name = some p.binding.target := by
  unfold placed? at h
  obtain ⟨a, -, h⟩ := Option.bind_eq_some_iff.mp h
  obtain ⟨decl, hdecl, h⟩ := Option.bind_eq_some_iff.mp h
  split at h
  · cases h
  · obtain ⟨registry, -, h⟩ := Option.bind_eq_some_iff.mp h
    obtain ⟨keyName, -, h⟩ := Option.bind_eq_some_iff.mp h
    obtain ⟨key, hkey, h⟩ := Option.bind_eq_some_iff.mp h
    obtain ⟨target, htarget, h⟩ := Option.bind_eq_some_iff.mp h
    cases h
    exact ⟨⟨decl, hdecl⟩, rfl, hkey, htarget⟩

/-- The bindings of a class whose properties are those of the table, in the order of their members. -/
def ClassDecl.placed (c : ClassDecl) (table : MemberTable) : List PlacedBinding :=
  (annotatedMembers c).1.filterMap fun record => table.placed? record.1 record.2

/-! ### Groups -/

/-- Bindings by object. -/
def LocaleGrouping.of (placed : List PlacedBinding) : List LocaleGrouping :=
  (placed.map PlacedBinding.grouping).eraseDups.map fun name =>
    ⟨name, (placed.filter (·.grouping = name)).map PlacedBinding.binding⟩

/-- Bindings by registry, and by object in each of them. -/
def LocaleGroup.of (placed : List PlacedBinding) : List LocaleGroup :=
  (placed.map PlacedBinding.registry).eraseDups.map fun registry =>
    ⟨registry, LocaleGrouping.of (placed.filter (·.registry = registry))⟩

namespace LocaleGroup

theorem addToGroupings_eq_upsert (p : PlacedBinding) : ∀ groupings : List LocaleGrouping,
    addToGroupings p groupings = upsert LocaleGrouping.name p.grouping
      (fun g => { g with bindings := g.bindings ++ [p.binding] }) ⟨p.grouping, [p.binding]⟩ groupings
  | [] => rfl
  | g :: rest => by rw [addToGroupings, upsert, addToGroupings_eq_upsert p rest]

theorem add_eq_upsert (p : PlacedBinding) : ∀ groups : List LocaleGroup,
    add groups p = upsert LocaleGroup.registry p.registry
      (fun g => { g with groupings := addToGroupings p g.groupings }) ⟨p.registry, [⟨p.grouping, [p.binding]⟩]⟩ groups
  | [] => rfl
  | g :: rest => by rw [add, upsert, add_eq_upsert p rest]

theorem foldl_addToGroupings (placed : List PlacedBinding) :
    placed.foldl (fun groupings p => addToGroupings p groupings) [] = LocaleGrouping.of placed := by
  simp only [addToGroupings_eq_upsert]
  refine foldl_upsert LocaleGrouping.name PlacedBinding.grouping
    (fun p g => { g with bindings := g.bindings ++ [p.binding] }) (fun p => ⟨p.grouping, [p.binding]⟩)
    (fun placed name => ⟨name, (placed.filter (·.grouping = name)).map PlacedBinding.binding⟩)
    (fun _ _ => rfl) (fun xs x k hk => ?_) (fun xs x _ => ?_) (fun xs x hx => ?_) placed
  · rw [List.filter_append, List.filter_cons_of_neg (by simpa using Ne.symm hk), List.filter_nil, List.append_nil]
  · rw [List.filter_append, List.filter_cons_of_pos (by simp), List.filter_nil, List.map_append, List.map_singleton]
  · have hnone : xs.filter (·.grouping = x.grouping) = [] :=
      List.filter_eq_nil_iff.mpr fun p hp heq => hx (List.mem_map.mpr ⟨p, hp, of_decide_eq_true heq⟩)
    rw [List.filter_append, hnone, List.filter_cons_of_pos (by simp), List.filter_nil, List.nil_append,
      List.map_singleton]

theorem addToGroupings_of (placed : List PlacedBinding) (p : PlacedBinding) :
    addToGroupings p (LocaleGrouping.of placed) = LocaleGrouping.of (placed ++ [p]) := by
  rw [← foldl_addToGroupings, ← foldl_addToGroupings, List.foldl_append, List.foldl_cons, List.foldl_nil]

/-- Bindings that are put in one after another. -/
theorem foldl_add (placed : List PlacedBinding) : placed.foldl add [] = of placed := by
  rw [show add = fun groups p => add groups p from rfl]
  simp only [add_eq_upsert]
  refine foldl_upsert LocaleGroup.registry PlacedBinding.registry
    (fun p g => { g with groupings := addToGroupings p g.groupings })
    (fun p => ⟨p.registry, [⟨p.grouping, [p.binding]⟩]⟩)
    (fun placed registry => ⟨registry, LocaleGrouping.of (placed.filter (·.registry = registry))⟩)
    (fun _ _ => rfl) (fun xs x k hk => ?_) (fun xs x _ => ?_) (fun xs x hx => ?_) placed
  · rw [List.filter_append, List.filter_cons_of_neg (by simpa using Ne.symm hk), List.filter_nil, List.append_nil]
  · rw [List.filter_append, List.filter_cons_of_pos (by simp), List.filter_nil, ← addToGroupings_of]
  · have hnone : xs.filter (·.registry = x.registry) = [] :=
      List.filter_eq_nil_iff.mpr fun p hp heq => hx (List.mem_map.mpr ⟨p, hp, of_decide_eq_true heq⟩)
    rw [List.filter_append, hnone, List.filter_cons_of_pos (by simp), List.filter_nil, ← addToGroupings_of]
    rfl

end LocaleGroup

/-- The bindings of objects, in order. -/
def LocaleGrouping.all (groupings : List LocaleGrouping) : List LocaleBinding :=
  groupings.flatMap LocaleGrouping.bindings

theorem LocaleGrouping.perm_all (placed : List PlacedBinding) :
    (all (of placed)).Perm (placed.map PlacedBinding.binding) := by
  unfold all of
  rw [List.flatMap_map]
  show ((placed.map PlacedBinding.grouping).eraseDups.flatMap fun name =>
    (placed.filter (·.grouping = name)).map PlacedBinding.binding).Perm _
  rw [← List.map_flatMap]
  exact (perm_flatMap_filter PlacedBinding.grouping placed).map _

/-- The bindings of groups, in order. -/
def LocaleGroup.all (groups : List LocaleGroup) : List LocaleBinding :=
  groups.flatMap fun group => LocaleGrouping.all group.groupings

/-- No binding is lost in a group, and none gets into two. -/
theorem LocaleGroup.perm_all (placed : List PlacedBinding) :
    (all (of placed)).Perm (placed.map PlacedBinding.binding) := by
  unfold all of
  rw [List.flatMap_map]
  refine List.Perm.trans (List.Perm.flatMap_left _ fun registry _ => LocaleGrouping.perm_all _) ?_
  rw [← List.map_flatMap]
  exact (perm_flatMap_filter PlacedBinding.registry placed).map _

/-- A binding is in the group of its registry, with its object. -/
theorem LocaleGroup.exists_mem {placed : List PlacedBinding} {p : PlacedBinding} (hp : p ∈ placed) :
    ∃ group ∈ of placed, group.registry = p.registry ∧
      ∃ grouping ∈ group.groupings, grouping.name = p.grouping ∧ p.binding ∈ grouping.bindings := by
  have hregistry : p ∈ placed.filter (·.registry = p.registry) := List.mem_filter.mpr ⟨hp, decide_eq_true rfl⟩
  refine ⟨_, List.mem_map.mpr ⟨p.registry, List.mem_eraseDups.mpr (List.mem_map_of_mem hp), rfl⟩, rfl,
    _, List.mem_map.mpr ⟨p.grouping, List.mem_eraseDups.mpr (List.mem_map_of_mem hregistry), rfl⟩, rfl, ?_⟩
  exact List.mem_map_of_mem (List.mem_filter.mpr ⟨hregistry, decide_eq_true rfl⟩)

/-- The locale bindings of a model are those of its class: each of them once, with its registry and its object. -/
structure ClassModel.Localized (m : ClassModel) (c : ClassDecl) : Prop where
  groups : m.localeGroups = LocaleGroup.of (c.placed m.members)
  all : (LocaleGroup.all m.localeGroups).Perm ((c.placed m.members).map PlacedBinding.binding)
  once : ((LocaleGroup.all m.localeGroups).map LocaleBinding.targetName).Nodup
  place : ∀ p ∈ c.placed m.members, ∃ group ∈ m.localeGroups, group.registry = p.registry ∧
    ∃ grouping ∈ group.groupings, grouping.name = p.grouping ∧ p.binding ∈ grouping.bindings

/-! ### Members -/

/-- Localized members are properties, in their order. -/
theorem ClassDecl.placed_sublist (c : ClassDecl) (table : MemberTable) :
    ((c.placed table).map fun p => p.binding.targetName).Sublist (propertyNames c.members) := by
  suffices h : ∀ records : List (MemberDecl × List Annotation),
      ((records.filterMap fun record => table.placed? record.1 record.2).map fun p => p.binding.targetName).Sublist
        (propertyNames (records.map Prod.fst)) from annotatedMembers_fst c ▸ h (annotatedMembers c).1
  intro records
  induction records with
  | nil => exact .slnil
  | cons record records ih =>
    rw [List.map_cons, Drafting.propertyNames_cons, List.filterMap_cons]
    cases hplaced : table.placed? record.1 record.2 with
    | none => exact ih.trans (List.sublist_append_right _ _)
    | some p =>
      obtain ⟨⟨decl, hdecl⟩, hname, -⟩ := MemberTable.of_placed? hplaced
      rw [List.map_cons, hdecl, hname]
      exact ih.cons_cons _

namespace Drafting

/-- The binding of a member is the one that its annotation asks for. -/
theorem yields_localeBinding (m : MemberDecl) {annotations : List Annotation} {a : Annotation}
    (ha : findKind .localized annotations = some a) (d : Draft) :
    Yields (localeBinding m a) d fun r _ => r = d.members.placed? m annotations := by
  unfold localeBinding MemberTable.placed? MemberDecl.property?
  rw [ha, Option.bind_eq_bind, Option.bind_some]
  split
  · rename_i hkind
    rw [hkind]
    rfl
  · rename_i p hkind
    rw [hkind, Option.bind_eq_bind, Option.bind_some]
    split
    · rfl
    · split
      · rename_i registry keyName hregistry hkeyName
        rw [hregistry, hkeyName]
        refine (yields_resolve keyName d).bind ?_
        rintro key d ⟨rfl, hkey⟩
        rw [Option.bind_eq_bind, Option.bind_some, Option.bind_eq_bind, Option.bind_some, hkey]
        split
        · rfl
        · refine (yields_resolve m.name d).bind ?_
          rintro target d ⟨rfl, htarget⟩
          rw [htarget]
          split <;> rfl
      · rename_i hnone
        cases hregistry : a.string? "ResourceName" with
        | none => rfl
        | some registry =>
          cases hkeyName : a.string? "KeyPropertyName" with
          | none => rfl
          | some keyName => exact absurd hkeyName (hnone registry keyName hregistry)

/-- The groups of a class are those of the bindings of its members. -/
theorem yields_localeGroups : ∀ (records : List (MemberDecl × List Annotation)) (groups : List LocaleGroup) (d : Draft),
    Yields (localeGroups records groups) d fun groups' _ =>
      groups' = (records.filterMap fun record => d.members.placed? record.1 record.2).foldl LocaleGroup.add groups
  | [], _, _ => rfl
  | (m, annotations) :: rest, groups, d => by
    unfold localeGroups
    rw [List.filterMap_cons]
    split
    · rename_i hnone
      have hplaced : d.members.placed? m annotations = none := by rw [MemberTable.placed?, hnone]; rfl
      rw [hplaced]
      exact yields_localeGroups rest groups d
    · rename_i a ha
      refine Yields.bind (Q := fun r d₁ => d₁.members = d.members ∧ r = d.members.placed? m annotations)
        ⟨(notes_localeBinding m a d).members, yields_localeBinding m ha d⟩ ?_
      rintro _ d₁ ⟨hmembers, rfl⟩
      rw [← hmembers]
      split
      · rename_i p hplaced
        rw [hplaced]
        exact yields_localeGroups rest _ d₁
      · rename_i hplaced
        rw [hplaced]
        exact yields_localeGroups rest groups d₁

/-- The groups of a model are those of the bindings of its class. -/
theorem yields_classModel_localeGroups (s : DeclarationSet) (c : ClassDecl) :
    Yields (classModel s c) ⟨[], declaredNames c, []⟩ fun model _ =>
      model.localeGroups = LocaleGroup.of (c.placed model.members) := by
  rw [classModel_eq]
  refine Yields.bind (Q := fun _ _ => True) trivial fun ps d₁ _ => ?_
  refine Yields.bind (Q := fun _ _ => True) trivial fun section_ d₂ _ => ?_
  refine Yields.bind (Q := fun _ _ => True) trivial fun ks d₃ _ => ?_
  refine Yields.bind (Q := fun groups d₄ => d₃.Noted d₄ ∧ groups = LocaleGroup.of (c.placed d₃.members))
    ⟨notes_localeGroups _ [] d₃, ?_⟩ fun groups d₄ h₄ => ?_
  · rw [← LocaleGroup.foldl_add]
    exact yields_localeGroups (annotatedMembers c).1 [] d₃
  · show groups = LocaleGroup.of (c.placed d₄.members)
    rw [h₄.1.members]
    exact h₄.2

end Drafting

/-- The locale bindings of a class without repeated names. -/
theorem localized_of_analyzeClass {s : DeclarationSet} {c : ClassDecl} {model : ClassModel}
    (analyzed : (s.analyzeClass c).1 = some model) (unrepeated : ∀ f ∈ (s.analyzeClass c).2, f.code ≠ "RX0002") :
    model.Localized c := by
  obtain ⟨draft, hfindings, ⟨hbuilt, -, -⟩, hgroups⟩ :=
    ((yields_classModel s c).and (Drafting.yields_classModel_localeGroups s c)).of_analyzeClass analyzed
  have hall : (LocaleGroup.all model.localeGroups).Perm ((c.placed model.members).map PlacedBinding.binding) :=
    hgroups ▸ LocaleGroup.perm_all _
  refine ⟨hgroups, hall, ?_, fun p hp => hgroups ▸ LocaleGroup.exists_mem hp⟩
  refine (hall.map LocaleBinding.targetName).nodup_iff.mpr ?_
  rw [List.map_map]
  exact (c.placed_sublist model.members).nodup (hbuilt.declared fun f hf => unrepeated f (hfindings ▸ hf))

end Reactive
