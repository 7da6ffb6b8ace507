import Reactive.Proofs.Binding
import Reactive.Proofs.Dangling
import Reactive.Proofs.Keyed
import Reactive.Proofs.Rejection

/-!
# Reactive.Proofs.Coherence — the numbers in a model go where they should

A model refers to properties, derived values and hoisted functions by number.  The numbers are given late, when the values
on cycles are gone, and roles, functions and the graph are filled in one after another.

* `DependencyGraph.sorted_dependents`, `DependencyGraph.sources_ofEdges`: the dependents of a property are in the order of
  their numbers, and there is one group for each source, in the order in which they are first met.
* `DerivedSection.Owned`: a value is projected by the function that it owns.
* `Drafting.yields_stagedSection_nodup`: no value has a source twice.
* `Drafting.yields_properties_reacts`: the properties of the reactive models have the role.
* `ClassModel.Coherent`, `model_coherent`: all of it.
-/

namespace Reactive

/-! ### The graph -/

namespace DependencyGraph

theorem addTo_eq_upsert (source : PropertyId) (target : DerivedId) : ∀ groups : List DependencyGroup,
    addTo source target groups = upsert DependencyGroup.source source
      (fun group => if group.targets.contains target then group else ⟨group.source, group.targets ++ [target]⟩)
      ⟨source, [target]⟩ groups
  | [] => rfl
  | group :: rest => by
    rw [addTo, upsert, addTo_eq_upsert source target rest]
    by_cases h : group.source = source
    · rw [if_pos h, if_pos h, h]
    · rw [if_neg h, if_neg h]

theorem ofEdges_concat (edges : List (PropertyId × DerivedId)) (e : PropertyId × DerivedId) :
    ofEdges (edges ++ [e]) = (ofEdges edges).addEdge e.1 e.2 := by
  simp [ofEdges, List.foldl_append]

/-- There is one group for each source, in the order in which they are first met. -/
theorem sources_ofEdges (edges : List (PropertyId × DerivedId)) :
    (ofEdges edges).groups.map DependencyGroup.source = (edges.map Prod.fst).eraseDups := by
  induction edges using List.reverseRecOn with
  | nil => rfl
  | append_singleton edges e ih =>
    have hkept (group : DependencyGroup) : DependencyGroup.source (if group.targets.contains e.2 then group
        else ⟨group.source, group.targets ++ [e.2]⟩) = group.source := by split <;> rfl
    rw [ofEdges_concat, List.map_append, List.map_singleton, eraseDups_concat, ← ih]
    show (addTo e.1 e.2 (ofEdges edges).groups).map DependencyGroup.source = _
    rw [addTo_eq_upsert]
    exact map_key_upsert hkept (by rfl) _

/-- No group is empty. -/
theorem targets_ne_nil (edges : List (PropertyId × DerivedId)) : ∀ group ∈ (ofEdges edges).groups, group.targets ≠ [] := by
  induction edges using List.reverseRecOn with
  | nil => exact nofun
  | append_singleton edges e ih =>
    intro group hgroup
    rw [ofEdges_concat, addEdge, addTo_eq_upsert] at hgroup
    obtain rfl | hold | ⟨old, hold, rfl⟩ := mem_upsert hgroup
    · exact List.cons_ne_nil _ _
    · exact ih group hold
    · split
      · exact ih old hold
      · simp

/-- What a group holds are the dependents of its source. -/
theorem targets_eq_dependents (edges : List (PropertyId × DerivedId)) {group : DependencyGroup}
    (h : group ∈ (ofEdges edges).groups) : group.targets = (ofEdges edges).dependents group.source := by
  have hnodup : ((ofEdges edges).groups.map DependencyGroup.source).Nodup := by
    rw [sources_ofEdges]
    exact nodup_eraseDups _
  rw [dependents, find?_key hnodup h]
  rfl

/-- If the targets of edges come in order, so do the dependents of a property. -/
theorem sorted_dependents {edges : List (PropertyId × DerivedId)} (h : edges.Pairwise fun e e' => e.2 ≤ e'.2)
    (source : PropertyId) : ((ofEdges edges).dependents source).Pairwise (· < ·) := by
  induction edges using List.reverseRecOn with
  | nil => exact List.Pairwise.nil
  | append_singleton edges e ih =>
    obtain ⟨hedges, -, hlast⟩ := List.pairwise_append.mp h
    rw [ofEdges_concat, dependents_addEdge]
    split
    · rename_i hsource
      subst hsource
      split
      · exact ih hedges
      · rename_i hnew
        refine List.pairwise_append.mpr ⟨ih hedges, List.pairwise_singleton _ _, fun d hd t ht => ?_⟩
        rw [List.mem_singleton.mp ht]
        have hle := hlast _ (mem_dependents_ofEdges.mp hd) e (List.mem_singleton.mpr rfl)
        exact lt_of_le_of_ne hle fun heq => hnew (heq ▸ hd)
    · exact ih hedges

end DependencyGraph

namespace DerivedSection

theorem pairwise_edges : ∀ (ds : List DerivedProperty) (id : DerivedId),
    (edges id ds).Pairwise (fun e e' => e.2 ≤ e'.2) ∧ ∀ e ∈ edges id ds, id ≤ e.2
  | [], _ => ⟨List.Pairwise.nil, nofun⟩
  | d :: ds, id => by
    obtain ⟨hpairs, hle⟩ := pairwise_edges ds (id + 1)
    have hown : ∀ e ∈ d.sources.map (·, id), e.2 = id := fun e he => by
      obtain ⟨source, -, rfl⟩ := List.mem_map.mp he
      rfl
    refine ⟨List.pairwise_append.mpr ⟨?_, hpairs, fun e he e' he' => ?_⟩, fun e he => ?_⟩
    · exact List.pairwise_of_forall_mem_list fun e he e' he' => by rw [hown e he, hown e' he']
    · rw [hown e he]
      exact le_of_lt (hle e' he')
    · obtain he | he := List.mem_append.mp he
      · exact (hown e he).ge
      · exact le_of_lt (hle e he)

theorem map_fst_edges : ∀ (ds : List DerivedProperty) (id : DerivedId),
    (edges id ds).map Prod.fst = ds.flatMap DerivedProperty.sources
  | [], _ => rfl
  | d :: ds, id => by
    rw [edges, List.map_append, List.map_map, map_fst_edges ds (id + 1), List.flatMap_cons]
    exact congrArg (· ++ _) (List.map_id d.sources)

/-! ### Hoisted functions -/

/-- A value is projected by the function that it owns, and by no other one. -/
def Owned (section_ : DerivedSection) : Prop :=
  ∀ d f, section_.derived[d]?.bind DerivedProperty.recompute = some (.hoisted f) ↔
    section_.statics[f]?.map HoistedFunction.owner = some d

theorem Owned.lt {section_ : DerivedSection} (h : section_.Owned) {d : DerivedId} {f : Nat}
    (hf : section_.statics[f]?.map HoistedFunction.owner = some d) : d < section_.derived.length := by
  obtain ⟨x, hx, -⟩ := Option.bind_eq_some_iff.mp ((h d f).mpr hf)
  exact (List.getElem?_eq_some_iff.mp hx).1

/-- One more value that is not projected. -/
theorem Owned.concat {section_ : DerivedSection} (h : section_.Owned) {x : DerivedProperty}
    (hx : ∀ f, x.recompute ≠ some (.hoisted f)) : Owned { section_ with derived := section_.derived ++ [x] } := by
  intro d f
  rw [← h d f]
  show (section_.derived ++ [x])[d]?.bind _ = _ ↔ _
  rw [List.getElem?_append]
  split
  · rfl
  · rename_i hd
    refine iff_of_false (fun hlast => ?_) fun hold => hd (h.lt ((h d f).mp hold))
    obtain ⟨y, hy, hrecompute⟩ := Option.bind_eq_some_iff.mp hlast
    exact hx f (List.mem_singleton.mp (List.mem_of_getElem? hy) ▸ hrecompute)

/-- One more value with one more function. -/
theorem Owned.concat_hoisted {section_ : DerivedSection} (h : section_.Owned) {x : DerivedProperty} {g : HoistedFunction}
    (hx : x.recompute = some (.hoisted section_.statics.length)) (hg : g.owner = section_.derived.length) :
    Owned { section_ with derived := section_.derived ++ [x], statics := section_.statics ++ [g] } := by
  intro d f
  show (section_.derived ++ [x])[d]?.bind _ = _ ↔ (section_.statics ++ [g])[f]?.map _ = _
  -- What is new belongs to what is new, and nothing new to what was there.
  by_cases hf : f < section_.statics.length
  · rw [List.getElem?_append_left hf, ← h d f]
    by_cases hd : d < section_.derived.length
    · rw [List.getElem?_append_left hd]
    · refine iff_of_false (fun hnew => ?_) fun hold => hd (h.lt ((h d f).mp hold))
      obtain ⟨y, hy, hrecompute⟩ := Option.bind_eq_some_iff.mp hnew
      rw [List.getElem?_append_right (Nat.le_of_not_lt hd)] at hy
      rw [List.mem_singleton.mp (List.mem_of_getElem? hy), hx] at hrecompute
      cases hrecompute
      exact lt_irrefl _ hf
  · have hnone : section_.statics[f]? = none := List.getElem?_eq_none (Nat.le_of_not_lt hf)
    rw [List.getElem?_append_right (Nat.le_of_not_lt hf)]
    by_cases hd : d < section_.derived.length
    · rw [List.getElem?_append_left hd, h d f, hnone]
      refine iff_of_false nofun fun hnew => ?_
      obtain ⟨y, hy, howner⟩ := Option.map_eq_some_iff.mp hnew
      rw [List.mem_singleton.mp (List.mem_of_getElem? hy), hg] at howner
      exact hd.ne howner.symm
    · rw [List.getElem?_append_right (Nat.le_of_not_lt hd), List.getElem?_singleton, List.getElem?_singleton]
      by_cases hlast : d = section_.derived.length ∧ f = section_.statics.length
      · obtain ⟨rfl, rfl⟩ := hlast
        simp [hx, hg]
      · refine iff_of_false (fun hvalue => hlast ?_) fun howner => hlast ?_
        · obtain ⟨y, hy, hrecompute⟩ := Option.bind_eq_some_iff.mp hvalue
          split at hy <;> cases hy
          rename_i hd'
          rw [hx] at hrecompute
          cases hrecompute
          exact ⟨Nat.le_antisymm (Nat.le_of_sub_eq_zero hd') (Nat.le_of_not_lt hd), rfl⟩
        · obtain ⟨y, hy, heq⟩ := Option.map_eq_some_iff.mp howner
          split at hy <;> cases hy
          exact ⟨heq.symm.trans hg, by omega⟩

/-- Staging keeps values and functions together. -/
theorem Owned.add {section_ : DerivedSection} (h : section_.Owned) (s : Staged) : (section_.add s).Owned := by
  unfold DerivedSection.add
  cases s.recompute with
  | none => exact h.concat nofun
  | some r =>
    cases r with
    | inline body => exact h.concat nofun
    | method name => exact h.concat nofun
    | projection param body function => exact h.concat_hoisted rfl rfl

theorem owned_ofStaged (kept : List Staged) : (ofStaged kept).Owned := by
  have hempty : Owned ⟨[], .empty, []⟩ := fun d f => iff_of_false nofun nofun
  exact List.foldlRecOn (motive := Owned) kept DerivedSection.add hempty fun _ h s _ => h.add s

end DerivedSection

/-! ### Sources -/

namespace Drafting

theorem yields_resolveSources_nodup (name : String) (a : Annotation) : ∀ (names : List String)
    (sources : List PropertyId) (d : Draft), sources.Nodup →
      Yields (resolveSources name a names sources) d fun ids _ => ids.Nodup
  | [], _, _, hsources => hsources
  | source :: rest, sources, d, hsources => by
    unfold resolveSources
    refine (yields_resolve source d).bind ?_
    rintro found d ⟨rfl, -⟩
    split
    · rename_i id
      refine yields_resolveSources_nodup name a rest _ d ?_
      split
      · exact hsources
      · rename_i hnew
        exact List.nodup_append.mpr ⟨hsources, List.nodup_singleton id, fun x hx y hy hxy =>
          hnew (List.contains_iff_mem.mpr (List.mem_singleton.mp hy ▸ hxy ▸ hx))⟩
    · exact Yields.bind (Q := fun _ _ => True) trivial fun _ d₁ _ => yields_resolveSources_nodup name a rest sources d₁ hsources

theorem yields_stageTarget_nodup (m : MemberDecl) (a : Annotation) (cache : CachePolicy) (notifies : Bool) (t : Target)
    (d : Draft) : Yields (stageTarget m a cache notifies t) d fun r _ => ∀ s, r = some s → s.sources.Nodup := by
  unfold stageTarget
  refine Yields.bind (Q := fun _ _ => True) trivial fun slot d₁ _ => ?_
  split
  · exact yields_none
  · refine Yields.bind (Q := fun _ _ => True) trivial fun free d₂ _ => ?_
    split
    · exact yields_none
    · refine (yields_resolveSources_nodup _ _ _ [] d₂ List.nodup_nil).bind fun ids d₃ hids => ?_
      refine Yields.bind (Q := fun _ _ => True) trivial fun _ d₄ _ => ?_
      rintro s ⟨⟩
      exact hids

theorem yields_stageObservable_nodup (m : MemberDecl) (a : Annotation) (d : Draft) :
    Yields (stageObservable m a) d fun r _ => ∀ s, r = some s → s.sources.Nodup := by
  unfold stageObservable
  split
  · exact yields_reject
  · split
    · exact yields_reject
    · exact yields_reject
    · split
      · exact yields_reject
      · refine Yields.bind (Q := fun _ _ => True) trivial fun id d₁ _ => ?_
        split
        · exact yields_none
        · refine Yields.bind (Q := fun _ _ => True) trivial fun owner d₂ _ => ?_
          split
          · exact yields_reject
          · rintro s ⟨⟩
            exact List.nodup_nil

theorem yields_stageMember_nodup (m : MemberDecl) (annotations : List Annotation) (d : Draft) :
    Yields (stageMember m annotations) d fun r _ => ∀ s, r = some s → s.sources.Nodup := by
  unfold stageMember
  split
  · exact yields_reject
  · rename_i a _ _
    obtain ⟨cache, notifies, ignored, heq⟩ := stageDerived_eq m a
    rw [heq]
    refine Yields.bind (Q := fun _ _ => True) trivial fun target d₁ _ => ?_
    split
    · exact yields_none
    · rename_i t
      split
      · exact Yields.bind (Q := fun _ _ => True) trivial fun _ d₂ _ => yields_stageTarget_nodup m a cache notifies t d₂
      · exact yields_stageTarget_nodup m a cache notifies t d₁
  · rename_i a _ _
    exact yields_stageObservable_nodup m a d
  · exact yields_none

theorem yields_stageAll_nodup : ∀ (records : List (MemberDecl × List Annotation)) (d : Draft),
    Yields (stageAll records) d fun staged _ => ∀ s ∈ staged, s.sources.Nodup
  | [], _ => nofun
  | (m, annotations) :: rest, d => by
    unfold stageAll
    refine (yields_stageMember_nodup m annotations d).bind fun result d₁ h₁ => ?_
    split
    · refine (yields_stageAll_nodup rest d₁).bind fun staged d₂ h₂ => ?_
      exact List.forall_mem_cons.mpr ⟨h₁ _ rfl, h₂⟩
    · exact yields_stageAll_nodup rest d₁

/-- No staged value has a source twice. -/
theorem yields_stagedSection_nodup (c : ClassDecl) (records : List (MemberDecl × List Annotation)) (d : Draft) :
    Yields (stagedSection c records) d fun staged _ => ∀ s ∈ staged, s.sources.Nodup := by
  refine (yields_stageAll_nodup records d).bind fun staged d₁ h₁ => ?_
  refine yields_mergeAll (P := fun staged _ => ∀ s ∈ staged, s.sources.Nodup) (fun _ _ _ h _ => h) c ?_ records staged d₁ h₁
  intro m a source staged target d _ h
  refine (yields_announce c m a source staged target d).imp ?_
  rintro staged' d' ⟨-, rfl | ⟨index, s, hs, -, hnew, rfl⟩ | ⟨id, info, -, -, -, -, rfl⟩⟩
  · exact h
  · intro t ht
    obtain ⟨i, hi⟩ := List.mem_iff_getElem?.mp ht
    rw [List.getElem?_modify] at hi
    obtain ⟨u, hu, rfl⟩ := Option.map_eq_some_iff.mp hi
    have hnodup := h u (List.mem_of_getElem? hu)
    split
    · rename_i heq
      subst heq
      obtain rfl := Option.some.inj (hs.symm.trans hu)
      exact List.nodup_append.mpr ⟨hnodup, List.nodup_singleton source, fun x hx y hy hxy =>
        hnew (List.mem_singleton.mp hy ▸ hxy ▸ hx)⟩
    · exact hnodup
  · exact List.forall_mem_append.mpr ⟨h, List.forall_mem_singleton.mpr (List.nodup_singleton source)⟩

/-! ### Reactive properties -/

theorem reacts_setRole {d : Draft} {id : PropertyId} (h : id < d.members.length) : (setRole id .mutable d).2.Reacts id := by
  show (d.members.modify id _)[id]?.map PropertyInfo.role = _
  rw [List.getElem?_modify, List.getElem?_eq_getElem h]
  simp

theorem reacts_setRole_of_reacts {d : Draft} {id : PropertyId} (h : d.Reacts id) (id' : PropertyId) :
    (setRole id' .mutable d).2.Reacts id := by
  show (d.members.modify id' _)[id]?.map PropertyInfo.role = _
  obtain ⟨i, hi, hrole⟩ := Option.map_eq_some_iff.mp h
  rw [List.getElem?_modify, hi]
  by_cases heq : id' = id <;> simp [heq, hrole]

/-- The properties of reactive models have the role of one. -/
theorem yields_mutableProperties_reacts : ∀ (records : List (MemberDecl × List Annotation)) (d : Draft),
    Yields (mutableProperties records) d fun ps d' => (∀ id, d.Reacts id → d'.Reacts id) ∧
      ∀ p ∈ ps, p.id < d.members.length → d'.Reacts p.id
  | [], _ => ⟨fun _ h => h, nofun⟩
  | (m, annotations) :: rest, d => by
    unfold mutableProperties
    split
    · exact yields_mutableProperties_reacts rest d
    · rename_i a _
      refine Yields.bind (Q := fun _ d₁ => d₁.members = d.members) (notes_mutableProperty m a d).members
        fun result d₁ hmembers => ?_
      have hreacts {id : PropertyId} (h : d.Reacts id) : d₁.Reacts id := by rwa [Draft.Reacts, hmembers]
      split
      · refine (yields_mutableProperties_reacts rest d₁).imp fun ps d₂ h => ?_
        exact ⟨fun id hid => h.1 id (hreacts hid), fun p hp hlt => h.2 p hp (hmembers ▸ hlt)⟩
      · rename_i p
        refine Yields.bind (Q := fun _ d₂ => d₂ = (setRole p.id .mutable d₁).2) rfl ?_
        rintro _ _ rfl
        have hlength : (setRole p.id .mutable d₁).2.members.length = d.members.length := by
          rw [← hmembers]
          exact List.length_modify ..
        refine (yields_mutableProperties_reacts rest _).bind fun ps d₃ h => ?_
        refine ⟨fun id hid => h.1 id (reacts_setRole_of_reacts (hreacts hid) p.id),
          List.forall_mem_cons.mpr ⟨fun hlt => ?_, fun q hq hlt => h.2 q hq (hlength ▸ hlt)⟩⟩
        exact h.1 p.id (reacts_setRole (hmembers ▸ hlt))

theorem yields_properties_reacts (c : ClassDecl) :
    Yields (properties c) ⟨[], declaredNames c, []⟩ fun ps d => ∀ p ∈ ps, p.id < d.members.length → d.Reacts p.id := by
  unfold properties
  refine Yields.bind (Q := fun _ _ => True) trivial fun _ d₁ _ => ?_
  refine Yields.bind (Q := fun _ _ => True) trivial fun _ d₂ _ => ?_
  have hreacts := yields_mutableProperties_reacts (annotatedMembers c).1 d₂
  refine (hreacts.and (yields_mutableProperties_fixed _ d₂)).imp fun ps d₃ h p hp hlt => h.1.2 p hp ?_
  have hlength := congrArg List.length h.2
  rw [List.length_map, List.length_map] at hlength
  rwa [← hlength]

end Drafting

/-! ### Whole models -/

namespace ClassModel

/-- The property of the number has the name. -/
def Names (m : ClassModel) (id : PropertyId) (name : String) : Prop :=
  m.members[id]?.map PropertyInfo.name = some name

/-- The numbers in a model go where they should.  The number of a property, a derived value or a hoisted function is its
place in its list. -/
structure Coherent (m : ClassModel) : Prop where
  /-- Where a name stands beside the number of a property, that property has it. -/
  mutable : ∀ p ∈ m.mutableProperties, m.Names p.id p.name
  derived : ∀ d ∈ m.derived, m.Names d.property d.name
  gates : ∀ k ∈ m.commands, ∀ e, k.enablement = some e → m.Names e.property e.name
  bindings : ∀ b ∈ LocaleGroup.all m.localeGroups, m.Names b.key b.keyName ∧ m.Names b.target b.targetName
  /-- A property has the role of the derived value that it is the property of, -/
  derivedRole : ∀ id d, m.members[id]?.map PropertyInfo.role = some (.derived d) ↔
    m.derived[d]?.map DerivedProperty.property = some id
  /-- or of a reactive one, if it is the property of one model of those. -/
  mutableRole : ∀ id, m.members[id]?.map PropertyInfo.role = some .mutable ↔
    (m.mutableProperties.map MutableProperty.id).count id = 1
  /-- A value is projected by the function that it owns. -/
  owned : ∀ d f, m.derived[d]?.bind DerivedProperty.recompute = some (.hoisted f) ↔
    m.statics[f]?.map HoistedFunction.owner = some d
  sources : ∀ d ∈ m.derived, d.sources.Nodup ∧ ∀ id ∈ d.sources, id < m.members.length
  /-- The values that have a property among their sources, in the order of their numbers. -/
  dependents : ∀ id, (m.graph.dependents id).Pairwise (· < ·) ∧
    ∀ d, d ∈ m.graph.dependents id ↔ ∃ x, m.derived[d]? = some x ∧ id ∈ x.sources
  /-- One group for each source, in the order in which they are first met. -/
  groups : m.graph.groups.map DependencyGroup.source = (m.derived.flatMap DerivedProperty.sources).eraseDups
  targets : ∀ group ∈ m.graph.groups, group.targets = m.graph.dependents group.source ∧ group.targets ≠ []

end ClassModel

namespace Drafting

/-- What enables a command has the name that goes with it, a value is projected by the function that it owns, and the
properties with the role of a reactive one are those of the reactive models. -/
theorem yields_classModel_linked (s : DeclarationSet) (c : ClassDecl) :
    Yields (classModel s c) ⟨[], declaredNames c, []⟩ fun model _ =>
      (∀ k ∈ model.commands, ∀ e, k.enablement = some e → model.Names e.property e.name) ∧
      (∀ d f, model.derived[d]?.bind DerivedProperty.recompute = some (.hoisted f) ↔
        model.statics[f]?.map HoistedFunction.owner = some d) ∧
      (model.Orderly → ∀ id, model.members[id]?.map PropertyInfo.role = some .mutable ↔
        ∃ p ∈ model.mutableProperties, p.id = id) := by
  have hmem : ∀ m ∈ (annotatedMembers c).1.map Prod.fst, m ∈ c.members := by
    rw [annotatedMembers_fst]
    exact fun _ h => h
  rw [classModel_eq]
  refine ((yields_properties c).and (yields_properties_reacts c)).bind fun ps d₁ h₁ => ?_
  obtain ⟨⟨-, hps, -, -, -, hunderived, -, hreacts⟩, hmutable⟩ := h₁
  have hadded := adds_stagedSection c (annotatedMembers c).1 d₁
  have hstages := yields_stagedSection_stages c d₁
  refine (yields_derivedSection c (annotatedMembers c).1 d₁).bind ?_
  rintro _ d₃ ⟨rfl, hnumbered, -⟩
  unfold Yields at hstages
  generalize stagedSection c (annotatedMembers c).1 d₁ = result at hadded hstages hnumbered ⊢
  obtain ⟨staged, d₂⟩ := result
  refine Yields.bind (Q := fun (ks : List CommandModel) d₄ => d₃.Noted d₄ ∧
      ∀ k ∈ ks, ∀ e, k.enablement = some e → e.Bound d₃.members)
    ⟨notes_commands _ d₃, fun k hk => (yields_commands (c := c) _ d₃ hmem k hk).2.2⟩ fun ks d₄ h₄ => ?_
  obtain ⟨h₄, hgates⟩ := h₄
  refine Yields.bind (Q := fun _ d₅ => d₄.Noted d₅) (notes_localeGroups _ [] d₄) fun groups d₅ h₅ => ?_
  have hmembers : d₅.members = d₃.members := (h₄.trans h₅).members
  refine ⟨fun k hk e he => ?_, DerivedSection.owned_ofStaged _, fun horderly id => ?_⟩
  · obtain ⟨i, hi, hname, -⟩ := hgates k hk e he
    show d₅.members[e.property]?.map PropertyInfo.name = _
    rw [hmembers, hi, ← hname]
    rfl
  -- A value that is kept is the value of its property.
  have hkept {t : Staged} (ht : t ∈ Staged.acyclic staged) :
      ∃ e ∈ (DerivedSection.ofStaged (Staged.acyclic staged)).derived, e.property = t.property := by
    obtain ⟨ds, fs, hsection, hof, -⟩ := DerivedSection.ofStaged_eq (Staged.acyclic staged)
    obtain ⟨e, he, het⟩ := exists_mem_right hof ht
    exact ⟨e, hsection ▸ he, het.property⟩
  constructor
  · intro hrole
    obtain ⟨i, hi, hirole⟩ := Option.map_eq_some_iff.mp hrole
    have hi₃ : d₃.members[id]? = some i := hmembers ▸ hi
    obtain hreact | ⟨t, ht, rfl⟩ := hnumbered.announced (hadded.underived hunderived) hi₃ (by rw [hirole]; exact nofun)
    · obtain hreact | hnone := hadded.reactive id hreact
      · exact hreacts id hreact
      · cases hnone
    · obtain ⟨e, he, hproperty⟩ := hkept ht
      obtain ⟨j, hj⟩ := List.mem_iff_getElem?.mp he
      have hderived := (horderly.roles t.property j).mpr ⟨e, hj, hproperty⟩
      cases hrole.symm.trans hderived
  · rintro ⟨p, hp, rfl⟩
    have hlt : p.id < d₁.members.length := MemberTable.lt_of_resolve? (hps p hp).2
    obtain ⟨infos, hgrown, -⟩ := hstages.grown
    have hothers : d₃.members[p.id]? = d₂.members[p.id]? := by
      refine hnumbered.others p.id fun t ht heq => ?_
      obtain ⟨e, he, hproperty⟩ := hkept ht
      -- Otherwise the names would be the same.
      obtain ⟨i, hi, hpname⟩ := MemberTable.name_of_resolve? (horderly.mutable p hp)
      obtain ⟨j, hj, hename⟩ := MemberTable.name_of_resolve? (horderly.derived e he)
      rw [hproperty, heq] at hj
      exact horderly.apart p hp e he (by rw [← hpname, ← hename, Option.some.inj (hi.symm.trans hj)])
    show d₅.members[p.id]?.map PropertyInfo.role = some .mutable
    rw [hmembers, hothers, hgrown, List.getElem?_append_left hlt]
    exact hmutable p hp hlt

end Drafting

theorem ClassDecl.staged_nodup (c : ClassDecl) : ∀ t ∈ c.staged, t.sources.Nodup := by
  show Drafting.Yields (do let _ ← Drafting.properties c
                           Drafting.stagedSection c (annotatedMembers c).1 : Drafting (List Staged)) _
    fun staged _ => ∀ t ∈ staged, t.sources.Nodup
  exact Drafting.Yields.bind (Q := fun _ _ => True) trivial fun _ d _ =>
    Drafting.yields_stagedSection_nodup c (annotatedMembers c).1 d

/-- **Models are coherent.**  If no name is found to be taken, the numbers in the model of a class go where they should. -/
theorem model_coherent {s : DeclarationSet} {c : ClassDecl} {model : ClassModel}
    (analyzed : (s.analyzeClass c).1 = some model) (unrepeated : ∀ f ∈ (s.analyzeClass c).2, f.code ≠ "RX0002") :
    model.Coherent := by
  have hyields := (((yields_classModel s c).and (Drafting.yields_classModel_refers s c)).and
    (Drafting.yields_classModel_linked s c)).and (Drafting.yields_classModel_localeGroups s c)
  obtain ⟨draft, hfindings, ⟨⟨⟨hbuilt, -, -⟩, hrefers, -, -⟩, hgates, howned, hmutable⟩, hlocale⟩ :=
    hyields.of_analyzeClass analyzed
  have horderly := hbuilt.orderly fun f hf => unrepeated f (hfindings ▸ hf)
  have hnames {name : String} {id : PropertyId} (h : model.members.resolve? name = some id) : model.Names id name := by
    obtain ⟨i, hi, hname⟩ := MemberTable.name_of_resolve? h
    rw [ClassModel.Names, hi, ← hname]
    rfl
  have hgraph := hbuilt.analyzed.graph
  refine ⟨fun p hp => hnames (horderly.mutable p hp), fun d hd => hnames (horderly.derived d hd), hgates,
    fun b hb => ?_, fun id d => ?_, fun id => ?_, howned, fun d hd => ⟨?_, fun id hid => hrefers id (.source hd hid)⟩,
    fun id => ⟨?_, fun d => ?_⟩, ?_, fun group hgroup => ?_⟩
  · rw [hlocale] at hb
    obtain ⟨p, hp, rfl⟩ := List.mem_map.mp ((LocaleGroup.perm_all _).mem_iff.mp hb)
    obtain ⟨record, -, hplaced⟩ := List.mem_filterMap.mp hp
    obtain ⟨-, hname, hkey, htarget⟩ := MemberTable.of_placed? hplaced
    exact ⟨hnames hkey, hnames (hname ▸ htarget)⟩
  · rw [horderly.roles, Option.map_eq_some_iff]
  · -- Two reactive properties of a number would have one name.
    have hnodup : (model.mutableProperties.map MutableProperty.id).Nodup := by
      refine List.pairwise_map.mpr ((List.pairwise_map.mp hbuilt.analyzed.distinct).imp_of_mem fun hp hq hne heq => hne ?_)
      have hp' := hnames (horderly.mutable _ hp)
      rw [heq] at hp'
      exact Option.some.inj (hp'.symm.trans (hnames (horderly.mutable _ hq)))
    rw [hmutable horderly, ← List.mem_map]
    exact ⟨fun hid => List.count_eq_one_of_mem hnodup hid, fun hone => List.count_pos_iff.mp (hone ▸ Nat.one_pos)⟩
  · obtain ⟨t, ht, hdt⟩ := exists_mem_left hbuilt.kept hd
    rw [hdt.sources]
    exact c.staged_nodup t ((Staged.acyclic_sublist _).subset ht)
  · rw [hgraph]
    exact DependencyGraph.sorted_dependents (DerivedSection.pairwise_edges model.derived 0).1 id
  · rw [hgraph, DependencyGraph.mem_dependents_ofEdges, DerivedSection.mem_edges]
    constructor
    · rintro ⟨j, x, hx, rfl, hid⟩
      exact ⟨x, by rwa [Nat.zero_add], hid⟩
    · rintro ⟨x, hx, hid⟩
      exact ⟨d, x, hx, (Nat.zero_add d).symm, hid⟩
  · rw [hgraph, DependencyGraph.sources_ofEdges, DerivedSection.map_fst_edges]
  · rw [hgraph] at hgroup ⊢
    exact ⟨DependencyGraph.targets_eq_dependents _ hgroup, DependencyGraph.targets_ne_nil _ group hgroup⟩

/-- A workshop in which the first two values are computed from each other; the shade of the lamp is projected, changes of
the heat are announced for a note, and the title comes from a registry. -/
def workshop : ClassDecl where
  name := "Workshop"
  typeParams := []
  modifiers := [.partial_]
  bases := [⟨"IReactiveObject", [], false⟩]
  members :=
    [derivedFrom "There" ["Back"] (.name "Back" .none),
      derivedFrom "Back" ["There"] (.name "There" .none),
      ⟨"Shade", [⟨"Derived", [⟨none, .string "Heat", .none⟩], .none⟩], [],
        .property ⟨⟨"int", [], false⟩, some ⟨some (.call (.member (.this .none) "To" .none)
          [.lambda true "x" (.member (.name "x" .none) "Heat" .none) .none] .none), .none⟩, none, none⟩, .none, .none⟩,
      ⟨"Warm", [⟨"Derived", [⟨none, .string "Shade", .none⟩, ⟨none, .string "Heat", .none⟩,
            ⟨none, .string "Heat", .none⟩], .none⟩], [],
        .property ⟨⟨"bool", [], false⟩,
          some ⟨some (.binary .greater (.name "Shade" .none) (.name "Heat" .none) .none), .none⟩, none, none⟩,
        .none, .none⟩,
      ⟨"Heat", [⟨"Reactive", [], .none⟩, ⟨"NotifyFor", [⟨none, .string "Note", .none⟩], .none⟩], [],
        .property ⟨⟨"int", [], false⟩, some ⟨none, .none⟩, some ⟨none, .none⟩, none⟩, .none, .none⟩,
      ⟨"Note", [], [], .property ⟨⟨"int", [], false⟩, some ⟨some (.name "Heat" .none), .none⟩, none, none⟩, .none, .none⟩,
      ⟨"Title", [⟨"Localized", [⟨none, .string "Shop", .none⟩, ⟨none, .string "Note", .none⟩], .none⟩], [],
        .property ⟨⟨"string", [], false⟩, some ⟨none, .none⟩, none, none⟩, .none, .none⟩,
      ⟨"Work", [⟨"Command", [⟨some "CanExecute", .string "Warm", .none⟩], .none⟩], [],
        .method ⟨⟨"void", [], false⟩, [], none⟩, .none, .none⟩]
  nameSpan := .none
  span := .none

/-- The file that declares a workshop and nothing else. -/
def workshopFile : DeclarationSet := ⟨"", "", ⟨[], none, [workshop]⟩, default⟩

/-- The model of a workshop. -/
def workshopModel : ClassModel := (workshopFile.analyzeClass workshop).1.get (by decide +kernel)

/-- Without the first two, the values of a workshop are numbered anew. -/
theorem model_coherent_workshop :
    (workshopFile.analyzeClass workshop).1 = some workshopModel ∧
    (∀ f ∈ (workshopFile.analyzeClass workshop).2, f.code ≠ "RX0002") ∧
    workshopModel.members.map (fun i => (i.name, i.role)) = [("There", .plain), ("Back", .plain), ("Shade", .derived 0),
      ("Warm", .derived 1), ("Heat", .mutable), ("Note", .derived 2), ("Title", .plain)] ∧
    workshopModel.derived.map (fun d => (d.name, d.property, d.sources)) =
      [("Shade", 2, [4]), ("Warm", 3, [2, 4]), ("Note", 5, [4])] ∧
    workshopModel.statics.map HoistedFunction.owner = [0] ∧
    workshopModel.graph.groups = [⟨4, [0, 1, 2]⟩, ⟨2, [1]⟩] ∧
    workshopModel.Coherent := by
  have hmodel : (workshopFile.analyzeClass workshop).1 = some workshopModel := (Option.some_get _).symm
  have hunrepeated : ∀ f ∈ (workshopFile.analyzeClass workshop).2, f.code ≠ "RX0002" := by decide +kernel
  exact ⟨hmodel, hunrepeated, by decide +kernel, by decide +kernel, by decide +kernel, by decide +kernel,
    model_coherent hmodel hunrepeated⟩

end Reactive
