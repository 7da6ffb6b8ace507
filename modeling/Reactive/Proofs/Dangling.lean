import Reactive.Proofs.Commands
import Reactive.Proofs.Names
import Reactive.Proofs.Propagation

/-!
# Reactive.Proofs.Dangling — references to properties that are not generated

A model refers to properties by number: the sources of a derived value and the groups of the graph, the property that
enables a command, the key and the target of a localized property.  The property of a derived method enters the table
before it is known whether its value can be generated, and stays there if it cannot, so a source or a key may be one of
a value that was rejected.  Then the rejection has been reported as an error.

* `Staged.Bound`: the sources of a staged value are in the table.
* `ClassModel.Refers`: what a model refers to.
* `references_generated_or_reported`: everything that is referred to is declared or generated, or else an error says why
  not; what enables a command always is.
-/

namespace Reactive

/-! ### Sources -/

/-- A staged value is known as the property of its name, and its sources are in the table. -/
structure Staged.Bound (s : Staged) (table : MemberTable) : Prop where
  known : table[s.property]?.map PropertyInfo.name = some s.name
  sources : ∀ id ∈ s.sources, id < table.length

theorem Draft.Later.length_le {d d' : Draft} (h : d.Later d') : d.members.length ≤ d'.members.length := by
  simpa using h.members.length_le

/-- A property that was there before has one of the names from before. -/
theorem Draft.Later.name_mem {d d' : Draft} (h : d.Later d') {id : PropertyId} (hold : id < d.members.length)
    {i : PropertyInfo} (hi : d'.members[id]? = some i) : i.name ∈ d.names := by
  have hname : d.members[id]?.map PropertyInfo.name = some d.members[id].name := by
    rw [List.getElem?_eq_getElem hold]
    rfl
  have hkept := h.name_getElem? hname
  rw [hi, Option.map_some, Option.some.injEq] at hkept
  rw [hkept]
  exact List.mem_map_of_mem (List.getElem_mem hold)

theorem Staged.Bound.later {s : Staged} {d d' : Draft} (h : s.Bound d.members) (hlater : d.Later d') :
    s.Bound d'.members := by
  refine ⟨hlater.name_getElem? h.known, fun id hid => ?_⟩
  exact lt_of_lt_of_le (h.sources id hid) hlater.length_le

theorem MemberTable.lt_of_resolve? {t : MemberTable} {name : String} {id : PropertyId} (h : t.resolve? name = some id) :
    id < t.length := (List.findIdx?_eq_some_iff_getElem.mp h).1

namespace Drafting

theorem yields_resolveSources_bound (name : String) (a : Annotation) : ∀ (names : List String)
    (sources : List PropertyId) (d : Draft), (∀ id ∈ sources, id < d.members.length) →
      Yields (resolveSources name a names sources) d fun ids d' => ∀ id ∈ ids, id < d'.members.length
  | [], _, _, hsources => hsources
  | source :: rest, sources, d, hsources => by
    unfold resolveSources
    refine (yields_resolve source d).bind ?_
    rintro found d ⟨rfl, hfound⟩
    split
    · rename_i id
      refine yields_resolveSources_bound name a rest _ d ?_
      split
      · exact hsources
      · intro id' hid'
        rcases List.mem_append.mp hid' with hid' | hid'
        · exact hsources id' hid'
        · rw [List.mem_singleton.mp hid']
          exact MemberTable.lt_of_resolve? hfound
    · refine Yields.bind (Q := fun _ d₁ => d.Noted d₁) (notes_report _ _ rfl d) fun _ d₁ h₁ => ?_
      exact yields_resolveSources_bound name a rest sources d₁ (h₁.members ▸ hsources)

theorem yields_stageTarget_bound (m : MemberDecl) (a : Annotation) (cache : CachePolicy) (notifies : Bool) {t : Target}
    {d : Draft} (ht : t.Known d) :
    Yields (stageTarget m a cache notifies t) d fun r d' => ∀ s, r = some s → s.Bound d'.members := by
  unfold stageTarget
  refine Yields.bind (Q := fun _ d₁ => d.Later d₁) ((notes_cacheSlot _ _ _).yields d) fun slot d₁ h₁ => ?_
  split
  · exact yields_none
  · refine Yields.bind (Q := fun _ d₂ => d₁.Later d₂) ((notes_claimFunction _ _ _).yields d₁) fun free d₂ h₂ => ?_
    split
    · exact yields_none
    · refine Yields.bind (Q := fun ids d₃ => d₂.Later d₃ ∧ ∀ id ∈ ids, id < d₃.members.length)
        ⟨(notes_resolveSources _ _ _ _).yields d₂, yields_resolveSources_bound _ _ _ [] d₂ nofun⟩ fun ids d₃ h₃ => ?_
      refine Yields.bind (Q := fun _ d₄ => d₃.Later d₄) ((notes_checkReads _ _ _).yields d₃) fun _ d₄ h₄ => ?_
      rintro s ⟨⟩
      exact Staged.Bound.later ⟨ht.later ((h₁.trans h₂).trans h₃.1), h₃.2⟩ h₄

theorem yields_stageDerived_bound (m : MemberDecl) (a : Annotation) (d : Draft) :
    Yields (stageDerived m a) d fun r d' => ∀ s, r = some s → s.Bound d'.members := by
  obtain ⟨cache, notifies, ignored, heq⟩ := stageDerived_eq m a
  rw [heq]
  refine (yields_derivedTarget_stages m a cache d).bind fun target d₁ htarget => ?_
  split
  · exact yields_none
  · rename_i t
    have ht := htarget.2 t rfl
    split
    · refine Yields.bind (Q := fun _ d₂ => d₁.Later d₂) ((notes_report _ _ rfl).yields d₁) fun _ d₂ h₂ => ?_
      exact yields_stageTarget_bound m a cache notifies (ht.later h₂)
    · exact yields_stageTarget_bound m a cache notifies ht

theorem yields_stageObservable_bound (m : MemberDecl) (a : Annotation) (d : Draft) :
    Yields (stageObservable m a) d fun r d' => ∀ s, r = some s → s.Bound d'.members := by
  unfold stageObservable
  split
  · exact yields_reject
  · split
    · exact yields_reject
    · exact yields_reject
    · split
      · exact yields_reject
      · refine (yields_resolve m.name d).bind ?_
        rintro id d ⟨rfl, hid⟩
        split
        · exact yields_none
        · rcases MemberTable.name_of_resolve? hid with ⟨i, hi, hname⟩
          refine Yields.bind (Q := fun _ d₁ => d.Later d₁) ((notes_claim _ _).yields d) fun owner d₁ h₁ => ?_
          split
          · exact yields_reject
          · rintro s ⟨⟩
            exact Staged.Bound.later ⟨by rw [hi, ← hname]; rfl, nofun⟩ h₁

theorem yields_stageMember_bound (m : MemberDecl) (annotations : List Annotation) (d : Draft) :
    Yields (stageMember m annotations) d fun r d' => ∀ s, r = some s → s.Bound d'.members := by
  unfold stageMember
  split
  · exact yields_reject
  · exact yields_stageDerived_bound m _ d
  · exact yields_stageObservable_bound m _ d
  · exact yields_none

theorem yields_stageAll_bound : ∀ (records : List (MemberDecl × List Annotation)) (d : Draft),
    Yields (stageAll records) d fun staged d' => ∀ s ∈ staged, s.Bound d'.members
  | [], _ => nofun
  | (m, annotations) :: rest, d => by
    unfold stageAll
    refine (yields_stageMember_bound m annotations d).bind fun result d₁ h₁ => ?_
    split
    · refine ((yields_stageAll_bound rest d₁).and_later (adds_stageAll rest)).bind fun staged d₂ h₂ => ?_
      exact List.forall_mem_cons.mpr ⟨(h₁ _ rfl).later h₂.2, h₂.1⟩
    · exact yields_stageAll_bound rest d₁

/-- The property that announces changes is in the table. -/
theorem yields_mergeAll_bound (c : ClassDecl) (records : List (MemberDecl × List Annotation)) (staged : List Staged)
    (d : Draft) (h : ∀ s ∈ staged, s.Bound d.members) :
    Yields (mergeAll c records staged) d fun staged' d' => ∀ s ∈ staged', s.Bound d'.members := by
  refine yields_mergeAll (P := fun staged d => ∀ s ∈ staged, s.Bound d.members)
    (fun _ _ _ h hnoted s hs => (h s hs).later hnoted.added.toLater) c ?_ records staged d h
  intro m a source staged target d hsource h
  refine (yields_announce c m a source staged target d).imp fun staged' d' hannounced => ?_
  rcases hannounced with ⟨hnoted, rfl | ⟨index, s, hs, -, -, rfl⟩ | ⟨id, info, hid, -, hinfo, -, rfl⟩⟩
  · exact fun s hs => (h s hs).later hnoted.added.toLater
  · intro t ht
    refine Staged.Bound.later (d := d) ?_ hnoted.added.toLater
    obtain ⟨t', ht', heq⟩ := mem_of_mem_modify ht
    have hbound := h t' ht'
    rcases heq with rfl | rfl
    · exact hbound
    · refine ⟨hbound.known, fun id hid => ?_⟩
      rcases List.mem_append.mp hid with hid | hid
      · exact hbound.sources id hid
      · rwa [List.mem_singleton.mp hid]
  · intro t ht
    refine Staged.Bound.later (d := d) ?_ hnoted.added.toLater
    rcases List.mem_append.mp ht with ht | ht
    · exact h t ht
    · rcases MemberTable.name_of_resolve? hid with ⟨i, hi, hname⟩
      obtain rfl := List.mem_singleton.mp ht
      refine ⟨?_, List.forall_mem_singleton.mpr hsource⟩
      show d.members[id]?.map PropertyInfo.name = some info.name
      rw [hi, MemberTable.name_of_find? hinfo, ← hname]
      rfl

theorem yields_stagedSection_bound (c : ClassDecl) (records : List (MemberDecl × List Annotation)) (d : Draft) :
    Yields (stagedSection c records) d fun staged d' => ∀ s ∈ staged, s.Bound d'.members :=
  (yields_stageAll_bound records d).bind fun staged d₁ h => yields_mergeAll_bound c records staged d₁ h

end Drafting

/-! ### Locale bindings -/

/-- The key and the target of a binding are in the table. -/
def LocaleBinding.Bound (b : LocaleBinding) (table : MemberTable) : Prop :=
  b.key < table.length ∧ b.target < table.length

namespace Drafting

theorem yields_localeBinding_bound (m : MemberDecl) (a : Annotation) (d : Draft) :
    Yields (localeBinding m a) d fun r _ => ∀ p : PlacedBinding, r = some p → p.binding.Bound d.members := by
  unfold localeBinding
  split
  · exact yields_reject
  · split
    · exact yields_reject
    · split
      · rename_i registry keyName _ _
        refine (yields_resolve keyName d).bind ?_
        rintro key d ⟨rfl, hkey⟩
        split
        · exact yields_reject
        · refine (yields_resolve m.name d).bind ?_
          rintro target d ⟨rfl, htarget⟩
          split
          · exact yields_none
          · rintro p ⟨⟩
            exact ⟨MemberTable.lt_of_resolve? hkey, MemberTable.lt_of_resolve? htarget⟩
      · exact yields_reject

end Drafting

/-- A binding is one of the groups. -/
def LocaleGroup.Has (groups : List LocaleGroup) (b : LocaleBinding) : Prop :=
  ∃ group ∈ groups, ∃ grouping ∈ group.groupings, b ∈ grouping.bindings

namespace LocaleGroup

theorem mem_addToGroupings {p : PlacedBinding} {b : LocaleBinding} : ∀ (groupings : List LocaleGrouping),
    (∃ g ∈ addToGroupings p groupings, b ∈ g.bindings) → b = p.binding ∨ ∃ g ∈ groupings, b ∈ g.bindings
  | [], h => by
    rcases h with ⟨g, hg, hb⟩
    obtain rfl := List.mem_singleton.mp hg
    exact Or.inl (List.mem_singleton.mp hb)
  | g :: rest, h => by
    unfold addToGroupings at h
    split at h
    · rcases h with ⟨g', hg', hb⟩
      rcases List.mem_cons.mp hg' with rfl | hg'
      · rcases List.mem_append.mp hb with hb | hb
        · exact Or.inr ⟨g, List.mem_cons_self, hb⟩
        · exact Or.inl (List.mem_singleton.mp hb)
      · exact Or.inr ⟨g', List.mem_cons_of_mem _ hg', hb⟩
    · rcases h with ⟨g', hg', hb⟩
      rcases List.mem_cons.mp hg' with rfl | hg'
      · exact Or.inr ⟨g', List.mem_cons_self, hb⟩
      · rcases mem_addToGroupings rest ⟨g', hg', hb⟩ with rfl | ⟨g'', hg'', hb⟩
        · exact Or.inl rfl
        · exact Or.inr ⟨g'', List.mem_cons_of_mem _ hg'', hb⟩

/-- A binding is put into one group, and the other bindings stay. -/
theorem has_add {p : PlacedBinding} {b : LocaleBinding} : ∀ (groups : List LocaleGroup),
    Has (add groups p) b → b = p.binding ∨ Has groups b
  | [], h => by
    rcases h with ⟨group, hgroup, hb⟩
    obtain rfl := List.mem_singleton.mp hgroup
    exact (mem_addToGroupings [] hb).imp_right fun ⟨_, hnil, _⟩ => nomatch hnil
  | group :: rest, h => by
    unfold add at h
    split at h
    · rcases h with ⟨group', hgroup', hb⟩
      rcases List.mem_cons.mp hgroup' with rfl | hgroup'
      · exact (mem_addToGroupings _ hb).imp_right fun hold => ⟨group, List.mem_cons_self, hold⟩
      · exact Or.inr ⟨group', List.mem_cons_of_mem _ hgroup', hb⟩
    · rcases h with ⟨group', hgroup', hb⟩
      rcases List.mem_cons.mp hgroup' with rfl | hgroup'
      · exact Or.inr ⟨group', List.mem_cons_self, hb⟩
      · rcases has_add rest ⟨group', hgroup', hb⟩ with rfl | ⟨group'', hgroup'', hb⟩
        · exact Or.inl rfl
        · exact Or.inr ⟨group'', List.mem_cons_of_mem _ hgroup'', hb⟩

end LocaleGroup

namespace Drafting

/-- The keys and the targets of all bindings are in the table. -/
theorem yields_localeGroups_bound : ∀ (records : List (MemberDecl × List Annotation)) (groups : List LocaleGroup)
    (d : Draft), (∀ b, LocaleGroup.Has groups b → b.Bound d.members) →
      Yields (localeGroups records groups) d fun groups' _ =>
        ∀ b, LocaleGroup.Has groups' b → b.Bound d.members
  | [], _, _, h => h
  | (m, annotations) :: rest, groups, d, h => by
    unfold localeGroups
    split
    · exact yields_localeGroups_bound rest groups d h
    · rename_i a _
      refine Yields.bind (Q := fun r d₁ => d₁.members = d.members ∧
          ∀ p : PlacedBinding, r = some p → p.binding.Bound d.members)
        ⟨(notes_localeBinding m a d).members, yields_localeBinding_bound m a d⟩ fun result d₁ h₁ => ?_
      rcases h₁ with ⟨hmembers, hbinding⟩
      rw [← hmembers] at h hbinding ⊢
      split
      · rename_i p
        refine yields_localeGroups_bound rest _ d₁ fun b hb => ?_
        rcases LocaleGroup.has_add _ hb with rfl | hold
        · exact hbinding p rfl
        · exact h b hold
      · exact yields_localeGroups_bound rest groups d₁ h

end Drafting

/-! ### Cycles and groups -/

/-- A staged value that is not kept is named in the report of a cycle. -/
theorem Staged.acyclic_or_reported {staged : List Staged} {s : Staged} (hs : s ∈ staged) : s ∈ acyclic staged ∨
    ∃ f ∈ (cycles staged).filterMap (cycleFinding staged), ∃ chain spans,
      f.cause = .derivedCycle chain spans ∧ s.name ∈ chain := by
  rcases List.mem_iff_getElem?.mp hs with ⟨i, hi⟩
  by_cases hcycle : i ∈ (cycles staged).flatten
  · right
    rcases List.mem_flatten.mp hcycle with ⟨cycle, hcycle, hmem⟩
    have hgroup : members staged cycle ∈ (cycles staged).map (members staged) := List.mem_map_of_mem hcycle
    obtain ⟨f, hf, first, rest, -, rfl⟩ := exists_mem_right (reports_cycles staged) hgroup
    refine ⟨_, hf, _, _, rfl, List.mem_append_left _ (List.mem_map_of_mem ?_)⟩
    exact List.mem_filterMap.mpr ⟨i, hmem, hi⟩
  · left
    refine List.mem_filterMap.mpr ⟨i, List.mem_filter.mpr ⟨?_, ?_⟩, hi⟩
    · exact List.mem_range.mpr (List.getElem?_eq_some_iff.mp hi).1
    · simpa using hcycle

namespace DependencyGraph

theorem source_of_mem_addTo {source : PropertyId} {target : DerivedId} {g : DependencyGroup} :
    ∀ {groups : List DependencyGroup}, g ∈ addTo source target groups →
      g.source = source ∨ ∃ g' ∈ groups, g'.source = g.source
  | [], h => Or.inl (List.mem_singleton.mp h ▸ rfl)
  | group :: rest, h => by
    unfold addTo at h
    split at h
    · rename_i hsame
      rcases List.mem_cons.mp h with rfl | h
      · left
        split
        · exact hsame
        · rfl
      · exact Or.inr ⟨g, List.mem_cons_of_mem _ h, rfl⟩
    · rcases List.mem_cons.mp h with rfl | h
      · exact Or.inr ⟨g, List.mem_cons_self, rfl⟩
      · rcases source_of_mem_addTo h with hsource | ⟨g', hg', hsource⟩
        · exact Or.inl hsource
        · exact Or.inr ⟨g', List.mem_cons_of_mem _ hg', hsource⟩

/-- There are no groups but for what something depends on. -/
theorem source_of_mem_ofEdges (edges : List (PropertyId × DerivedId)) {g : DependencyGroup}
    (hg : g ∈ (ofEdges edges).groups) : ∃ e ∈ edges, e.1 = g.source := by
  induction edges using List.reverseRecOn generalizing g with
  | nil => cases hg
  | append_singleton edges e ih =>
    rw [ofEdges, List.foldl_append] at hg
    rcases source_of_mem_addTo hg with hsource | ⟨g', hg', hsource⟩
    · exact ⟨e, by simp, hsource.symm⟩
    · rcases ih hg' with ⟨e', he', heq⟩
      exact ⟨e', List.mem_append_left _ he', heq.trans hsource⟩

end DependencyGraph

/-! ### Whole classes -/

namespace ClassModel

/-- What a model refers to. -/
inductive Refers (m : ClassModel) : PropertyId → Prop
  | source {d : DerivedProperty} (hd : d ∈ m.derived) {id : PropertyId} (hid : id ∈ d.sources) : Refers m id
  | group {g : DependencyGroup} (hg : g ∈ m.graph.groups) : Refers m g.source
  | enablement {k : CommandModel} (hk : k ∈ m.commands) {e : Enablement} (he : k.enablement = some e) :
    Refers m e.property
  | key {b : LocaleBinding} (hb : LocaleGroup.Has m.localeGroups b) : Refers m b.key
  | target {b : LocaleBinding} (hb : LocaleGroup.Has m.localeGroups b) : Refers m b.target

/-- What a model refers to is in its table if the sources of its derived values, what enables its commands and what its
localized properties are bound to are. -/
theorem Refers.lt {m : ClassModel} (hsources : ∀ d ∈ m.derived, ∀ id ∈ d.sources, id < m.members.length)
    (hgraph : m.graph = .ofEdges (DerivedSection.edges 0 m.derived))
    (hgates : ∀ k ∈ m.commands, ∀ e, k.enablement = some e → e.property < m.members.length)
    (hbindings : ∀ b, LocaleGroup.Has m.localeGroups b → b.Bound m.members) {id : PropertyId} (h : m.Refers id) :
    id < m.members.length := by
  cases h with
  | source hd hid => exact hsources _ hd id hid
  | group hg =>
    rw [hgraph] at hg
    rcases DependencyGraph.source_of_mem_ofEdges _ hg with ⟨⟨source, target⟩, hedge, rfl⟩
    rcases DerivedSection.mem_edges.mp hedge with ⟨j, e, he, -, hsource⟩
    exact hsources e (List.mem_of_getElem? he) _ hsource
  | enablement hk he => exact hgates _ hk _ he
  | key hb => exact (hbindings _ hb).1
  | target hb => exact (hbindings _ hb).2

/-- A property of the name is declared, or the number is the one of the property of a derived value. -/
def Generated (c : ClassDecl) (m : ClassModel) (id : PropertyId) (i : PropertyInfo) : Prop :=
  i.name ∈ propertyNames c.members ∨ ∃ d ∈ m.derived, d.property = id

end ClassModel

/-- The finding says why there is no derived value of the name. -/
def Finding.Rejects (f : Finding) (name : String) : Prop :=
  (∃ slot existing, f.cause = .slotCollision name slot existing) ∨
    ∃ chain spans, f.cause = .derivedCycle chain spans ∧ name ∈ chain

theorem Finding.Rejects.isWarning {f : Finding} {name : String} (h : f.Rejects name) : f.isWarning = false := by
  rcases f with ⟨cause, span⟩
  rcases h with ⟨slot, existing, rfl⟩ | ⟨chain, spans, rfl, -⟩ <;> rfl

/-- Every property in the table of a model is declared or generated, or its value is reported to be rejected. -/
def ClassModel.Accounted (c : ClassDecl) (m : ClassModel) (findings : List Finding) : Prop :=
  ∀ id i, m.members[id]? = some i → m.Generated c id i ∨ ∃ f ∈ findings, f.Rejects i.name

namespace Drafting

/-- A property of the table is declared, or of a value that is kept, or of one that is reported to be rejected. -/
theorem accounted_of_stages {c : ClassDecl} {d₁ d₂ d₃ : Draft} {staged : List Staged} {names : List String}
    (hdeclared : d₁.names ⊆ propertyNames c.members) (hstages : d₁.Stages d₂ (staged.map Staged.property) names)
    (hbound : ∀ s ∈ staged, s.Bound d₂.members) (hlater : d₂.Later d₃)
    (hfixed : d₃.members.map PropertyInfo.fixed = d₂.members.map PropertyInfo.fixed)
    (hcycles : ∀ f ∈ (Staged.cycles staged).filterMap (Staged.cycleFinding staged), f ∈ d₃.findings)
    {id : PropertyId} {i : PropertyInfo} (hi : d₃.members[id]? = some i) :
    (i.name ∈ propertyNames c.members ∨ ∃ s ∈ Staged.acyclic staged, s.property = id) ∨
      ∃ f ∈ d₃.findings, f.Rejects i.name := by
  have hname : d₂.members[id]?.map PropertyInfo.name = some i.name := by
    have hsame := congrArg (fun infos : List PropertyInfo => infos[id]?.map PropertyInfo.name) hfixed
    simp only [List.getElem?_map, hi, Option.map_some, Option.map_map] at hsame
    exact hsame.symm
  rcases Option.map_eq_some_iff.mp hname with ⟨i₂, hi₂, hsame⟩
  by_cases hold : id < d₁.members.length
  · exact Or.inl (Or.inl (hdeclared (hsame ▸ hstages.toLater.name_mem hold hi₂)))
  · rcases hstages.exposed id i₂ (Nat.le_of_not_lt hold) hi₂ with hid | ⟨f, hf, hcause⟩
    · rcases List.mem_map.mp hid with ⟨s, hs, rfl⟩
      rcases Staged.acyclic_or_reported hs with hkept | ⟨f, hf, chain, spans, hcause, hmem⟩
      · exact Or.inl (Or.inr ⟨s, hkept, rfl⟩)
      · have hknown := (hbound s hs).known
        rw [hname, Option.some.injEq] at hknown
        exact Or.inr ⟨f, hcycles f hf, Or.inr ⟨chain, spans, hcause, hknown ▸ hmem⟩⟩
    · exact Or.inr ⟨f, hlater.findings.subset hf, Or.inl (hsame ▸ hcause)⟩

/-- A property whose changes are announced is declared, or of a value that is kept. -/
theorem declared_or_kept {c : ClassDecl} {d₁ d₂ d₃ : Draft} {kept : List Staged}
    (hdeclared : d₁.names ⊆ propertyNames c.members) (hunderived : d₁.Underived) (hadded : d₁.Added d₂)
    (hnumbered : Numbered kept d₂ d₃) {id : PropertyId} {i : PropertyInfo} (hi : d₃.members[id]? = some i)
    (hrole : i.role ≠ .plain) : i.name ∈ propertyNames c.members ∨ ∃ s ∈ kept, s.property = id := by
  rcases hnumbered.announced (hadded.underived hunderived) hi hrole with hreacts | hkept
  · -- A property that is reactive was declared.
    rcases hadded.reactive _ hreacts with hreacts | hnone
    · rcases Option.map_eq_some_iff.mp hreacts with ⟨i₁, hi₁, -⟩
      have hold := (List.getElem?_eq_some_iff.mp hi₁).1
      exact Or.inl (hdeclared ((hadded.toLater.trans hnumbered.toLater).name_mem hold hi))
    · cases hnone
  · exact Or.inr hkept

theorem yields_classModel_refers (s : DeclarationSet) (c : ClassDecl) :
    Yields (classModel s c) ⟨[], declaredNames c, []⟩ fun model d =>
      (∀ id, model.Refers id → id < model.members.length) ∧ model.Accounted c d.findings ∧
        ∀ k ∈ model.commands, ∀ e, k.enablement = some e → ∃ i, model.members[e.property]? = some i ∧
          model.Generated c e.property i := by
  have hmem : ∀ m ∈ (annotatedMembers c).1.map Prod.fst, m ∈ c.members := by
    rw [annotatedMembers_fst]
    exact fun _ h => h
  rw [classModel_eq]
  refine ((yields_properties c).and (yields_properties_names c)).bind fun ps d₁ h₁ => ?_
  obtain ⟨⟨-, -, -, -, -, hunderived, -, -⟩, hdeclared⟩ := h₁
  have hadded := adds_stagedSection c (annotatedMembers c).1 d₁
  have hstages := yields_stagedSection_stages c d₁
  have hbound := yields_stagedSection_bound c (annotatedMembers c).1 d₁
  refine (yields_derivedSection c (annotatedMembers c).1 d₁).bind ?_
  rintro _ d₃ ⟨rfl, hnumbered, hreported⟩
  unfold Yields at hstages hbound
  generalize stagedSection c (annotatedMembers c).1 d₁ = result at hadded hstages hbound hnumbered hreported ⊢
  rcases result with ⟨staged, d₂⟩
  obtain ⟨ds, fs, hsection, hof, -⟩ := DerivedSection.ofStaged_eq (Staged.acyclic staged)
  rw [hsection]
  have hcycles : ∀ f ∈ (Staged.cycles staged).filterMap (Staged.cycleFinding staged), f ∈ d₃.findings := by
    intro f hf
    have hmem : f ∈ d₃.cycles := hreported ▸ List.mem_append_right _ hf
    exact (List.mem_filter.mp hmem).1
  have hget {t : Staged} (ht : t ∈ Staged.acyclic staged) : ∃ e ∈ ds, e.property = t.property := by
    obtain ⟨e, he, het⟩ := exists_mem_right hof ht
    exact ⟨e, he, het.property⟩
  have haccounted {id : PropertyId} {i : PropertyInfo} (hi : d₃.members[id]? = some i) :=
    accounted_of_stages hdeclared hstages hbound hnumbered.toLater hnumbered.fixed hcycles hi
  refine Yields.bind (Q := fun (ks : List CommandModel) d₄ => d₃.Noted d₄ ∧
      ∀ k ∈ ks, ∀ e, k.enablement = some e → e.Bound d₃.members)
    ⟨notes_commands _ d₃, fun k hk => (yields_commands (c := c) _ d₃ hmem k hk).2.2⟩ fun ks d₄ h₄ => ?_
  obtain ⟨h₄, hgates⟩ := h₄
  refine Yields.bind (Q := fun groups d₅ => d₄.Noted d₅ ∧ ∀ b, LocaleGroup.Has groups b → b.Bound d₄.members)
    ⟨notes_localeGroups _ [] d₄, yields_localeGroups_bound _ [] d₄ fun _ ⟨_, hnil, _⟩ => nomatch hnil⟩
    fun groups d₅ h₅ => ?_
  obtain ⟨h₅, hbindings⟩ := h₅
  have hmembers : d₅.members = d₃.members := (h₄.trans h₅).members
  have hsources : ∀ e ∈ ds, ∀ id ∈ e.sources, id < d₅.members.length := by
    intro e he id hid
    obtain ⟨t, ht, het⟩ := exists_mem_left hof he
    have hkept := (Staged.acyclic_sublist staged).subset ht
    rw [hmembers]
    exact lt_of_lt_of_le ((hbound t hkept).sources id (het.sources ▸ hid)) hnumbered.toLater.length_le
  refine ⟨fun id hid => ?_, fun id i hi => ?_, fun k hk e he => ?_⟩
  · refine hid.lt hsources rfl (fun k hk e he => ?_) fun b hb => ?_
    · obtain ⟨i, hi, -⟩ := hgates k hk e he
      show e.property < d₅.members.length
      rw [hmembers]
      exact (List.getElem?_eq_some_iff.mp hi).1
    · show b.Bound d₅.members
      rw [h₅.members]
      exact hbindings b hb
  · have hi₃ : d₃.members[id]? = some i := by
      rw [← hmembers]
      exact hi
    rcases haccounted hi₃ with (hname | ⟨t, ht, rfl⟩) | ⟨f, hf, hrejects⟩
    · exact Or.inl (Or.inl hname)
    · exact Or.inl (Or.inr (hget ht))
    · exact Or.inr ⟨f, (h₄.trans h₅).findings.subset hf, hrejects⟩
  · rcases hgates k hk e he with ⟨i, hi, -, hrole⟩
    have hi₅ : d₅.members[e.property]? = some i := by rwa [hmembers]
    refine ⟨i, hi₅, ?_⟩
    rcases declared_or_kept hdeclared hunderived hadded hnumbered hi hrole with hname | ⟨t, ht, htid⟩
    · exact Or.inl hname
    · exact Or.inr (htid ▸ hget ht)

end Drafting

/-- What a model refers to is a property of the class or of a derived value of the model, or an error says why that
value is not generated.  What enables a command is never the property of a value that is not generated. -/
theorem references_generated_or_reported {s : DeclarationSet} {c : ClassDecl} {model : ClassModel}
    (h : (s.analyzeClass c).1 = some model) :
    (∀ id, model.Refers id → ∃ i, model.members[id]? = some i ∧ (model.Generated c id i ∨
      ∃ f ∈ (s.analyzeClass c).2, f.isWarning = false ∧ f.Rejects i.name)) ∧
      ∀ k ∈ model.commands, ∀ e, k.enablement = some e → ∃ i, model.members[e.property]? = some i ∧
        model.Generated c e.property i := by
  unfold DeclarationSet.analyzeClass at h ⊢
  split at h
  · cases h
  · rename_i hreactive
    split at h
    · cases h
    · rename_i hpartial
      rw [if_neg hreactive, if_neg hpartial]
      cases h
      obtain ⟨hin, haccounted, hgates⟩ := Drafting.yields_classModel_refers s c
      refine ⟨fun id hid => ?_, hgates⟩
      have hi := List.getElem?_eq_getElem (hin id hid)
      refine ⟨_, hi, (haccounted id _ hi).imp_right ?_⟩
      rintro ⟨f, hf, hrejects⟩
      exact ⟨f, hf, hrejects.isWarning, hrejects⟩

end Reactive
