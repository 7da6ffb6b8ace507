import Reactive.Proofs.Staging

/-!
# Reactive.Proofs.Announcing — what is only announced is declared

A derived value of which only changes are announced is not computed, so its property has to be one that the class
declares.  The table has other properties too, those of derived methods, but each of them is the one of a staged value:
what keeps such a value from being staged is found to be wrong.

* `Draft.Extends`: unless something is wrong, a later draft has no other new properties than these.
* `Drafting.yields_stageAll_extends`: the new properties are those of staged values.
* `Drafting.announceable_mergeAll`: a value that is only announced has the name of a declared property.
-/

namespace Reactive

namespace Draft

/-- The names of the properties. -/
def names (d : Draft) : List String := d.members.map PropertyInfo.name

theorem names_of_members {d d' : Draft} (h : d'.members = d.members) : d'.names = d.names :=
  congrArg (List.map PropertyInfo.name) h

theorem names_of_fixed {d d' : Draft} (h : d'.members.map PropertyInfo.fixed = d.members.map PropertyInfo.fixed) :
    d'.names = d.names := by
  have hname (t : MemberTable) : t.map PropertyInfo.name = (t.map PropertyInfo.fixed).map PropertyInfo.name := by
    rw [List.map_map]
    rfl
  unfold names
  rw [hname, h, ← hname]

/-- Unless something is wrong, there are no new properties but those of the names. -/
def Extends (names : List String) (d d' : Draft) : Prop := d'.Clean → d'.names ⊆ d.names ++ names

theorem Later.clean {d d' : Draft} (h : d.Later d') (hclean : d'.Clean) : d.Clean :=
  fun f hf => hclean f (h.findings.subset hf)

theorem Noted.extends {d d' : Draft} (h : d.Noted d') (names : List String) : d.Extends names d' := by
  intro _
  rw [names_of_members h.members]
  exact List.subset_append_left _ _

theorem Extends.noted {names : List String} {d d₁ d₂ : Draft} (h : d.Extends names d₁) (h' : d₁.Noted d₂) :
    d.Extends names d₂ := by
  intro hclean
  rw [names_of_members h'.members]
  exact h (h'.added.toLater.clean hclean)

theorem Extends.trans {names names' : List String} {d d₁ d₂ : Draft} (h : d.Extends names d₁) (hlater : d₁.Later d₂)
    (h' : d₁.Extends names' d₂) : d.Extends (names ++ names') d₂ := by
  intro hclean n hn
  obtain hn | hn := List.mem_append.mp (h' hclean hn)
  · obtain hn | hn := List.mem_append.mp (h (hlater.clean hclean) hn)
    · exact List.mem_append_left _ hn
    · exact List.mem_append_right _ (List.mem_append_left _ hn)
  · exact List.mem_append_right _ (List.mem_append_right _ hn)

end Draft

namespace Drafting

/-! ### Declared properties -/

/-- A property that is added is the only new one. -/
theorem yields_addProperty_names (info : PropertyInfo) (d : Draft) :
    Yields (addProperty info) d fun result d' =>
      match result with
      | .error _ => d' = d
      | .ok _ => d'.names = d.names ++ [info.name] := by
  obtain ⟨earlier, -, h⟩ | ⟨-, h⟩ := addProperty_cases info d
  · exact .intro h rfl
  · exact .intro h List.map_append

theorem yields_declare_names (m : MemberDecl) (d : Draft) :
    Yields (declare m) d fun _ d' => d'.names ⊆ d.names ++ propertyNames [m] := by
  unfold declare
  split
  · rename_i p hp
    have hnames : propertyNames [m] = [m.name] := by
      rw [propertyNames_cons, MemberDecl.property?_eq_some.mpr hp]
      rfl
    rw [hnames]
    refine (yields_addProperty_names _ d).bind fun result d₁ h₁ => ?_
    split
    · cases h₁
      exact List.subset_append_left _ _
    · rename_i hok
      cases result with
      | error earlier => exact absurd rfl (hok earlier)
      | ok id => exact h₁ ▸ List.Subset.refl _
  · exact List.subset_append_left _ _

theorem yields_declareAll_names : ∀ (ms : List MemberDecl) (d : Draft),
    Yields (ms.forM declare) d fun _ d' => d'.names ⊆ d.names ++ propertyNames ms
  | [], d => List.subset_append_left _ _
  | m :: ms, d => by
    refine (yields_declare_names m d).bind fun _ d₁ h₁ => ?_
    refine (yields_declareAll_names ms d₁).imp fun _ d₂ h₂ n hn => ?_
    have hsplit : propertyNames (m :: ms) = propertyNames [m] ++ propertyNames ms := by
      rw [propertyNames_cons, propertyNames_cons, List.append_assoc]
      rfl
    rw [hsplit, ← List.append_assoc]
    exact (List.mem_append.mp (h₂ hn)).elim (fun hn => List.mem_append_left _ (h₁ hn)) (List.mem_append_right _)

/-- Reactive properties have another role, and nothing else changes. -/
theorem yields_mutableProperties_fixed : ∀ (records : List (MemberDecl × List Annotation)) (d : Draft),
    Yields (mutableProperties records) d fun _ d' =>
      d'.members.map PropertyInfo.fixed = d.members.map PropertyInfo.fixed
  | [], _ => rfl
  | (m, annotations) :: rest, d => by
    unfold mutableProperties
    split
    · exact yields_mutableProperties_fixed rest d
    · refine Yields.bind (Q := fun _ d₁ => d₁.members = d.members) (notes_mutableProperty m _ d).members
        fun result d₁ h₁ => ?_
      rw [← h₁]
      split
      · exact yields_mutableProperties_fixed rest d₁
      · refine Yields.bind (Q := fun _ d₂ => d₂.members.map PropertyInfo.fixed = d₁.members.map PropertyInfo.fixed) ?_
          fun _ d₂ h₂ => ?_
        · exact map_modify_of_eq (f := fun info : PropertyInfo => { info with role := .mutable }) (fun _ => rfl) _ _
        · exact (yields_mutableProperties_fixed rest d₂).bind fun _ _ h => h.trans h₂

theorem yields_mutableProperties_names (records : List (MemberDecl × List Annotation)) (d : Draft) :
    Yields (mutableProperties records) d fun _ d' => d'.names = d.names :=
  (yields_mutableProperties_fixed records d).imp fun _ _ => Draft.names_of_fixed

/-! ### New properties -/

/-- What is rejected leaves the properties as they are. -/
theorem yields_reject_extends {α : Type} {cause : FindingCause} {span : Span} (hcause : cause.isCycle = false)
    {d d₁ : Draft} (h : d.Noted d₁) (name : α → String) :
    Yields (reject cause span) d₁ fun (r : Option α) d' => d.Extends (r.map name).toList d' :=
  (h.trans (notes_reject cause span hcause d₁)).extends _

/-- A derived method has its property added. -/
theorem yields_methodTarget_extends (m : MemberDecl) (decl : MethodDecl) (a : Annotation) (d : Draft) :
    Yields (methodTarget m decl a) d fun r d' => d.Extends (r.map Target.name).toList d' := by
  unfold methodTarget
  split
  · exact yields_reject_extends rfl (.refl d) _
  · rename_i exposed _
    split
    · exact yields_reject_extends rfl (.refl d) _
    · split
      · exact yields_reject_extends rfl (.refl d) _
      · refine Yields.bind (Q := fun _ d₁ => d.Noted d₁) (notes_claim exposed a.span d) fun owner d₁ h₁ => ?_
        split
        · exact yields_reject_extends rfl h₁ _
        · refine (yields_addProperty_names _ d₁).bind fun result d₂ h₂ => ?_
          split
          · cases h₂
            exact yields_reject_extends rfl h₁ _
          · intro _
            show d₂.names ⊆ d.names ++ [exposed]
            rw [h₂, Draft.names, Draft.names, h₁.members]
            exact List.Subset.refl _

theorem yields_derivedTarget_extends (m : MemberDecl) (a : Annotation) (cache : CachePolicy) (d : Draft) :
    Yields (derivedTarget m a cache) d fun r d' => d.Extends (r.map Target.name).toList d' := by
  unfold derivedTarget
  split
  · exact (notes_propertyTarget m _ a cache d).extends _
  · exact yields_methodTarget_extends m _ a d

/-- Something is wrong. -/
theorem not_clean_of_mem {d : Draft} {f : Finding} (hf : f ∈ d.findings) (hwrong : f.isWarning = false) : ¬ d.Clean := by
  intro hclean
  rw [hclean f hf] at hwrong
  cases hwrong

theorem yields_cacheSlot_none (m : MemberDecl) (name : String) (cache : CachePolicy) (d : Draft) :
    Yields (cacheSlot m name cache) d fun r d' => r = none → ¬ d'.Clean := by
  unfold cacheSlot
  split
  · exact nofun
  · refine Yields.bind (Q := fun _ _ => True) trivial fun conflict d₁ _ => ?_
    split
    · intro _
      exact not_clean_of_mem (List.mem_append_right _ (List.mem_singleton_self _)) rfl
    · exact nofun

theorem yields_claimFunction_false (m : MemberDecl) (name : String) (recompute : Option StagedRecompute) (d : Draft) :
    Yields (claimFunction m name recompute) d fun free d' => free = false → ¬ d'.Clean := by
  unfold claimFunction
  split
  · refine Yields.bind (Q := fun _ _ => True) trivial fun existing d₁ _ => ?_
    split
    · intro _
      exact not_clean_of_mem (List.mem_append_right _ (List.mem_singleton_self _)) rfl
    · exact nofun
  · exact nofun

/-- Unless something is wrong, what it is known what it is derives is staged. -/
theorem yields_stageTarget_some (m : MemberDecl) (a : Annotation) (cache : CachePolicy) (notifies : Bool) (t : Target)
    (d : Draft) : Yields (stageTarget m a cache notifies t) d fun r d' =>
      d'.Clean → ∃ s, r = some s ∧ s.name = t.name := by
  unfold stageTarget
  refine (yields_cacheSlot_none m t.name cache d).bind fun slot d₁ hslot => ?_
  split
  · exact fun hclean => absurd hclean (hslot rfl)
  · refine (yields_claimFunction_false m t.name t.recompute d₁).bind fun free d₂ hfree => ?_
    split
    · rename_i hnot
      exact fun hclean => absurd hclean (hfree (by simpa using hnot))
    · exact fun _ => ⟨_, rfl, rfl⟩

theorem yields_stageDerived_extends (m : MemberDecl) (a : Annotation) (d : Draft) :
    Yields (stageDerived m a) d fun r d' => d.Extends (r.map Staged.name).toList d' := by
  obtain ⟨cache, notifies, ignored, heq⟩ := stageDerived_eq m a
  rw [heq]
  refine (yields_derivedTarget_extends m a cache d).bind fun target d₁ h₁ => ?_
  split
  · exact h₁
  · rename_i t
    have hstage (d₂ : Draft) (h₂ : d₁.Noted d₂) : Yields (stageTarget m a cache notifies t) d₂ fun r d' =>
        d.Extends (r.map Staged.name).toList d' := by
      intro hclean
      obtain ⟨s, hs, hname⟩ := yields_stageTarget_some m a cache notifies t d₂ hclean
      rw [hs]
      show _ ⊆ d.names ++ [s.name]
      rw [hname]
      exact (h₁.noted (h₂.trans (notes_stageTarget m a cache notifies t d₂))) hclean
    split
    · exact Yields.bind (Q := fun _ d₂ => d₁.Noted d₂) (notes_report _ _ rfl d₁) fun _ d₂ h₂ => hstage d₂ h₂
    · exact hstage d₁ (.refl d₁)

theorem yields_stageMember_extends (m : MemberDecl) (annotations : List Annotation) (d : Draft) :
    Yields (stageMember m annotations) d fun r d' => d.Extends (r.map Staged.name).toList d' := by
  unfold stageMember
  split
  · exact yields_reject_extends rfl (.refl d) _
  · exact yields_stageDerived_extends m _ d
  · exact (notes_stageObservable m _ d).extends _
  · exact (Draft.Noted.refl d).extends _

/-- The new properties are those of staged values. -/
theorem yields_stageAll_extends : ∀ (records : List (MemberDecl × List Annotation)) (d : Draft),
    Yields (stageAll records) d fun staged d' => d.Extends (staged.map Staged.name) d'
  | [], d => (Draft.Noted.refl d).extends _
  | (m, annotations) :: rest, d => by
    unfold stageAll
    refine (yields_stageMember_extends m annotations d).bind fun result d₁ h₁ => ?_
    have hrest := yields_stageAll_extends rest d₁
    have hlater := (adds_stageAll rest d₁).toLater
    split
    · exact h₁.trans hlater hrest
    · exact h₁.trans hlater hrest

/-! ### Announcements -/

variable {c : ClassDecl}

/-- What announcements keep: a value that is only announced has the name of a declared property, and the other
properties are those of staged values. -/
structure Announceable (c : ClassDecl) (staged : List Staged) (d : Draft) : Prop extends Apart staged d where
  announced : d.Clean → ∀ s ∈ staged, s.recompute = none → s.name ∈ propertyNames c.members
  names : d.Clean → d.names ⊆ propertyNames c.members ++ staged.map Staged.name

theorem Announceable.noted {staged : List Staged} {d d' : Draft} (h : Announceable c staged d) (hnoted : d.Noted d') :
    Announceable c staged d' := by
  refine ⟨h.toApart.noted hnoted, fun hclean => h.announced (hnoted.added.toLater.clean hclean), fun hclean => ?_⟩
  rw [Draft.names, hnoted.members]
  exact h.names (hnoted.added.toLater.clean hclean)

theorem yields_announce_announceable (m : MemberDecl) (a : Annotation) (source : PropertyId) (staged : List Staged)
    (target : String) (d : Draft) (hall : Announceable c staged d) :
    Yields (announce c m a source staged target) d (Announceable c) := by
  refine ((apart_announce c m a source staged target d hall.toApart).and
    (yields_announce c m a source staged target d)).imp fun staged' d' h => ?_
  obtain ⟨hapart, hnoted, h⟩ := h
  have hlater := hall.noted hnoted
  refine ⟨hapart, fun hclean t ht hrecompute => ?_, fun hclean => ?_⟩
  · obtain rfl | ⟨index, s, -, -, -, rfl⟩ | ⟨id, info, hid, hnew, hinfo, -, rfl⟩ := h
    · exact hlater.announced hclean t ht hrecompute
    · obtain ⟨t', ht', heq⟩ := mem_of_mem_modify ht
      have hannounced := hlater.announced hclean t' ht'
      obtain rfl | rfl := heq <;> exact hannounced hrecompute
    · obtain ht | ht := List.mem_append.mp ht
      · exact hlater.announced hclean t ht hrecompute
      · obtain rfl := List.mem_singleton.mp ht
        -- The property is declared, for no staged value has it.
        have hname : info.name = target := MemberTable.name_of_find? hinfo
        have hlisted := hall.names (hnoted.added.toLater.clean hclean)
          (List.mem_map_of_mem (f := PropertyInfo.name) (List.mem_of_find?_eq_some hinfo))
        obtain hdeclared | hstaged := List.mem_append.mp hlisted
        · exact hdeclared
        · obtain ⟨s, hs, hsame⟩ := List.mem_map.mp hstaged
          have hresolved := (hall.placed s hs).resolved
          rw [hsame, hname, hid] at hresolved
          exact absurd (Option.some.inj hresolved).symm (hnew s hs)
  · refine List.Subset.trans (hlater.names hclean) (List.append_subset.mpr ⟨List.subset_append_left _ _, ?_⟩)
    obtain rfl | ⟨index, s, -, -, -, rfl⟩ | ⟨id, info, -, -, -, -, rfl⟩ := h
    · exact List.subset_append_right _ _
    · rw [map_modify_of_eq (f := fun s : Staged => { s with sources := s.sources ++ [source] }) fun _ => rfl]
      exact List.subset_append_right _ _
    · rw [List.map_append, ← List.append_assoc]
      exact List.Subset.trans (List.subset_append_right _ _) (List.subset_append_left _ _)

/-- Announcements keep what they need to know. -/
theorem announceable_mergeAll (records : List (MemberDecl × List Annotation)) (staged : List Staged) (d : Draft)
    (hall : Announceable c staged d) : Yields (mergeAll c records staged) d (Announceable c) :=
  yields_mergeAll (fun _ _ _ h hnoted => h.noted hnoted) c
    (fun m a source staged target d _ h => yields_announce_announceable m a source staged target d h) records staged d hall

end Drafting

end Reactive
