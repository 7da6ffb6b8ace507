import Reactive.Proofs.Ledger

/-!
# Reactive.Proofs.Names — the names of generated members are all different

A name is taken before anything is generated under it, by one of four passes over the members, and by some of them for
several things at once.  A value may be rejected when some of its names are taken already; they stay taken, and so does
the name of the property that exposes it.

* `Draft.Stages`: what a stage adds to the table, and which names it takes.
* `Drafting.yields_stagedSection_stages`: the stages of the derived values, one after the other.
* `ClassModel.generatedNames`: the names of all generated members.
* `generated_names_distinct`: they are all different, and no declared member has one of them.
-/

namespace Reactive

/-! ### What a stage adds -/

namespace Draft

/-- A value of the name was rejected because one of its other names was not free. -/
def Withheld (d : Draft) (name : String) : Prop :=
  ∃ f ∈ d.findings, ∃ slot existing, f.cause = .slotCollision name slot existing

/-- What has been added between two drafts are properties of derived methods.  Their names have been taken, with the
other names given, and each of them has one of the numbers given, or its value was rejected. -/
structure Stages (d d' : Draft) (ids : List PropertyId) (names : List String) : Prop extends d.Later d' where
  grown : ∃ infos : List PropertyInfo, d'.members = d.members ++ infos ∧ (∀ i ∈ infos, i.synthesized = true) ∧
    d.Takes d' (infos.map PropertyInfo.name ++ names)
  exposed : ∀ id i, d.members.length ≤ id → d'.members[id]? = some i → id ∈ ids ∨ d'.Withheld i.name

variable {d d₁ d₂ : Draft} {ids ids' : List PropertyId} {names names' : List String} {name : String}

theorem Later.withheld (h : d.Later d₁) (hname : d.Withheld name) : d₁.Withheld name := by
  rcases hname with ⟨f, hf, hcause⟩
  exact ⟨f, h.findings.subset hf, hcause⟩

/-- A property keeps its number and its name. -/
theorem Later.name_getElem? (h : d.Later d₁) {id : PropertyId}
    (hname : d.members[id]?.map PropertyInfo.name = some name) :
    d₁.members[id]?.map PropertyInfo.name = some name := by
  have hfixed (t : MemberTable) : t[id]?.map PropertyInfo.name =
      (t.map PropertyInfo.fixed)[id]?.map PropertyInfo.name := by
    rw [List.getElem?_map, Option.map_map]
    rfl
  rw [hfixed] at hname ⊢
  rcases Option.map_eq_some_iff.mp hname with ⟨i, hi, hiname⟩
  have hlt := (List.getElem?_eq_some_iff.mp hi).1
  rw [List.prefix_iff_getElem?.mp h.members id hlt, ← List.getElem?_eq_getElem hlt, hi]
  exact congrArg some hiname

theorem Takes.perm (h : d.Takes d₁ names) (hperm : names.Perm names') : d.Takes d₁ names' :=
  ⟨hperm.nodup_iff.mp h.distinct, fun n hn => h.free n (hperm.mem_iff.mpr hn),
    fun n hn => h.taken n (hperm.mem_iff.mpr hn)⟩

/-- A stage that adds no property. -/
theorem Noted.stages (h : d.Noted d₁) (ids : List PropertyId) (htakes : d.Takes d₁ names) :
    d.Stages d₁ ids names := by
  refine ⟨h.added.toLater, ⟨[], ?_, nofun, htakes⟩, fun id i hle hi => ?_⟩
  · simpa using h.members
  · have hlt := (List.getElem?_eq_some_iff.mp hi).1
    rw [h.members] at hlt
    omega

theorem Stages.refl (d : Draft) : d.Stages d [] [] := (Noted.refl d).stages [] (.nil d d)

/-- Fewer names and more numbers say less. -/
theorem Stages.mono (h : d.Stages d₁ ids names) (hids : ids ⊆ ids') (hnames : names'.Sublist names) :
    d.Stages d₁ ids' names' := by
  rcases h.grown with ⟨infos, hmembers, hsynthesized, htakes⟩
  refine ⟨h.toLater, ⟨infos, hmembers, hsynthesized, htakes.sublist ?_⟩, fun id i hle hi => ?_⟩
  · exact (List.Sublist.refl _).append hnames
  · exact (h.exposed id i hle hi).imp_left fun hid => hids hid

/-- One stage after the other. -/
theorem Stages.append (h : d.Stages d₁ ids names) (h' : d₁.Stages d₂ ids' names') :
    d.Stages d₂ (ids ++ ids') (names ++ names') := by
  rcases h.grown with ⟨infos, hmembers, hsynthesized, htakes⟩
  rcases h'.grown with ⟨infos', hmembers', hsynthesized', htakes'⟩
  refine ⟨h.toLater.trans h'.toLater, ⟨infos ++ infos', ?_, ?_, ?_⟩, fun id i hle hi => ?_⟩
  · rw [hmembers', hmembers, List.append_assoc]
  · intro i hi
    rcases List.mem_append.mp hi with hi | hi
    · exact hsynthesized i hi
    · exact hsynthesized' i hi
  · refine (htakes.append htakes' h.toLater h'.toLater).perm ?_
    simp only [List.map_append, List.append_assoc]
    refine List.Perm.append_left _ ?_
    rw [← List.append_assoc, ← List.append_assoc]
    exact List.perm_append_comm.append_right _
  · by_cases hold : id < d₁.members.length
    · -- Nothing but its role has changed since the first stage.
      have hi₁ : d₁.members[id]? = some i := by
        rwa [hmembers', List.getElem?_append_left hold] at hi
      rcases h.exposed id i hle hi₁ with hid | hwithheld
      · exact Or.inl (List.mem_append_left _ hid)
      · exact Or.inr (h'.toLater.withheld hwithheld)
    · rcases h'.exposed id i (by omega) hi with hid | hwithheld
      · exact Or.inl (List.mem_append_right _ hid)
      · exact Or.inr hwithheld

/-- A stage, and then one that adds nothing. -/
theorem Stages.noted (h : d.Stages d₁ ids names) (h' : d₁.Noted d₂) : d.Stages d₂ ids names := by
  have happend := h.append (h'.stages [] (.nil d₁ d₂))
  rwa [List.append_nil, List.append_nil] at happend

/-- The property of a value that is rejected is not one of those that matter. -/
theorem Stages.reject {id : PropertyId} (h : d.Stages d₁ (id :: ids) names)
    (hrejected : ∀ i, d₁.members[id]? = some i → d₁.Withheld i.name) : d.Stages d₁ ids names := by
  refine ⟨h.toLater, h.grown, fun id' i hle hi => ?_⟩
  rcases h.exposed id' i hle hi with hid | hwithheld
  · rcases List.mem_cons.mp hid with rfl | hid
    · exact Or.inr (hrejected i hi)
    · exact Or.inl hid
  · exact Or.inr hwithheld

end Draft

/-! ### Derived values -/

/-- The names that a staged value has taken for its fields, its method and its function. -/
def Staged.ownNames (s : Staged) : List String := cacheNames s.origin s.name s.slot ++ s.function?.toList

namespace Drafting

theorem withheld_report {name slot : String} {existing span : Span} (d : Draft) :
    (report (.slotCollision name slot existing) span d).2.Withheld name :=
  ⟨⟨.slotCollision name slot existing, span⟩, List.mem_append_right _ (List.mem_singleton_self _), slot, existing, rfl⟩

/-- A target is known as the property of its name. -/
def Target.Known (t : Target) (d : Draft) : Prop := d.members[t.property]?.map PropertyInfo.name = some t.name

theorem Target.Known.later {t : Target} {d d' : Draft} (h : t.Known d) (hlater : d.Later d') : t.Known d' :=
  hlater.name_getElem? h

theorem yields_propertyTarget_known (m : MemberDecl) (p : PropertyDecl) (a : Annotation) (cache : CachePolicy)
    (d : Draft) : Yields (propertyTarget m p a cache) d fun r d' => ∀ t, r = some t → t.Known d' := by
  unfold propertyTarget
  split
  · exact yields_reject
  · split
    · exact yields_reject
    · refine (yields_resolve m.name d).bind ?_
      rintro id d ⟨rfl, hid⟩
      split
      · exact yields_none
      · rename_i id
        rcases MemberTable.name_of_resolve? hid with ⟨i, hi, hname⟩
        have hknown : d.members[id]?.map PropertyInfo.name = some m.name := by
          rw [hi, ← hname]
          rfl
        split
        · refine Yields.bind (Q := fun _ d' => d.Later d') ((notes_stagedBody m _).yields d) fun result d' hlater => ?_
          split
          · rintro t ⟨⟩
            exact Target.Known.later (d := d) hknown hlater
          · exact yields_none
        · split
          · exact yields_reject
          · rintro t ⟨⟩
            exact hknown

/-- A property is added, under a name that has been taken for it. -/
theorem yields_addProperty_stages (info : PropertyInfo) (hsynthesized : info.synthesized = true) {d d₁ : Draft}
    (h₁ : d.Noted d₁) (htakes : d.Takes d₁ [info.name]) :
    Yields (addProperty info) d₁ fun result d₂ =>
      match result with
      | .error _ => d₂ = d₁
      | .ok id => d.Stages d₂ [id] [] ∧ d₂.members[id]?.map PropertyInfo.name = some info.name := by
  have hlater := later_addProperty info d₁
  rcases addProperty_cases info d₁ with ⟨earlier, -, hadd⟩ | ⟨-, hadd⟩
  · exact .intro hadd rfl
  · rw [hadd] at hlater
    refine .intro hadd ⟨⟨h₁.added.toLater.trans hlater, ⟨[info], ?_, ?_, ?_⟩, fun id i hle hi => Or.inl ?_⟩, ?_⟩
    · rw [← h₁.members]
    · exact List.forall_mem_singleton.mpr hsynthesized
    · exact htakes.within (.refl d) hlater
    · have hlt := (List.getElem?_eq_some_iff.mp hi).1
      rw [List.length_append, List.length_singleton, h₁.members] at hlt
      rw [List.mem_singleton, h₁.members]
      omega
    · simp

/-- A derived method has its property added. -/
theorem yields_methodTarget_stages (m : MemberDecl) (decl : MethodDecl) (a : Annotation) (d : Draft) :
    Yields (methodTarget m decl a) d fun r d' =>
      d.Stages d' (r.map Target.property).toList [] ∧ ∀ t, r = some t → t.Known d' := by
  have hreject {cause : FindingCause} {span : Span} {d₁ : Draft} (hcause : cause.isCycle = false) (h₁ : d.Noted d₁) :
      Yields (reject cause span) d₁ fun (r : Option Target) d' =>
        d.Stages d' (r.map Target.property).toList [] ∧ ∀ t, r = some t → t.Known d' :=
    ⟨(h₁.trans (notes_reject (α := Target) cause span hcause d₁)).stages _ (.nil _ _), nofun⟩
  unfold methodTarget
  split
  · exact hreject rfl (.refl d)
  · rename_i exposed _
    split
    · exact hreject rfl (.refl d)
    · split
      · exact hreject rfl (.refl d)
      · refine Yields.bind (Q := fun owner d₁ => d.Noted d₁ ∧ (owner = none → d.Takes d₁ [exposed]))
          ⟨notes_claim exposed a.span d, yields_claim_takes exposed a.span d⟩ fun owner d₁ hclaim => ?_
        rcases hclaim with ⟨h₁, htakes⟩
        split
        · exact hreject rfl h₁
        · refine (yields_addProperty_stages ⟨exposed, decl.returnType, false, .plain, true, none, a.span⟩ rfl h₁
            (htakes rfl)).bind fun result d₂ h₂ => ?_
          split
          · cases h₂
            exact hreject rfl h₁
          · refine ⟨h₂.1, ?_⟩
            rintro t ⟨⟩
            exact h₂.2

/-- A derived member has its property, which a method adds. -/
theorem yields_derivedTarget_stages (m : MemberDecl) (a : Annotation) (cache : CachePolicy) (d : Draft) :
    Yields (derivedTarget m a cache) d fun r d' =>
      d.Stages d' (r.map Target.property).toList [] ∧ ∀ t, r = some t → t.Known d' := by
  unfold derivedTarget
  split
  · rename_i p _
    exact ⟨(notes_propertyTarget m p a cache d).stages _ (.nil _ _), yields_propertyTarget_known m p a cache d⟩
  · exact yields_methodTarget_stages m _ a d

/-- The names of the fields are taken, or the value is rejected. -/
theorem yields_cacheSlot_withheld (m : MemberDecl) (name : String) (cache : CachePolicy) (d : Draft) :
    Yields (cacheSlot m name cache) d fun r d' => r = none → d'.Withheld name := by
  unfold cacheSlot
  split
  · exact nofun
  · refine Yields.bind (Q := fun _ _ => True) trivial fun conflict d' _ => ?_
    split
    · exact fun _ => withheld_report d'
    · exact nofun

/-- The name of the function is taken, or the value is rejected. -/
theorem yields_claimFunction_takes (m : MemberDecl) (name : String) (recompute : Option StagedRecompute) (d : Draft) :
    Yields (claimFunction m name recompute) d fun free d' => (free = false → d'.Withheld name) ∧
      (free = true → ∀ s : Staged, s.recompute = recompute → d.Takes d' s.function?.toList) := by
  unfold claimFunction
  split
  · refine (yields_claim_takes _ m.nameSpan d).bind fun owner d₁ hclaim => ?_
    split
    · exact ⟨fun _ => withheld_report d₁, nofun⟩
    · refine ⟨nofun, fun _ s hs => ?_⟩
      unfold Staged.function?
      rw [hs]
      exact hclaim rfl
  · rename_i hother
    refine ⟨nofun, fun _ s hs => ?_⟩
    have hnone : s.function? = none := by
      unfold Staged.function?
      split
      · rename_i hprojects
        exact absurd (hs.symm.trans hprojects) (hother _ _ _)
      · rfl
    rw [hnone]
    exact .nil d _

/-- A value takes its names one after the other; if one is not free, it is rejected. -/
theorem yields_stageTarget_stages (m : MemberDecl) (a : Annotation) (cache : CachePolicy) (notifies : Bool) {t : Target}
    (hown : t.origin ≠ .observable) {d d₁ : Draft} (h₁ : d.Stages d₁ [t.property] []) (ht : t.Known d₁) :
    Yields (stageTarget m a cache notifies t) d₁ fun r d' =>
      d.Stages d' (r.map Staged.property).toList (r.map Staged.ownNames |>.getD []) := by
  have hreject {d₂ : Draft} {names : List String} (h₂ : d.Stages d₂ [t.property] names) (hlater : d₁.Later d₂)
      (hwithheld : d₂.Withheld t.name) : d.Stages d₂ [] [] := by
    refine (h₂.reject fun i hi => ?_).mono (List.Subset.refl _) (List.nil_sublist _)
    have hname := ht.later hlater
    rw [Target.Known, hi] at hname
    rwa [Option.some.inj hname]
  unfold stageTarget
  refine Yields.bind (Q := fun r d₂ => d₁.Noted d₂ ∧ (r = none → d₂.Withheld t.name) ∧
      ∀ slot, r = some slot → d₁.Takes d₂ (cacheNames t.origin t.name slot))
    ⟨notes_cacheSlot m t.name cache d₁, yields_cacheSlot_withheld m t.name cache d₁,
      yields_cacheSlot_takes m t.name cache hown d₁⟩ fun slot d₂ hslot => ?_
  rcases hslot with ⟨h₂, hwithheld, htakes⟩
  split
  · exact hreject (h₁.noted h₂) h₂.added.toLater (hwithheld rfl)
  · rename_i slot
    have hslot : d.Stages d₂ [t.property] (cacheNames t.origin t.name slot) := by
      simpa using h₁.append (h₂.stages [] (htakes slot rfl))
    refine Yields.bind (Q := fun free d₃ => d₂.Noted d₃ ∧ (free = false → d₃.Withheld t.name) ∧
        (free = true → ∀ s : Staged, s.recompute = t.recompute → d₂.Takes d₃ s.function?.toList))
      ⟨notes_claimFunction _ _ _ d₂, yields_claimFunction_takes _ _ _ d₂⟩ fun free d₃ hfree => ?_
    rcases hfree with ⟨h₃, hwithheld, hfunction⟩
    split
    · rename_i hfree
      exact hreject (hslot.noted h₃) (h₂.trans h₃).added.toLater (hwithheld (by simpa using hfree))
    · rename_i hfree
      refine Yields.bind (Q := fun _ d₄ => d₃.Noted d₄) (notes_resolveSources _ _ _ _ d₃) fun sources d₄ h₄ => ?_
      refine Yields.bind (Q := fun _ d₅ => d₄.Noted d₅) (notes_checkReads _ _ _ d₄) fun _ d₅ h₅ => ?_
      have hname := hfunction (by simpa using hfree) ⟨t.property, t.name, t.type, t.origin, t.recompute, cache,
        notifies, slot, sources, m.nameSpan⟩ rfl
      have hboth := (hslot.append (h₃.stages [] hname)).noted (h₄.trans h₅)
      rw [List.append_nil] at hboth
      exact hboth

variable {c : ClassDecl}

theorem yields_stageDerived_stages {m : MemberDecl} (a : Annotation) (hm : m ∈ c.members) (d : Draft) :
    Yields (stageDerived m a) d fun r d' =>
      d.Stages d' (r.map Staged.property).toList (r.map Staged.ownNames |>.getD []) := by
  obtain ⟨cache, notifies, ignored, heq⟩ := stageDerived_eq m a
  rw [heq]
  refine ((yields_derivedTarget_stages m a cache d).and (yields_derivedTarget_entered a cache hm d)).bind
    fun target d₁ htarget => ?_
  rcases htarget with ⟨⟨h₁, hknown⟩, hentered⟩
  split
  · exact h₁
  · rename_i t
    have hown := (hentered t rfl).own
    split
    · refine Yields.bind (Q := fun _ d₂ => d₁.Noted d₂) (notes_report _ _ rfl d₁) fun _ d₂ h₂ => ?_
      exact yields_stageTarget_stages m a cache notifies hown (h₁.noted h₂) ((hknown t rfl).later h₂.added.toLater)
    · exact yields_stageTarget_stages m a cache notifies hown h₁ (hknown t rfl)

/-- An observable helper takes the name of its field. -/
theorem yields_stageObservable_takes (m : MemberDecl) (a : Annotation) (d : Draft) :
    Yields (stageObservable m a) d fun r d' => ∀ s, r = some s → d.Takes d' s.ownNames := by
  unfold stageObservable
  split
  · exact yields_reject
  · split
    · exact yields_reject
    · exact yields_reject
    · split
      · exact yields_reject
      · refine (yields_resolve m.name d).bind ?_
        rintro id d ⟨rfl, -⟩
        split
        · exact yields_none
        · refine (yields_claim_takes (Naming.slot m.name) m.nameSpan d).bind fun owner d₁ hclaim => ?_
          split
          · exact yields_reject
          · rintro s ⟨⟩
            exact hclaim rfl

theorem yields_stageMember_stages {m : MemberDecl} (annotations : List Annotation) (hm : m ∈ c.members) (d : Draft) :
    Yields (stageMember m annotations) d fun r d' =>
      d.Stages d' (r.map Staged.property).toList (r.map Staged.ownNames |>.getD []) := by
  unfold stageMember
  split
  · exact Draft.Noted.stages (notes_reject (α := Staged) _ _ rfl d) _ (.nil _ _)
  · exact yields_stageDerived_stages _ hm d
  · rename_i a _ _
    have hnoted := notes_stageObservable m a d
    have htakes := yields_stageObservable_takes m a d
    unfold Yields at htakes ⊢
    cases hr : (stageObservable m a d).1 with
    | none => exact hnoted.stages _ (.nil _ _)
    | some s => exact hnoted.stages _ (htakes s hr)
  · exact Draft.Stages.refl d

/-- The members add their properties and take their names one after the other. -/
theorem yields_stageAll_stages : ∀ (records : List (MemberDecl × List Annotation)) (d : Draft), Records c records →
    Yields (stageAll records) d fun staged d' =>
      d.Stages d' (staged.map Staged.property) (staged.flatMap Staged.ownNames)
  | [], d, _ => .refl d
  | (m, annotations) :: rest, d, hrecords => by
    rcases List.forall_mem_cons.mp hrecords with ⟨⟨hm, -⟩, hrest⟩
    unfold stageAll
    refine (yields_stageMember_stages annotations hm d).bind fun result d₁ h₁ => ?_
    split
    · exact (yields_stageAll_stages rest d₁ hrest).bind fun staged d₂ h₂ => h₁.append h₂
    · exact (yields_stageAll_stages rest d₁ hrest).imp fun staged d₂ h₂ => h₁.append h₂

/-- Announcements add no property and take no name. -/
theorem yields_mergeAll_stages (c : ClassDecl) {d₀ : Draft} (records : List (MemberDecl × List Annotation))
    (staged : List Staged) (d : Draft)
    (h : d₀.Stages d (staged.map Staged.property) (staged.flatMap Staged.ownNames)) :
    Yields (mergeAll c records staged) d fun staged' d' =>
      d₀.Stages d' (staged'.map Staged.property) (staged'.flatMap Staged.ownNames) := by
  refine yields_mergeAll
    (P := fun staged d => d₀.Stages d (staged.map Staged.property) (staged.flatMap Staged.ownNames))
    (fun _ _ _ h hnoted => h.noted hnoted) c ?_ records staged d h
  intro m a source staged target d _ h
  refine (yields_announce c m a source staged target d).imp fun staged' d' hannounced => ?_
  rcases hannounced with ⟨hnoted, rfl | ⟨index, s, hs, -, -, rfl⟩ | ⟨id, info, -, -, -, -, rfl⟩⟩
  · exact h.noted hnoted
  · rw [List.flatMap_def,
      map_modify_of_eq (f := fun s : Staged => { s with sources := s.sources ++ [source] }) fun _ => rfl,
      map_modify_of_eq (f := fun s : Staged => { s with sources := s.sources ++ [source] }) fun _ => rfl,
      ← List.flatMap_def]
    exact h.noted hnoted
  · refine (h.noted hnoted).mono (fun id hid => ?_) ?_
    · rw [List.map_append]
      exact List.mem_append_left _ hid
    · simp [Staged.ownNames, Staged.function?, cacheNames]

theorem yields_stagedSection_stages (c : ClassDecl) (d : Draft) :
    Yields (stagedSection c (annotatedMembers c).1) d fun staged d' =>
      d.Stages d' (staged.map Staged.property) (staged.flatMap Staged.ownNames) :=
  (yields_stageAll_stages _ d (records_annotatedMembers c)).bind fun staged d₁ h =>
    yields_mergeAll_stages c _ staged d₁ h

/-! ### Whole classes -/

/-- Before derived values are staged, every property is declared. -/
theorem yields_properties_declared (c : ClassDecl) :
    Yields (properties c) ⟨[], declaredNames c, []⟩ fun _ d => ∀ i ∈ d.members, i.synthesized = false := by
  have hall (ms : List MemberDecl) : ∀ d : Draft, (∀ i ∈ d.members, i.synthesized = false) →
      Yields (ms.forM declare) d fun _ d' => ∀ i ∈ d'.members, i.synthesized = false := by
    induction ms with
    | nil => exact fun d hold => hold
    | cons m ms ih => exact fun d hold => (yields_declare_files m d hold).bind fun _ d₁ h₁ => ih d₁ h₁.1
  unfold properties
  refine (hall c.members ⟨[], declaredNames c, []⟩ nofun).bind fun _ d₁ h₁ => ?_
  refine Yields.bind (Q := fun _ d₂ => d₂.members = d₁.members) rfl fun _ d₂ h₂ => ?_
  refine (yields_mutableProperties_fixed _ d₂).imp fun _ d₃ hfixed i hi => ?_
  have hmem : i.fixed ∈ d₂.members.map PropertyInfo.fixed := hfixed ▸ List.mem_map_of_mem hi
  rcases List.mem_map.mp hmem with ⟨j, hj, heq⟩
  have hsame : j.fixed.synthesized = i.fixed.synthesized := by rw [heq]
  exact hsame.symm.trans (h₁ j (h₂ ▸ hj))

end Drafting

/-- The properties that the class does not declare. -/
def MemberTable.added (table : MemberTable) : List String :=
  (table.filter PropertyInfo.synthesized).map PropertyInfo.name

theorem MemberTable.added_of_fixed {t t' : MemberTable}
    (h : t'.map PropertyInfo.fixed = t.map PropertyInfo.fixed) : t'.added = t.added := by
  have hadded (t : MemberTable) : t.added = MemberTable.added (t.map PropertyInfo.fixed) := by
    unfold added
    rw [List.filter_map, List.map_map]
    rfl
  rw [hadded, h, ← hadded]

/-- What has been added is what has been taken for. -/
theorem Draft.Stages.added {d d' : Draft} {ids : List PropertyId} {names : List String} (h : d.Stages d' ids names)
    (hdeclared : ∀ i ∈ d.members, i.synthesized = false) : d.Takes d' (d'.members.added ++ names) := by
  rcases h.grown with ⟨infos, hmembers, hsynthesized, htakes⟩
  have hold : d.members.filter PropertyInfo.synthesized = [] :=
    List.filter_eq_nil_iff.mpr fun i hi => by simp [hdeclared i hi]
  have hnew : infos.filter PropertyInfo.synthesized = infos := List.filter_eq_self.mpr hsynthesized
  rw [MemberTable.added, hmembers, List.filter_append, hold, hnew]
  exact htakes

namespace ClassModel

/-- The names of all generated members: the slot and the setting method of every reactive property; the slot, the flag
and the recomputing method of every cached value; the functions hoisted out of projections; the properties of derived
methods; and the property and the slot of every command. -/
def generatedNames (m : ClassModel) : List String :=
  m.mutableProperties.flatMap MutableProperty.takenNames
    ++ m.derived.flatMap (fun d => cacheNames d.origin d.name d.slot)
    ++ m.statics.map (fun f => f.name) ++ m.members.added ++ m.commands.flatMap CommandModel.takenNames

end ClassModel

namespace Drafting

theorem yields_derivedSection_stages (c : ClassDecl) (d : Draft) (hdeclared : ∀ i ∈ d.members, i.synthesized = false) :
    Yields (derivedSection c (annotatedMembers c).1) d fun section_ d' => d.Later d' ∧ d.Takes d'
      (section_.derived.flatMap (fun d => cacheNames d.origin d.name d.slot) ++ section_.statics.map (fun f => f.name)
        ++ d'.members.added) := by
  have hstages := yields_stagedSection_stages c d
  refine (yields_derivedSection c (annotatedMembers c).1 d).imp ?_
  rintro _ d' ⟨rfl, hnumbered, -⟩
  unfold Yields at hstages
  generalize stagedSection c (annotatedMembers c).1 d = result at hstages hnumbered ⊢
  rcases result with ⟨staged, d₁⟩
  obtain ⟨ds, fs, hsection, hof, hfunctions, -⟩ := DerivedSection.ofStaged_eq (Staged.acyclic staged)
  rw [hsection]
  refine ⟨hstages.toLater.trans hnumbered.toLater, ?_⟩
  have hkept : (Staged.acyclic staged).flatMap Staged.ownNames |>.Sublist (staged.flatMap Staged.ownNames) :=
    (Staged.acyclic_sublist staged).flatMap _
  have hcaches : ds.flatMap (fun d => cacheNames d.origin d.name d.slot) =
      (Staged.acyclic staged).flatMap fun s => cacheNames s.origin s.name s.slot := by
    rw [List.flatMap_def, List.flatMap_def]
    congr 1
    refine List.forall₂_eq_eq_eq ▸ ?_
    rw [List.forall₂_map_left_iff, List.forall₂_map_right_iff]
    exact hof.imp fun d s h => by rw [h.origin, h.name, h.slot]
  have hown : ((Staged.acyclic staged).flatMap Staged.ownNames).Perm
      (ds.flatMap (fun d => cacheNames d.origin d.name d.slot) ++ fs.map (fun f => f.name)) := by
    rw [hcaches, hfunctions, List.filterMap_eq_flatMap_toList]
    exact (List.flatMap_append_perm _ _ _).symm
  have htakes := (hstages.added hdeclared).sublist ((List.Sublist.refl _).append hkept)
  rw [MemberTable.added_of_fixed hnumbered.fixed]
  exact (htakes.perm (List.perm_append_comm.trans (hown.append_right _))).within (.refl d) hnumbered.toLater

theorem yields_classModel_names (s : DeclarationSet) (c : ClassDecl) :
    Yields (classModel s c) ⟨[], declaredNames c, []⟩ fun model d =>
      Draft.Takes ⟨[], declaredNames c, []⟩ d model.generatedNames := by
  rw [classModel_eq]
  refine ((yields_properties_takes c).and (yields_properties_declared c)).bind fun ps d₁ h₁ => ?_
  obtain ⟨⟨htakes₁, -, -, h₁⟩, hdeclared⟩ := h₁
  refine (yields_derivedSection_stages c d₁ hdeclared).bind fun section_ d₂ h₂ => ?_
  obtain ⟨h₂, htakes₂⟩ := h₂
  refine Yields.bind
    (Q := fun (ks : List CommandModel) d₃ => d₂.Noted d₃ ∧ d₂.Takes d₃ (ks.flatMap CommandModel.takenNames))
    ⟨notes_commands _ d₂, yields_commands_takes _ d₂⟩ fun ks d₃ h₃ => ?_
  obtain ⟨h₃, htakes₃⟩ := h₃
  refine Yields.bind (Q := fun _ d₄ => d₃.Noted d₄) (notes_localeGroups _ [] d₃) fun groups d₄ h₄ => ?_
  have hlater := h₃.added.toLater
  have htakes := (htakes₁.append htakes₂ h₁ h₂).append htakes₃ (h₁.trans h₂) hlater
  have hmembers : d₄.members = d₂.members := (h₃.trans h₄).members
  rw [← List.append_assoc, ← List.append_assoc, ← hmembers] at htakes
  exact htakes.within (.refl _) h₄.added.toLater

end Drafting

/-- Generated names never collide, neither with each other nor with a declared member; not even when members are
rejected because their names did. -/
theorem generated_names_distinct {s : DeclarationSet} {c : ClassDecl} {model : ClassModel}
    (h : (s.analyzeClass c).1 = some model) :
    model.generatedNames.Nodup ∧ ∀ n ∈ model.generatedNames, n ∉ c.names := by
  unfold DeclarationSet.analyzeClass at h
  split at h
  · cases h
  · split at h
    · cases h
    · cases h
      have htakes := Drafting.yields_classModel_names s c
      refine ⟨htakes.distinct, fun n hn hname => htakes.free n hn ?_⟩
      show n ∈ (declaredNames c).map Prod.fst
      rwa [declaredNames, List.map_map]

/-- A greenhouse in which two values need the slot `_warm`, and two derived methods the slot `_vent`. -/
def greenhouse : ClassDecl where
  name := "Greenhouse"
  typeParams := []
  modifiers := [.partial_]
  bases := [⟨"IReactiveObject", [], false⟩]
  members :=
    [⟨"Heat", [⟨"Reactive", [], .none⟩], [],
        .property ⟨⟨"int", [], false⟩, some ⟨none, .none⟩, some ⟨none, .none⟩, none⟩, .none, .none⟩,
      ⟨"Warm", [⟨"Derived", [⟨none, .path ["CacheMode", "LazyOnFirstAccess"], .none⟩, ⟨none, .string "Heat", .none⟩],
          .none⟩], [],
        .property ⟨⟨"bool", [], false⟩,
          some ⟨some (.binary .greater (.name "Heat" .none) (.literal (.int 20) .none) .none), .none⟩, none, none⟩,
        .none, .none⟩,
      ⟨"warm", [⟨"Derived", [⟨none, .string "Heat", .none⟩], .none⟩], [],
        .property ⟨⟨"bool", [], false⟩,
          some ⟨some (.binary .greater (.name "Heat" .none) (.literal (.int 30) .none) .none), .none⟩, none, none⟩,
        .none, .none⟩,
      ⟨"Shade", [⟨"Derived", [⟨none, .string "Heat", .none⟩], .none⟩], [],
        .property ⟨⟨"int", [], false⟩, some ⟨some (.call (.member (.this .none) "To" .none)
          [.lambda true "x" (.member (.name "x" .none) "Heat" .none) .none] .none), .none⟩, none, none⟩, .none, .none⟩,
      ⟨"Air", [⟨"Derived", [⟨none, .string "Heat", .none⟩, ⟨some "Property", .string "Vent", .none⟩], .none⟩], [],
        .method ⟨⟨"int", [], false⟩, [], some (.name "Heat" .none)⟩, .none, .none⟩,
      ⟨"Fan", [⟨"Derived", [⟨none, .string "Heat", .none⟩, ⟨some "Property", .string "vent", .none⟩], .none⟩], [],
        .method ⟨⟨"int", [], false⟩, [], some (.name "Heat" .none)⟩, .none, .none⟩,
      ⟨"Open", [⟨"Command", [], .none⟩], [], .method ⟨⟨"void", [], false⟩, [], none⟩, .none, .none⟩]
  nameSpan := .none
  span := .none

/-- The file that declares a greenhouse and nothing else. -/
def greenhouseFile : DeclarationSet := ⟨"", "", ⟨[], none, [greenhouse]⟩, default⟩

/-- The second value of each slot is rejected, and the property of the second method stays. -/
theorem generated_names_distinct_greenhouse : ∃ model, (greenhouseFile.analyzeClass greenhouse).1 = some model ∧
    model.generatedNames = ["_heat", "RaiseAndSetHeat", "_warm", "RecomputeWarm", "_warmInitialized", "_shade",
      "RecomputeShade", "_vent", "RecomputeVent", "_shadeProjection", "Vent", "vent", "OpenCommand", "_openCommand"] ∧
    model.generatedNames.Nodup ∧ ∀ n ∈ model.generatedNames, n ∉ greenhouse.names := by
  have hnames : (greenhouseFile.analyzeClass greenhouse).1.map ClassModel.generatedNames = some ["_heat",
      "RaiseAndSetHeat", "_warm", "RecomputeWarm", "_warmInitialized", "_shade", "RecomputeShade", "_vent",
      "RecomputeVent", "_shadeProjection", "Vent", "vent", "OpenCommand", "_openCommand"] := by decide +kernel
  obtain ⟨model, hmodel, heq⟩ := Option.map_eq_some_iff.mp hnames
  exact ⟨model, hmodel, heq, generated_names_distinct hmodel⟩

end Reactive
