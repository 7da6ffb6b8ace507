import Reactive.Proofs.Dangling

/-!
# Reactive.Proofs.Tracing — what derived bodies read is looked for among their sources

* `ClassDecl.Derives c name body`: an annotated member is exposed as the property `name` and computed by `body`.
* `Staged.Traced names reads s d`: what is read is among the sources of `s`, but for `s` itself and for what was no property
  when it was looked for, `names` being the properties then.
* `Drafting.yields_stageMember_traced`: unless something is found, a derived member is staged, and what it reads is traced.
* `Drafting.Traces`: the same of all members in order; announcements keep it (`yields_announce_traces`), and so does the
  rest of the analysis (`yields_classModel_traces`).
-/

namespace Reactive

/-- The member is exposed as the property `name` and computed by `body`, if `a` says that it is derived. -/
def MemberDecl.Exposes (m : MemberDecl) (a : Annotation) (name : String) (body : Expr) : Prop :=
  (∃ p, m.kind = .property p ∧ m.name = name ∧ p.getterBody? = some body) ∨
    ∃ d, m.kind = .method d ∧ a.string? "Property" = some name ∧ d.body = some body

/-- A member that is annotated as derived is exposed as the property `name` and computed by `body`. -/
def ClassDecl.Derives (c : ClassDecl) (name : String) (body : Expr) : Prop :=
  ∃ m ∈ c.members, ∃ a, findKind .derived ( Annotation.ofMember m).1 = some a ∧ m.Exposes a name body

theorem mem_annotatedMembers {c : ClassDecl} {m : MemberDecl} (hm : m ∈ c.members) :
    (m, ( Annotation.ofMember m).1) ∈ (annotatedMembers c).1 := by
  unfold annotatedMembers
  dsimp only
  rw [List.map_map]
  exact List.mem_map_of_mem (f := fun m => (m, ( Annotation.ofMember m).1)) hm

namespace Draft

variable {d d' : Draft} {n : String}

theorem Later.findings_eq_nil (h : d.Later d') (hnil : d'.findings = []) : d.findings = [] :=
  List.prefix_nil.mp (hnil ▸ h.findings)

theorem Later.names_subset (h : d.Later d') : d.names ⊆ d'.names := by
  have hnames : d.names <+: d'.names := by
    have hfixed := h.members.map PropertyInfo.name
    rwa [List.map_map, List.map_map] at hfixed
  exact hnames.subset

theorem resolve?_eq_none_iff : d.members.resolve? n = none ↔ n ∉ d.names := by
  unfold MemberTable.resolve? Draft.names
  rw [List.findIdx?_eq_none_iff, List.mem_map]
  simp

end Draft

/-- What a body reads has been looked for among the sources of a value: all of it is there, but for the value itself and
for what was no property yet. -/
def Staged.Traced (s : Staged) (names : List String) (reads : List Expr.Read) (d : Draft) : Prop :=
  ∀ read ∈ reads, read.name ≠ s.name →
    (∃ id ∈ s.sources, d.members.resolve? read.name = some id) ∨ read.name ∉ names

namespace Drafting

variable {α : Type}

/-- What is found stays found. -/
theorem Notes.findings_eq_nil {x : Drafting α} (hx : Notes x) {d : Draft} (h : (x d).2.findings = []) : d.findings = [] :=
  (hx d).added.toLater.findings_eq_nil h

theorem findings_report_ne_nil (cause : FindingCause) (span : Span) (d : Draft) : (report cause span d).2.findings ≠ [] :=
  List.append_ne_nil_of_right_ne_nil _ (List.cons_ne_nil _ _)

theorem yields_reject_found {cause : FindingCause} {span : Span} {d : Draft} {P : Option α → Draft → Prop} :
    Yields (reject cause span) d fun r d' => d'.findings = [] → P r d' :=
  fun hnil => absurd hnil (findings_report_ne_nil cause span d)

/-! ### Targets -/

theorem yields_stagedBody_some (m : MemberDecl) (body : Expr) (d : Draft) :
    Yields (stagedBody m body) d fun r d' => d'.findings = [] → ∃ recompute, r = some recompute := by
  unfold stagedBody
  split
  · split
    · exact yields_reject_found
    · split
      · exact yields_reject_found
      · exact fun _ => ⟨_, rfl⟩
  · split
    · exact yields_reject_found
    · exact fun _ => ⟨_, rfl⟩

theorem yields_propertyTarget_reads (m : MemberDecl) {p : PropertyDecl} (a : Annotation) (cache : CachePolicy) {body : Expr}
    (hbody : p.getterBody? = some body) {d : Draft} (hname : m.name ∈ d.names) :
    Yields (propertyTarget m p a cache) d fun r d' => d'.findings = [] →
      ∃ t, r = some t ∧ t.name = m.name ∧ t.reads = body.memberReads := by
  unfold propertyTarget
  split
  · exact yields_reject_found
  · split
    · exact yields_reject_found
    · refine (yields_resolve m.name d).bind ?_
      rintro id d ⟨rfl, hid⟩
      split
      · exact absurd hname (Draft.resolve?_eq_none_iff.mp hid)
      · rw [hbody]
        refine (yields_stagedBody_some m body d).bind fun result d₁ h₁ => ?_
        split
        · exact fun _ => ⟨_, rfl, rfl, rfl⟩
        · intro hnil
          obtain ⟨recompute, hnone⟩ := h₁ hnil
          cases hnone

theorem yields_methodTarget_reads (m : MemberDecl) {decl : MethodDecl} (a : Annotation) {exposed : String} {body : Expr}
    (hexposed : a.string? "Property" = some exposed) (hbody : decl.body = some body) (d : Draft) :
    Yields (methodTarget m decl a) d fun r d' => d'.findings = [] →
      ∃ t, r = some t ∧ t.name = exposed ∧ t.reads = body.memberReads := by
  unfold methodTarget
  rw [hexposed]
  dsimp only
  split
  · exact yields_reject_found
  · split
    · exact yields_reject_found
    · refine Yields.bind (Q := fun _ _ => True) trivial fun owner d₁ _ => ?_
      split
      · exact yields_reject_found
      · refine Yields.bind (Q := fun _ _ => True) trivial fun result d₂ _ => ?_
        split
        · exact yields_reject_found
        · exact fun _ => ⟨_, rfl, rfl, by rw [hbody]; rfl⟩

theorem yields_derivedTarget_reads {m : MemberDecl} {a : Annotation} {name : String} {body : Expr}
    (h : m.Exposes a name body) (cache : CachePolicy) {d : Draft} (hdeclared : ∀ p, m.kind = .property p → m.name ∈ d.names) :
    Yields (derivedTarget m a cache) d fun r d' => d'.findings = [] →
      ∃ t, r = some t ∧ t.name = name ∧ t.reads = body.memberReads := by
  unfold derivedTarget
  obtain ⟨p, hp, rfl, hbody⟩ | ⟨decl, hdecl, hexposed, hbody⟩ := h
  · rw [hp]
    exact yields_propertyTarget_reads m a cache hbody (hdeclared p hp)
  · rw [hdecl]
    exact yields_methodTarget_reads m a hexposed hbody d

/-! ### Sources and reads -/

/-- Unless something is found, every source has its number in the list. -/
theorem yields_resolveSources_mem (name : String) (a : Annotation) : ∀ (names : List String) (sources : List PropertyId)
    (d : Draft), Yields (resolveSources name a names sources) d fun ids d' => d'.findings = [] →
      sources ⊆ ids ∧ ∀ n ∈ names, ∃ id ∈ ids, d'.members.resolve? n = some id
  | [], sources, _ => fun _ => ⟨List.Subset.refl sources, nofun⟩
  | source :: rest, sources, d => by
    unfold resolveSources
    refine (yields_resolve source d).bind ?_
    rintro found d ⟨rfl, hfound⟩
    split
    · rename_i id
      have hsources : sources ⊆ (if sources.contains id then sources else sources ++ [id]) ∧
          id ∈ if sources.contains id then sources else sources ++ [id] := by
        split
        · rename_i hmem
          exact ⟨List.Subset.refl _, by simpa using hmem⟩
        · exact ⟨List.subset_append_left _ _, List.mem_append_right _ (List.mem_singleton_self id)⟩
      refine ((yields_resolveSources_mem name a rest _ d).and_later (notes_resolveSources name a rest _).adds).imp ?_
      rintro ids d' ⟨hrest, hlater⟩ hnil
      obtain ⟨hsubset, hall⟩ := hrest hnil
      exact ⟨fun _ hmem => hsubset (hsources.1 hmem),
        List.forall_mem_cons.mpr ⟨⟨id, hsubset hsources.2, hlater.resolve? hfound⟩, hall⟩⟩
    · refine Yields.bind (Q := fun _ d₁ => d₁.findings ≠ []) (findings_report_ne_nil _ _ d) fun _ d₁ h₁ hnil => ?_
      exact absurd ((notes_resolveSources name a rest sources).findings_eq_nil hnil) h₁

/-- Unless something is found, every property that is read is declared as a source. -/
theorem yields_checkReads_declared (name : String) (declared : List String) : ∀ (reads : List Expr.Read) (d : Draft),
    Yields (checkReads name declared reads) d fun _ d' => d'.findings = [] →
      ∀ read ∈ reads, read.name ≠ name → read.name ∈ declared ∨ read.name ∉ d.names
  | [], _ => fun _ => nofun
  | read :: rest, d => by
    have hrest := yields_checkReads_declared name declared rest d
    unfold checkReads
    dsimp only
    split
    · rename_i hskip
      refine hrest.imp fun _ d' h hnil => List.forall_mem_cons.mpr ⟨fun hne => Or.inl ?_, h hnil⟩
      simpa [hne] using hskip
    · refine (yields_resolve read.name d).bind ?_
      rintro found d ⟨rfl, hfound⟩
      split
      · refine Yields.bind (Q := fun _ d₁ => d₁.findings ≠ []) (findings_report_ne_nil _ _ d) fun _ d₁ h₁ hnil => ?_
        exact absurd ((notes_checkReads name declared rest).findings_eq_nil hnil) h₁
      · rename_i hnone
        refine hrest.imp fun _ d' h hnil => List.forall_mem_cons.mpr ⟨fun _ => Or.inr ?_, h hnil⟩
        exact Draft.resolve?_eq_none_iff.mp (hfound.trans (by simpa using hnone))

/-! ### Staged values -/

theorem yields_cacheSlot_some (m : MemberDecl) (name : String) (cache : CachePolicy) (d : Draft) :
    Yields (cacheSlot m name cache) d fun r d' => d'.findings = [] → ∃ slot, r = some slot := by
  unfold cacheSlot
  split
  · exact fun _ => ⟨_, rfl⟩
  · refine Yields.bind (Q := fun _ _ => True) trivial fun conflict d₁ _ => ?_
    split
    · exact yields_reject_found
    · exact fun _ => ⟨_, rfl⟩

theorem yields_claimFunction_true (m : MemberDecl) (name : String) (recompute : Option StagedRecompute) (d : Draft) :
    Yields (claimFunction m name recompute) d fun free d' => d'.findings = [] → free = true := by
  unfold claimFunction
  split
  · refine Yields.bind (Q := fun _ _ => True) trivial fun existing d₁ _ => ?_
    split
    · exact fun hnil => absurd hnil (findings_report_ne_nil _ _ d₁)
    · exact fun _ => rfl
  · exact fun _ => rfl

theorem yields_stageTarget_traced (m : MemberDecl) (a : Annotation) (cache : CachePolicy) (notifies : Bool) (t : Target)
    (d : Draft) : Yields (stageTarget m a cache notifies t) d fun r d' => d'.findings = [] →
      ∃ s, r = some s ∧ s.name = t.name ∧ s.Traced d.names t.reads d' := by
  unfold stageTarget
  refine Yields.bind (Q := fun r d₁ => d.Later d₁ ∧ (d₁.findings = [] → ∃ slot, r = some slot))
    ⟨(notes_cacheSlot m t.name cache).yields d, yields_cacheSlot_some m t.name cache d⟩ fun slot d₁ h₁ => ?_
  split
  · intro hnil
    obtain ⟨slot, hnone⟩ := h₁.2 hnil
    cases hnone
  · refine Yields.bind (Q := fun free d₂ => d₁.Later d₂ ∧ (d₂.findings = [] → free = true))
      ⟨(notes_claimFunction m t.name t.recompute).yields d₁, yields_claimFunction_true m t.name t.recompute d₁⟩
      fun free d₂ h₂ => ?_
    split
    · rename_i hfree
      intro hnil
      rw [h₂.2 hnil] at hfree
      cases hfree
    · refine ((yields_resolveSources_mem t.name a (a.strings "Sources") [] d₂).and_later
        (notes_resolveSources _ _ _ _).adds).bind fun ids d₃ h₃ => ?_
      refine ((yields_checkReads_declared t.name (a.strings "Sources") t.reads d₃).and_later
        (notes_checkReads _ _ _).adds).bind fun _ d₄ h₄ hnil => ⟨_, rfl, rfl, fun read hread hne => ?_⟩
      obtain hdeclared | hnew := h₄.1 hnil read hread hne
      · obtain ⟨id, hid, hresolved⟩ := (h₃.1 (h₄.2.findings_eq_nil hnil)).2 read.name hdeclared
        exact Or.inl ⟨id, hid, h₄.2.resolve? hresolved⟩
      · exact Or.inr fun hold => hnew (((h₁.1.trans h₂.1).trans h₃.2).names_subset hold)

theorem yields_stageDerived_traced {m : MemberDecl} {a : Annotation} {name : String} {body : Expr}
    (h : m.Exposes a name body) {d : Draft} (hdeclared : ∀ p, m.kind = .property p → m.name ∈ d.names) :
    Yields (stageDerived m a) d fun r d' => d'.findings = [] →
      ∃ s, r = some s ∧ s.name = name ∧ s.Traced d.names body.memberReads d' := by
  obtain ⟨cache, notifies, ignored, heq⟩ := stageDerived_eq m a
  rw [heq]
  refine ((yields_derivedTarget_reads h cache hdeclared).and_later (adds_derivedTarget m a cache)).bind
    fun target d₁ h₁ => ?_
  split
  · intro hnil
    obtain ⟨t, hnone, -⟩ := h₁.1 hnil
    cases hnone
  · rename_i t
    have hstage (d₂ : Draft) (h₂ : d₁.Later d₂) : Yields (stageTarget m a cache notifies t) d₂ fun r d' =>
        d'.findings = [] → ∃ s, r = some s ∧ s.name = name ∧ s.Traced d.names body.memberReads d' := by
      refine ((yields_stageTarget_traced m a cache notifies t d₂).and_later (notes_stageTarget _ _ _ _ _).adds).imp ?_
      rintro r d₃ ⟨hstaged, h₃⟩ hnil
      obtain ⟨_, ⟨⟩, htname, htreads⟩ := h₁.1 ((h₂.trans h₃).findings_eq_nil hnil)
      obtain ⟨s, hs, hsname, htraced⟩ := hstaged hnil
      rw [htreads] at htraced
      exact ⟨s, hs, hsname.trans htname, fun read hread hne => (htraced read hread hne).imp_right fun hnew hold =>
        hnew ((h₁.2.trans h₂).names_subset hold)⟩
    split
    · exact Yields.bind (Q := fun _ d₂ => d₁.Later d₂) ((notes_report _ _ rfl).yields d₁) fun _ d₂ h₂ => hstage d₂ h₂
    · exact hstage d₁ (.refl d₁)

theorem yields_stageMember_traced {m : MemberDecl} {annotations : List Annotation} {a : Annotation} {name : String}
    {body : Expr} (ha : findKind .derived annotations = some a) (h : m.Exposes a name body) {d : Draft}
    (hdeclared : ∀ p, m.kind = .property p → m.name ∈ d.names) :
    Yields (stageMember m annotations) d fun r d' => d'.findings = [] →
      ∃ s, r = some s ∧ s.name = name ∧ s.Traced d.names body.memberReads d' := by
  unfold stageMember
  rw [ha]
  split
  · exact yields_reject_found
  · rename_i a' heq _
    cases heq
    exact yields_stageDerived_traced h hdeclared
  · rename_i heq _
    cases heq
  · rename_i heq _
    cases heq

/-- Each derived member among the records is staged. What its body reads is among its sources, but for the value itself and
for properties that neither were there at first nor belong to what is staged before. -/
def Traces (records : List (MemberDecl × List Annotation)) (names : List String) (staged : List Staged) (d : Draft) :
    Prop :=
  ∀ r ∈ records, ∀ a, findKind .derived r.2 = some a → ∀ name body, r.1.Exposes a name body →
    ∃ (i : Nat) (s : Staged), staged[i]? = some s ∧ s.name = name ∧
      s.Traced (names ++ (staged.take i).map Staged.name) body.memberReads d

theorem yields_stageAll_traces : ∀ (records : List (MemberDecl × List Annotation)) (d : Draft),
    (∀ r ∈ records, ∀ p, r.1.kind = .property p → r.1.name ∈ d.names) →
      Yields (stageAll records) d fun staged d' => d'.findings = [] → Traces records d.names staged d'
  | [], _, _ => fun _ => nofun
  | (m, annotations) :: rest, d, hdeclared => by
    obtain ⟨hm, hrest⟩ := List.forall_mem_cons.mp hdeclared
    have htail (d₁ : Draft) (h₁ : d.Later d₁) : Yields (stageAll rest) d₁ fun staged d' =>
        (d'.findings = [] → Traces rest d₁.names staged d') ∧ d₁.Later d' :=
      (yields_stageAll_traces rest d₁ fun r hr p hp => h₁.names_subset (hrest r hr p hp)).and_later (adds_stageAll rest)
    unfold stageAll
    refine Yields.bind (Q := fun r d₁ => d.Later d₁ ∧ (∀ s : Staged, r = some s → s.Bound d₁.members) ∧
        ∀ a, findKind .derived annotations = some a → ∀ name body, m.Exposes a name body → d₁.findings = [] →
          ∃ s : Staged, r = some s ∧ s.name = name ∧ s.Traced d.names body.memberReads d₁)
      ⟨(adds_stageMember m annotations d).toLater, yields_stageMember_bound m annotations d,
        fun a ha name body h => yields_stageMember_traced ha h hm⟩ fun result d₁ h₁ => ?_
    obtain ⟨hlater, hbound, hhead⟩ := h₁
    split
    · rename_i s
      refine (htail d₁ hlater).bind ?_
      rintro staged d₂ ⟨hstaged, h₂⟩ hnil
      have hname : s.name ∈ d₁.names := by
        obtain ⟨i, hi, hname⟩ := Option.map_eq_some_iff.mp (hbound s rfl).known
        exact hname ▸ List.mem_map_of_mem (List.mem_of_getElem? hi)
      refine List.forall_mem_cons.mpr ⟨fun a ha name body h => ?_, fun r hr a ha name body h => ?_⟩
      · obtain ⟨_, ⟨⟩, hsname, htraced⟩ := hhead a ha name body h (h₂.findings_eq_nil hnil)
        refine ⟨0, s, rfl, hsname, fun read hread hne => (htraced read hread hne).imp ?_ ?_⟩
        · exact fun ⟨id, hid, hresolved⟩ => ⟨id, hid, h₂.resolve? hresolved⟩
        · exact fun hnew => by simpa using hnew
      · obtain ⟨i, t, ht, htname, htraced⟩ := hstaged hnil r hr a ha name body h
        refine ⟨i + 1, t, ht, htname, fun read hread hne => (htraced read hread hne).imp_right fun hnew hold => ?_⟩
        change read.name ∈ d.names ++ s.name :: (staged.take i).map Staged.name at hold
        rw [List.mem_append, List.mem_cons] at hold
        rw [List.mem_append] at hnew
        obtain hold | hold | hold := hold
        · exact hnew (Or.inl (hlater.names_subset hold))
        · exact hnew (Or.inl (hold ▸ hname))
        · exact hnew (Or.inr hold)
    · refine (htail d₁ hlater).imp ?_
      rintro staged d₂ ⟨hstaged, h₂⟩ hnil
      refine List.forall_mem_cons.mpr ⟨fun a ha name body h => ?_, fun r hr a ha name body h => ?_⟩
      · obtain ⟨s, hnone, -⟩ := hhead a ha name body h (h₂.findings_eq_nil hnil)
        cases hnone
      · obtain ⟨i, t, ht, htname, htraced⟩ := hstaged hnil r hr a ha name body h
        refine ⟨i, t, ht, htname, fun read hread hne => (htraced read hread hne).imp_right fun hnew hold => ?_⟩
        rw [List.mem_append] at hold hnew
        exact hnew (hold.imp_left fun hold => hlater.names_subset hold)

theorem Traces.later {records : List (MemberDecl × List Annotation)} {names : List String} {staged : List Staged}
    {d d' : Draft} (h : Traces records names staged d) (hlater : d.Later d') : Traces records names staged d' := by
  intro r hr a ha name body hbody
  obtain ⟨i, s, hs, hname, htraced⟩ := h r hr a ha name body hbody
  exact ⟨i, s, hs, hname, fun read hread hne => (htraced read hread hne).imp_left
    fun ⟨id, hid, hresolved⟩ => ⟨id, hid, hlater.resolve? hresolved⟩⟩

/-- Announcements only add sources, and values behind the others. -/
theorem yields_announce_traces {records : List (MemberDecl × List Annotation)} {names : List String} (c : ClassDecl)
    (m : MemberDecl) (a : Annotation) (source : PropertyId) (staged : List Staged) (target : String) (d : Draft)
    (h : d.findings = [] → Traces records names staged d) :
    Yields (announce c m a source staged target) d fun staged' d' =>
      d'.findings = [] → Traces records names staged' d' := by
  refine (yields_announce c m a source staged target d).imp ?_
  rintro staged' d' ⟨hnoted, hannounced⟩ hnil r hr a' ha name body hbody
  have hlater := hnoted.added.toLater
  obtain ⟨i, s, hs, hname, htraced⟩ := h (hlater.findings_eq_nil hnil) r hr a' ha name body hbody
  have hkept : ∃ t, staged'[i]? = some t ∧ t.name = s.name ∧ s.sources ⊆ t.sources ∧
      (staged'.take i).map Staged.name = (staged.take i).map Staged.name := by
    obtain rfl | ⟨index, -, -, -, -, rfl⟩ | ⟨id, info, -, -, -, -, rfl⟩ := hannounced
    · exact ⟨s, hs, rfl, List.Subset.refl _, rfl⟩
    · have hnames : (staged.modify index fun s : Staged => { s with sources := s.sources ++ [source] }).map Staged.name =
          staged.map Staged.name :=
        map_modify_of_eq (f := fun s : Staged => { s with sources := s.sources ++ [source] }) (fun _ => rfl) _ _
      rw [List.map_take, hnames, ← List.map_take, List.getElem?_modify, hs]
      refine ⟨_, rfl, ?_, ?_, rfl⟩
      · dsimp only
        split <;> rfl
      · dsimp only
        split
        · exact List.subset_append_left _ _
        · exact List.Subset.refl _
    · have hlt : i < staged.length := (List.getElem?_eq_some_iff.mp hs).1
      refine ⟨s, ?_, rfl, List.Subset.refl _, ?_⟩
      · rw [List.getElem?_append_left hlt, hs]
      · rw [List.take_append_of_le_length (le_of_lt hlt)]
  obtain ⟨t, ht, htname, hsources, hearlier⟩ := hkept
  refine ⟨i, t, ht, htname.trans hname, fun read hread hne => ?_⟩
  rw [hearlier]
  refine (htraced read hread (htname ▸ hne)).imp_left ?_
  exact fun ⟨id, hid, hresolved⟩ => ⟨id, hsources hid, hlater.resolve? hresolved⟩

theorem yields_stagedSection_traces (c : ClassDecl) (records : List (MemberDecl × List Annotation)) (d : Draft)
    (hdeclared : ∀ r ∈ records, ∀ p, r.1.kind = .property p → r.1.name ∈ d.names) :
    Yields (stagedSection c records) d fun staged d' => d'.findings = [] → Traces records d.names staged d' := by
  refine (yields_stageAll_traces records d hdeclared).bind fun staged d₁ h₁ => ?_
  refine yields_mergeAll (P := fun staged d' => d'.findings = [] → Traces records d.names staged d') ?_ c ?_ records
    staged d₁ h₁
  · intro staged d₂ d₃ h hnoted hnil
    have hlater := hnoted.added.toLater
    exact (h (hlater.findings_eq_nil hnil)).later hlater
  · exact fun m a source staged target d₂ _ h => yields_announce_traces c m a source staged target d₂ h

theorem yields_classModel_traces (s : DeclarationSet) (c : ClassDecl) :
    Yields (classModel s c) ⟨[], declaredNames c, []⟩ fun model d => model.members = d.members ∧
      (d.findings = [] → ∃ names, propertyNames c.members ⊆ names ∧ Traces (annotatedMembers c).1 names c.staged d) := by
  rw [classModel_eq]
  refine Yields.bind (Q := fun ps d => properties c ⟨[], declaredNames c, []⟩ = (ps, d)) rfl fun ps d₁ hproperties => ?_
  obtain ⟨-, -, -, hunrepeated, -, -, -, -⟩ := (yields_properties c).of_eq hproperties
  have hstaged : (stagedSection c (annotatedMembers c).1 d₁).1 = c.staged := by
    show _ = (stagedSection c (annotatedMembers c).1 (properties c ⟨[], declaredNames c, []⟩).2).1
    rw [hproperties]
  refine (yields_derivedSection c (annotatedMembers c).1 d₁).bind ?_
  rintro section_ d₃ ⟨-, h₃, -⟩
  refine Yields.bind (Q := fun _ d => d₃.Later d) ((notes_commands _).yields d₃) fun commands d₄ h₄ => ?_
  refine Yields.bind (Q := fun _ d => d₄.Later d) ((notes_localeGroups _ []).yields d₄) fun groups d₅ h₅ => ?_
  refine ⟨rfl, fun hnil => ?_⟩
  have hlater := (h₃.toLater.trans h₄).trans h₅
  have h₂ := (adds_stagedSection c (annotatedMembers c).1 d₁).toLater
  have hnil₂ := hlater.findings_eq_nil hnil
  have hnil₁ := h₂.findings_eq_nil hnil₂
  have hregisters : d₁.members.Registers c := (hunrepeated fun f hf => by rw [hnil₁] at hf; cases hf).2
  have hdeclared {m : MemberDecl} (hm : m ∈ c.members) {p : PropertyDecl} (hp : m.kind = .property p) : m.name ∈ d₁.names := by
    obtain ⟨i, hi, -⟩ := hregisters m hm p hp
    exact MemberTable.name_of_find? hi ▸ List.mem_map_of_mem (List.mem_of_find?_eq_some hi)
  refine ⟨d₁.names, fun n hn => ?_, ?_⟩
  · obtain ⟨m, hm, hproperty⟩ := List.mem_filterMap.mp hn
    obtain ⟨p, hp, rfl⟩ := Option.map_eq_some_iff.mp hproperty
    exact hdeclared hm (MemberDecl.property?_eq_some.mp hp)
  · have htraces := yields_stagedSection_traces c (annotatedMembers c).1 d₁ fun r hr p hp =>
      hdeclared (annotatedMembers_fst c ▸ List.mem_map_of_mem hr) hp
    have hkept := htraces hnil₂
    rw [hstaged] at hkept
    exact hkept.later hlater

end Drafting

end Reactive
