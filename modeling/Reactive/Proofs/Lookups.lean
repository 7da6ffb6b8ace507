import Reactive.Proofs.Silence
import Reactive.Proofs.Tracing

/-!
# Reactive.Proofs.Lookups — names that are looked up while derived values are staged

The sources of a derived value and what its body reads are looked up among the properties that there are when it is
staged: the declared ones, its own, and those of the derived methods before it.

* `Annotation.lookup`: what is found about a value when the class has these properties.
* `Lookup`: one lookup among those of all members, with what is known of the properties then and in the end.
* `Drafting.yields_stageAll_lookups`: what is found about names comes from lookups, one for each derived value.
* `Drafting.Extends`, `Drafting.yields_mergeAll_extends`: what announcements add to the sources of a value.
* `ClassModel.LookedUp`, `Drafting.yields_classModel_lookups`: the same of the model of a class and its findings.
-/

namespace Reactive

namespace MemberDecl

/-- The annotation that says that the member is derived. -/
def derived? (m : MemberDecl) : Option Annotation := findKind .derived ( Annotation.ofMember m).1

/-- The name of the property as which a member is exposed if `a` says that it is derived. -/
def exposedBy? (m : MemberDecl) (a : Annotation) : Option String :=
  match m.kind with
  | .property _ => some m.name
  | .method _ => a.string? "Property"

/-- The name of the property as which a derived member is exposed. -/
def exposed? (m : MemberDecl) : Option String := m.derived?.bind m.exposedBy?

/-- The property `i` has been added for a method, which `a` says is derived. -/
structure AddsBy (m : MemberDecl) (a : Annotation) (i : PropertyInfo) : Prop where
  method : m.method?.isSome = true
  exposed : m.exposedBy? a = some i.name
  synthesized : i.synthesized = true
  span : i.span = a.span

/-- The property `i` has been added for a derived method. -/
def Adds (m : MemberDecl) (i : PropertyInfo) : Prop := ∃ a, m.derived? = some a ∧ m.AddsBy a i

/-- The expression that a member computes. -/
def expression? (m : MemberDecl) : Option Expr :=
  match m.kind with
  | .property p => p.getterBody?
  | .method d => d.body

/-- What the body of a member reads. -/
def reads (m : MemberDecl) : List Expr.Read := (m.expression?.map Expr.memberReads).getD []

section

variable {m : MemberDecl} {p : PropertyDecl} {d : MethodDecl} (a : Annotation)

theorem exposedBy?_property (h : m.kind = .property p) : m.exposedBy? a = some m.name := by rw [exposedBy?, h]

theorem exposedBy?_method (h : m.kind = .method d) : m.exposedBy? a = a.string? "Property" := by rw [exposedBy?, h]

theorem exposed?_eq {a : Annotation} (h : m.derived? = some a) : m.exposed? = m.exposedBy? a := by
  rw [exposed?, h]
  rfl

theorem expression?_property (h : m.kind = .property p) : m.expression? = p.getterBody? := by rw [expression?, h]

theorem expression?_method (h : m.kind = .method d) : m.expression? = d.body := by rw [expression?, h]

theorem isSome_method? (h : m.kind = .method d) : m.method?.isSome = true := by
  rw [method?, h]
  rfl

end

/-- The member with its annotations. -/
def annotated (m : MemberDecl) : MemberDecl × List Annotation := (m, ( Annotation.ofMember m).1)

end MemberDecl

theorem annotatedMembers_eq (c : ClassDecl) : (annotatedMembers c).1 = c.members.map MemberDecl.annotated := by
  unfold annotatedMembers
  dsimp only
  rw [List.map_map]
  rfl

/-- What is found about the sources and the reads of a value that is exposed as `name`, if the class has the properties
`names`. -/
def Annotation.lookup (a : Annotation) (name : String) (reads : List Expr.Read) (names : List String) : List Finding :=
  ((a.strings "Sources").filter (· ∉ names)).map (fun source => ⟨.unknownSource name source, a.span⟩) ++
    (reads.filter fun r => r.name ≠ name ∧ r.name ∉ a.strings "Sources" ∧ r.name ∈ names).map fun r =>
      ⟨.undeclaredRead name r.name, r.span⟩

theorem Annotation.mem_lookup_unknown {a : Annotation} {name source : String} {reads : List Expr.Read}
    {names : List String} {value : String} {span : Span} :
    Finding.mk (.unknownSource value source) span ∈ a.lookup name reads names ↔
      value = name ∧ span = a.span ∧ source ∈ a.strings "Sources" ∧ source ∉ names := by
  simp [lookup]
  grind

theorem Annotation.mem_lookup_undeclared {a : Annotation} {name read : String} {reads : List Expr.Read}
    {names : List String} {value : String} {span : Span} :
    Finding.mk (.undeclaredRead value read) span ∈ a.lookup name reads names ↔
      value = name ∧ (∃ r ∈ reads, r.name = read ∧ r.span = span) ∧ read ≠ name ∧ read ∉ a.strings "Sources" ∧
        read ∈ names := by
  simp [lookup]
  grind

theorem Annotation.isLookup_of_mem {a : Annotation} {name : String} {reads : List Expr.Read} {names : List String}
    {f : Finding} (hf : f ∈ a.lookup name reads names) : f.cause.isLookup = true := by
  obtain hf | hf := List.mem_append.mp hf
  · obtain ⟨source, -, rfl⟩ := List.mem_map.mp hf
    rfl
  · obtain ⟨read, -, rfl⟩ := List.mem_map.mp hf
    rfl

namespace Draft

/-- What there was a property of stands for the same one later. -/
theorem Later.resolve?_iff {d d' : Draft} (h : d.Later d') {n : String} {id : PropertyId} :
    d.members.resolve? n = some id ↔ n ∈ d.names ∧ d'.members.resolve? n = some id := by
  constructor
  · intro hid
    refine ⟨Decidable.byContradiction fun hnone => ?_, h.resolve? hid⟩
    rw [resolve?_eq_none_iff.mpr hnone] at hid
    cases hid
  · rintro ⟨hn, hid⟩
    cases hold : d.members.resolve? n with
    | none => exact absurd hn (resolve?_eq_none_iff.mp hold)
    | some id' => exact (h.resolve? hold).symm.trans hid

/-- A table with the same names gives them the same numbers. -/
theorem Later.resolve?_eq {d d' : Draft} (h : d.Later d') (hnames : d'.names = d.names) (n : String) :
    d'.members.resolve? n = d.members.resolve? n := by
  refine Option.ext fun id => ?_
  rw [h.resolve?_iff, ← hnames]
  exact ⟨fun hid => ⟨((Later.refl d').resolve?_iff.mp hid).1, hid⟩, And.right⟩

end Draft

namespace Drafting

/-! ### Sources and reads -/

/-- The sources that are no properties are reported, and the others resolved. -/
theorem yields_resolveSources_exact (name : String) (a : Annotation) : ∀ (names : List String)
    (sources : List PropertyId) (d : Draft), Yields (resolveSources name a names sources) d fun ids d' => d'.members = d.members ∧
      d'.findings = d.findings ++
        (names.filter (· ∉ d.names)).map (fun source => ⟨.unknownSource name source, a.span⟩) ∧
      ∀ id, id ∈ ids ↔ id ∈ sources ∨ ∃ n ∈ names, d.members.resolve? n = some id
  | [], sources, d => ⟨rfl, (List.append_nil _).symm, fun _ => ⟨Or.inl, fun h => h.resolve_right nofun⟩⟩
  | source :: rest, sources, d => by
    unfold resolveSources
    refine (yields_resolve source d).bind ?_
    rintro found d ⟨rfl, hfound⟩
    split
    · rename_i id
      have hsource : source ∈ d.names := ((Draft.Later.refl d).resolve?_iff.mp hfound).1
      refine (yields_resolveSources_exact name a rest _ d).imp ?_
      rintro ids d' ⟨hmembers, hfindings, hids⟩
      refine ⟨hmembers, ?_, fun id' => (hids id').trans ?_⟩
      · rw [hfindings, List.filter_cons_of_neg (by simpa using hsource)]
      · have hadded : id' ∈ (if sources.contains id then sources else sources ++ [id]) ↔ id' ∈ sources ∨ id' = id := by
          split
          · rename_i hmem
            exact ⟨Or.inl, fun h => h.elim (fun h => h) fun h => h ▸ List.contains_iff_mem.mp hmem⟩
          · rw [List.mem_append, List.mem_singleton]
        rw [hadded, or_assoc]
        refine or_congr_right ?_
        simp [hfound, eq_comm]
    · have hsource : source ∉ d.names := Draft.resolve?_eq_none_iff.mp hfound
      refine Yields.bind (Q := fun _ d₁ =>
        d₁ = { d with findings := d.findings ++ [⟨.unknownSource name source, a.span⟩] }) rfl ?_
      rintro _ _ rfl
      refine (yields_resolveSources_exact name a rest sources _).imp ?_
      rintro ids d' ⟨hmembers, hfindings, hids⟩
      refine ⟨hmembers, ?_, fun id => (hids id).trans (or_congr_right ?_)⟩
      · rw [hfindings, List.filter_cons_of_pos (by simpa using hsource), List.map_cons, List.append_assoc]
        rfl
      · simp [hfound]

/-- The properties that are read and no sources are reported. -/
theorem yields_checkReads_exact (name : String) (declared : List String) : ∀ (reads : List Expr.Read) (d : Draft),
    Yields (checkReads name declared reads) d fun _ d' => d'.members = d.members ∧
      d'.findings = d.findings ++
        (reads.filter fun r => r.name ≠ name ∧ r.name ∉ declared ∧ r.name ∈ d.names).map fun r =>
          ⟨.undeclaredRead name r.name, r.span⟩
  | [], d => ⟨rfl, (List.append_nil _).symm⟩
  | read :: rest, d => by
    have hrest := yields_checkReads_exact name declared rest
    have hpass (hread : ¬ (read.name ≠ name ∧ read.name ∉ declared ∧ read.name ∈ d.names)) :
        Yields (checkReads name declared rest) d fun _ d' => d'.members = d.members ∧
          d'.findings = d.findings ++
            ((read :: rest).filter fun r => r.name ≠ name ∧ r.name ∉ declared ∧ r.name ∈ d.names).map fun r =>
              ⟨.undeclaredRead name r.name, r.span⟩ := by
      rw [List.filter_cons_of_neg (by simpa using hread)]
      exact hrest d
    unfold checkReads
    dsimp only
    split
    · rename_i hskip
      refine hpass fun h => ?_
      simp [h.1, h.2.1] at hskip
    · rename_i hskip
      refine (yields_resolve read.name d).bind ?_
      rintro found d ⟨rfl, hfound⟩
      split
      · rename_i hsome
        obtain ⟨id, rfl⟩ := Option.isSome_iff_exists.mp hsome
        have hknown : read.name ∈ d.names := ((Draft.Later.refl d).resolve?_iff.mp hfound).1
        refine Yields.bind (Q := fun _ d₁ =>
          d₁ = { d with findings := d.findings ++ [⟨.undeclaredRead name read.name, read.span⟩] }) rfl ?_
        rintro _ _ rfl
        refine (hrest _).imp ?_
        rintro _ d' ⟨hmembers, hfindings⟩
        refine ⟨hmembers, ?_⟩
        have hread : read.name ≠ name ∧ read.name ∉ declared ∧ read.name ∈ d.names := by
          simpa [hknown] using hskip
        rw [hfindings, List.filter_cons_of_pos (by simpa using hread), List.map_cons, List.append_assoc]
        rfl
      · rename_i hnone
        refine hpass fun h => ?_
        have hnone : d.members.resolve? read.name = none := hfound.trans (by simpa using hnone)
        exact Draft.resolve?_eq_none_iff.mp hnone h.2.2

/-! ### Derived members -/

/-- Nothing has been found about names from `d` to `d'`. -/
def Unheard (d d' : Draft) : Prop := ∀ f ∈ d'.findings, f.cause.isLookup = true → f ∈ d.findings

theorem Unheard.trans {d d₁ d₂ : Draft} (h : Unheard d d₁) (h' : Unheard d₁ d₂) : Unheard d d₂ :=
  fun f hf hlookup => h f (h' f hf hlookup) hlookup

/-- What a derived member is. -/
structure Target.Of (m : MemberDecl) (a : Annotation) (t : Target) : Prop where
  exposed : m.exposedBy? a = some t.name
  own : t.origin ≠ .observable
  reads : t.reads = m.reads

/-- From `d` to `d'` a derived member has been staged as `s`, and its sources and reads have been looked up. -/
structure LookedUp (m : MemberDecl) (a : Annotation) (d : Draft) (s : Staged) (d' : Draft) : Prop where
  exposed : m.exposedBy? a = some s.name
  own : s.origin ≠ .observable
  span : s.span = m.nameSpan
  sources : ∀ id, id ∈ s.sources ↔ ∃ n ∈ a.strings "Sources", d'.members.resolve? n = some id
  found : ∀ f, f.cause.isLookup = true → (f ∈ d'.findings ↔ f ∈ d.findings ∨ f ∈ a.lookup s.name m.reads d'.names)

/-- What is known what it is derives is looked up, unless its names are taken. -/
theorem yields_stageTarget_lookedUp {m : MemberDecl} {a : Annotation} (cache : CachePolicy) (notifies : Bool)
    {t : Target} {d d₀ : Draft} (ht : t.Of m a) (hlater : d.Later d₀) (hunheard : Unheard d d₀) :
    Yields (stageTarget m a cache notifies t) d₀ fun r d' =>
      (r = none ∧ Unheard d d') ∨ ∃ s, r = some s ∧ LookedUp m a d s d' := by
  unfold stageTarget
  refine Yields.bind (Q := fun _ d₁ => d₀.Noted d₁ ∧ Unheard d₀ d₁)
    ⟨notes_cacheSlot m t.name cache d₀, silent_cacheSlot m t.name cache d₀⟩ fun slot d₁ h₁ => ?_
  split
  · exact Or.inl ⟨rfl, hunheard.trans h₁.2⟩
  · refine Yields.bind (Q := fun _ d₂ => d₁.Noted d₂ ∧ Unheard d₁ d₂)
      ⟨notes_claimFunction m t.name t.recompute d₁, silent_claimFunction m t.name t.recompute d₁⟩ fun free d₂ h₂ => ?_
    have hunheard₂ : Unheard d d₂ := (hunheard.trans h₁.2).trans h₂.2
    split
    · exact Or.inl ⟨rfl, hunheard₂⟩
    · refine (yields_resolveSources_exact t.name a (a.strings "Sources") [] d₂).bind fun ids d₃ h₃ => ?_
      refine (yields_checkReads_exact t.name (a.strings "Sources") t.reads d₃).bind fun _ d₄ h₄ => ?_
      obtain ⟨hmembers₃, hfindings₃, hids⟩ := h₃
      obtain ⟨hmembers₄, hfindings₄⟩ := h₄
      have hnames : d₂.names = d₄.names := Draft.names_of_members (hmembers₄.trans hmembers₃).symm
      have hlookup : d₄.findings = d₂.findings ++ a.lookup t.name m.reads d₄.names := by
        rw [hfindings₄, hfindings₃, List.append_assoc, Annotation.lookup, ← ht.reads, ← hnames,
          Draft.names_of_members hmembers₃]
      refine Or.inr ⟨_, rfl, ht.exposed, ht.own, rfl, fun id => ?_, fun f hf => ?_⟩
      · show id ∈ ids ↔ ∃ n ∈ a.strings "Sources", d₄.members.resolve? n = some id
        rw [hmembers₄, hmembers₃]
        exact (hids id).trans ⟨fun h => h.resolve_left nofun, Or.inr⟩
      · show f ∈ d₄.findings ↔ f ∈ d.findings ∨ f ∈ a.lookup t.name m.reads d₄.names
        rw [hlookup, List.mem_append]
        refine or_congr_left ⟨fun hmem => hunheard₂ f hmem hf, fun hmem => ?_⟩
        exact (hlater.findings.trans (h₁.1.trans h₂.1).findings).subset hmem

/-- What a derived member is, and how it is exposed. -/
theorem yields_derivedTarget_of (m : MemberDecl) (a : Annotation) (cache : CachePolicy) (d : Draft) :
    Yields (derivedTarget m a cache) d fun r _ => ∀ t, r = some t → t.Of m a := by
  unfold derivedTarget
  split
  · rename_i p hp
    have hof {t : Target} (hname : t.name = m.name) (horigin : t.origin = .property) (hreads : t.reads = m.reads) :
        t.Of m a := ⟨hname ▸ MemberDecl.exposedBy?_property a hp, horigin ▸ nofun, hreads⟩
    have hbody := MemberDecl.expression?_property hp
    unfold propertyTarget
    split
    · exact yields_reject
    · split
      · exact yields_reject
      · refine Yields.bind (Q := fun _ _ => True) trivial fun id d₁ _ => ?_
        split
        · exact yields_none
        · split
          · rename_i body hgetter
            refine Yields.bind (Q := fun _ _ => True) trivial fun result d₂ _ => ?_
            split
            · rintro t ⟨⟩
              exact hof rfl rfl (by rw [MemberDecl.reads, hbody, hgetter]; rfl)
            · exact yields_none
          · rename_i hgetter
            split
            · exact yields_reject
            · rintro t ⟨⟩
              exact hof rfl rfl (by rw [MemberDecl.reads, hbody, hgetter]; rfl)
  · rename_i decl hdecl
    unfold methodTarget
    split
    · exact yields_reject
    · rename_i exposed hexposed
      split
      · exact yields_reject
      · split
        · exact yields_reject
        · refine Yields.bind (Q := fun _ _ => True) trivial fun owner d₁ _ => ?_
          split
          · exact yields_reject
          · refine Yields.bind (Q := fun _ _ => True) trivial fun result d₂ _ => ?_
            split
            · exact yields_reject
            · rintro t ⟨⟩
              refine ⟨(MemberDecl.exposedBy?_method a hdecl).trans hexposed, nofun, ?_⟩
              rw [MemberDecl.reads, MemberDecl.expression?_method hdecl]

/-- The only property that a derived member may add is the one that exposes a method. -/
theorem yields_derivedTarget_adds (m : MemberDecl) (a : Annotation) (cache : CachePolicy) (d : Draft) :
    Yields (derivedTarget m a cache) d fun _ d' => ∀ i ∈ d'.members, i ∈ d.members ∨ m.AddsBy a i := by
  have hkept {d' : Draft} (h : d.Noted d') : ∀ i ∈ d'.members, i ∈ d.members ∨ m.AddsBy a i :=
    fun i hi => Or.inl (h.members ▸ hi)
  unfold derivedTarget
  split
  · exact hkept (notes_propertyTarget m _ a cache d)
  · rename_i decl hdecl
    unfold methodTarget
    split
    · exact hkept (notes_reject _ _ rfl d)
    · rename_i exposed hexposed
      split
      · exact hkept (notes_reject _ _ rfl d)
      · split
        · exact hkept (notes_reject _ _ rfl d)
        · refine Yields.bind (Q := fun _ d₁ => d.Noted d₁) (notes_claim exposed a.span d) fun owner d₁ h₁ => ?_
          split
          · exact hkept (h₁.trans (notes_reject _ _ rfl d₁))
          · refine (yields_addProperty_found _ d₁).bind ?_
            rintro result d₂ ⟨-, hadded⟩
            have hadds : ∀ i ∈ d₂.members, i ∈ d.members ∨ m.AddsBy a i := by
              refine fun i hi => (hadded i hi).imp (h₁.members ▸ ·) ?_
              rintro rfl
              exact ⟨MemberDecl.isSome_method? hdecl, (MemberDecl.exposedBy?_method a hdecl).trans hexposed, rfl, rfl⟩
            split
            · exact hadds
            · exact hadds

/-- A derived member is looked up, unless it is rejected; then nothing is found about names. -/
theorem yields_stageDerived_lookedUp (m : MemberDecl) (a : Annotation) (d : Draft) :
    Yields (stageDerived m a) d fun r d' => ((r = none ∧ Unheard d d') ∨ ∃ s, r = some s ∧ LookedUp m a d s d') ∧
      ∀ i ∈ d'.members, i ∈ d.members ∨ m.AddsBy a i := by
  obtain ⟨cache, notifies, ignored, heq⟩ := stageDerived_eq m a
  rw [heq]
  refine Yields.bind (Q := fun r d₁ => (d.Later d₁ ∧ Unheard d d₁) ∧ (∀ t : Target, r = some t → t.Of m a) ∧
      ∀ i ∈ d₁.members, i ∈ d.members ∨ m.AddsBy a i)
    ⟨⟨(adds_derivedTarget m a cache d).toLater, silent_derivedTarget m a cache d⟩,
      yields_derivedTarget_of m a cache d, yields_derivedTarget_adds m a cache d⟩ fun target d₁ h₁ => ?_
  obtain ⟨⟨hlater, hunheard⟩, hof, hadds⟩ := h₁
  split
  · exact ⟨Or.inl ⟨rfl, hunheard⟩, hadds⟩
  · rename_i t
    have hstage (d₂ : Draft) (h₂ : d₁.Noted d₂) (hunheard₂ : Unheard d₁ d₂) :
        Yields (stageTarget m a cache notifies t) d₂ fun r d' =>
          ((r = none ∧ Unheard d d') ∨ ∃ s, r = some s ∧ LookedUp m a d s d') ∧
            ∀ i ∈ d'.members, i ∈ d.members ∨ m.AddsBy a i := by
      have hmembers := (h₂.trans (notes_stageTarget m a cache notifies t d₂)).members
      refine (yields_stageTarget_lookedUp cache notifies (hof t rfl) (hlater.trans h₂.added.toLater)
        (hunheard.trans hunheard₂)).and ?_
      show ∀ i ∈ (stageTarget m a cache notifies t d₂).2.members, _
      rw [hmembers]
      exact hadds
    split
    · exact Yields.bind (Q := fun _ d₂ => d₁.Noted d₂ ∧ Unheard d₁ d₂)
        ⟨notes_report _ _ rfl d₁, silent_report _ rfl d₁⟩ fun _ d₂ h₂ => hstage d₂ h₂.1 h₂.2
    · exact hstage d₁ (.refl d₁) fun _ hf _ => hf

theorem yields_stageObservable_origin (m : MemberDecl) (a : Annotation) (d : Draft) :
    Yields (stageObservable m a) d fun r _ => ∀ s, r = some s → s.origin = .observable := by
  unfold stageObservable
  split
  · exact yields_reject
  · split
    · exact yields_reject
    · exact yields_reject
    · split
      · exact yields_reject
      · refine Yields.bind (Q := fun _ _ => True) trivial fun id d _ => ?_
        split
        · exact yields_none
        · refine Yields.bind (Q := fun _ _ => True) trivial fun owner d₁ _ => ?_
          split
          · exact yields_reject
          · rintro s ⟨⟩
            rfl

/-- An annotated member is looked up if it is derived and staged; otherwise nothing is found about names. -/
theorem yields_stageMember_lookedUp (m : MemberDecl) (d : Draft) :
    Yields (stageMember m ( Annotation.ofMember m).1) d fun r d' =>
      ((∃ a s, m.derived? = some a ∧ r = some s ∧ LookedUp m a d s d') ∨
        Unheard d d' ∧ ∀ s, r = some s → s.origin = .observable) ∧
          ∀ i ∈ d'.members, i ∈ d.members ∨ m.Adds i := by
  have hkept {d' : Draft} (h : d.Noted d') : ∀ i ∈ d'.members, i ∈ d.members ∨ m.Adds i :=
    fun i hi => Or.inl (h.members ▸ hi)
  have hnone (s : Staged) (h : none = some s) : s.origin = .observable := absurd h.symm (Option.some_ne_none s)
  unfold stageMember
  split
  · exact ⟨Or.inr ⟨silent_reject _ rfl d, hnone⟩, hkept (notes_reject _ _ rfl d)⟩
  · rename_i a ha _
    refine (yields_stageDerived_lookedUp m a d).imp ?_
    rintro r d' ⟨hstaged, hadds⟩
    refine ⟨?_, fun i hi => (hadds i hi).imp_right fun hi => ⟨a, ha, hi⟩⟩
    obtain ⟨rfl, hunheard⟩ | ⟨s, hs, hlooked⟩ := hstaged
    · exact Or.inr ⟨hunheard, hnone⟩
    · exact Or.inl ⟨a, s, ha, hs, hlooked⟩
  · rename_i a _ _
    refine ⟨Or.inr ⟨silent_stageObservable m a d, ?_⟩, hkept (notes_stageObservable m a d)⟩
    exact yields_stageObservable_origin m a d
  · exact ⟨Or.inr ⟨fun _ hf _ => hf, hnone⟩, hkept (.refl d)⟩

end Drafting

/-! ### All members -/

/-- A lookup: `member` is derived and staged as `value`, and `names` are the properties that there are then.  From `d`
to `d'` all the members are staged. -/
structure Lookup (members : List MemberDecl) (staged : List Staged) (d d' : Draft) where
  before : List MemberDecl
  member : MemberDecl
  after : List MemberDecl
  annotation : Annotation
  value : Staged
  names : List String
  split : members = before ++ member :: after
  derived : member.derived? = some annotation
  exposed : member.exposed? = some value.name
  own : value.origin ≠ .observable
  span : value.span = member.nameSpan
  mem : value ∈ staged
  known : d.names ⊆ names
  kept : names ⊆ d'.names
  /-- What is a property in the end and was none then has been added for a derived method behind. -/
  behind : ∀ i ∈ d'.members, i.name ∈ names ∨ ∃ m ∈ after, m.Adds i
  sources : ∀ id, id ∈ value.sources ↔ ∃ n ∈ annotation.strings "Sources", n ∈ names ∧ d'.members.resolve? n = some id
  found : ∀ f ∈ annotation.lookup value.name member.reads names, f ∈ d'.findings

namespace Lookup

variable {members : List MemberDecl} {staged : List Staged} {d d₁ d₂ : Draft}

/-- What is found in a lookup. -/
def findings (l : Lookup members staged d d₁) : List Finding :=
  l.annotation.lookup l.value.name l.member.reads l.names

/-- A lookup behind another member. -/
def cons (l : Lookup members staged d₁ d₂) (m : MemberDecl) (r : Option Staged) (h : d.Later d₁) :
    Lookup (m :: members) (r.toList ++ staged) d d₂ where
  before := m :: l.before
  member := l.member
  after := l.after
  annotation := l.annotation
  value := l.value
  names := l.names
  split := congrArg (m :: ·) l.split
  derived := l.derived
  exposed := l.exposed
  own := l.own
  span := l.span
  mem := List.mem_append_right _ l.mem
  known := List.Subset.trans h.names_subset l.known
  kept := l.kept
  behind := l.behind
  sources := l.sources
  found := l.found

end Lookup

namespace Drafting

/-- The only properties that are added are those that expose derived methods. -/
theorem yields_stageAll_adds : ∀ (ms : List MemberDecl) (d : Draft),
    Yields (stageAll (ms.map MemberDecl.annotated)) d fun _ d' =>
      ∀ i ∈ d'.members, i ∈ d.members ∨ ∃ m ∈ ms, m.Adds i
  | [], _ => fun _ => Or.inl
  | m :: rest, d => by
    have hrest (d₁ : Draft) (h₁ : ∀ i ∈ d₁.members, i ∈ d.members ∨ m.Adds i) :
        Yields (stageAll (rest.map MemberDecl.annotated)) d₁ fun _ d' =>
          ∀ i ∈ d'.members, i ∈ d.members ∨ ∃ m' ∈ m :: rest, m'.Adds i := by
      refine (yields_stageAll_adds rest d₁).imp fun _ d₂ h₂ i hi => ?_
      obtain hi | ⟨m', hm', hadds⟩ := h₂ i hi
      · exact (h₁ i hi).imp_right fun hadds => ⟨m, List.mem_cons_self, hadds⟩
      · exact Or.inr ⟨m', List.mem_cons_of_mem _ hm', hadds⟩
    rw [List.map_cons, MemberDecl.annotated]
    unfold stageAll
    refine (yields_stageMember_lookedUp m d).bind fun result d₁ h₁ => ?_
    split
    · exact (hrest d₁ h₁.2).bind fun _ _ h => h
    · exact hrest d₁ h₁.2

/-- What is found about names while members are staged comes from lookups, and there is one for each derived value. -/
theorem yields_stageAll_lookups : ∀ (ms : List MemberDecl) (d : Draft),
    Yields (stageAll (ms.map MemberDecl.annotated)) d fun staged d' =>
      (∀ f ∈ d'.findings, f.cause.isLookup = true → f ∈ d.findings ∨ ∃ l : Lookup ms staged d d', f ∈ l.findings) ∧
        ∀ s ∈ staged, s.origin = .observable ∨ ∃ l : Lookup ms staged d d', l.value = s
  | [], _ => ⟨fun _ hf _ => Or.inl hf, fun _ hs => absurd hs List.not_mem_nil⟩
  | m :: rest, d => by
    have hstep (r : Option Staged) (d₁ : Draft) (h₁ : d.Later d₁)
        (hstaged : (∃ a s, m.derived? = some a ∧ r = some s ∧ LookedUp m a d s d₁) ∨
          Unheard d d₁ ∧ ∀ s, r = some s → s.origin = .observable) :
        Yields (stageAll (rest.map MemberDecl.annotated)) d₁ fun staged d' =>
          (∀ f ∈ d'.findings, f.cause.isLookup = true →
            f ∈ d.findings ∨ ∃ l : Lookup (m :: rest) (r.toList ++ staged) d d', f ∈ l.findings) ∧
          ∀ s ∈ r.toList ++ staged, s.origin = .observable ∨
            ∃ l : Lookup (m :: rest) (r.toList ++ staged) d d', l.value = s := by
      refine Yields.imp (((yields_stageAll_lookups rest d₁).and (yields_stageAll_adds rest d₁)).and_later
        (adds_stageAll _)) ?_
      rintro staged d₂ ⟨⟨⟨hfound, hlooked⟩, hadds⟩, h₂⟩
      -- The lookup of the first member, if there is one.
      have hhead (a : Annotation) (s : Staged) (ha : m.derived? = some a) (hr : r = some s) (hs : LookedUp m a d s d₁) :
          ∃ l : Lookup (m :: rest) (r.toList ++ staged) d d₂, l.value = s ∧
            l.findings = a.lookup s.name m.reads d₁.names := by
        subst hr
        refine ⟨⟨[], m, rest, a, s, d₁.names, rfl, ha, (MemberDecl.exposed?_eq ha).trans hs.exposed, hs.own, hs.span,
          List.mem_cons_self, h₁.names_subset, h₂.names_subset,
          fun i hi => (hadds i hi).imp_left List.mem_map_of_mem, fun id => (hs.sources id).trans ?_, fun f hf => ?_⟩,
          rfl, rfl⟩
        · exact exists_congr fun n => and_congr_right fun _ => h₂.resolve?_iff
        · exact h₂.findings.subset ((hs.found f ( Annotation.isLookup_of_mem hf)).mpr (Or.inr hf))
      refine ⟨fun f hf hlookup => ?_, fun s hs => ?_⟩
      · obtain hf | ⟨l, hl⟩ := hfound f hf hlookup
        · obtain ⟨a, s, ha, hr, hs⟩ | ⟨hunheard, -⟩ := hstaged
          · refine ((hs.found f hlookup).mp hf).imp_right fun hf => ?_
            obtain ⟨l, -, hl⟩ := hhead a s ha hr hs
            exact ⟨l, hl ▸ hf⟩
          · exact Or.inl (hunheard f hf hlookup)
        · exact Or.inr ⟨l.cons m r h₁, hl⟩
      · obtain hs | hs := List.mem_append.mp hs
        · obtain rfl : r = some s := Option.mem_toList.mp hs
          obtain ⟨a, s', ha, hr, hs⟩ | ⟨-, horigin⟩ := hstaged
          · obtain ⟨l, hl, -⟩ := hhead a s' ha hr hs
            exact Or.inr ⟨l, hl.trans (Option.some.inj hr).symm⟩
          · exact Or.inl (horigin s rfl)
        · exact (hlooked s hs).imp_right fun ⟨l, hl⟩ => ⟨l.cons m r h₁, hl⟩
    rw [List.map_cons, MemberDecl.annotated]
    unfold stageAll
    refine ((yields_stageMember_lookedUp m d).and_later (adds_stageMember _ _)).bind fun result d₁ h₁ => ?_
    obtain ⟨⟨hstaged, -⟩, hlater⟩ := h₁
    split
    · exact (hstep _ d₁ hlater hstaged).bind fun _ _ h => h
    · exact hstep none d₁ hlater hstaged

/-! ### Announcements -/

/-- Announcements have made `s'` of `s`: it has more sources, all of them properties that announce its changes. -/
structure Extends (records : List (MemberDecl × List Annotation)) (d : Draft) (s s' : Staged) : Prop where
  same : s' = { s with sources := s'.sources }
  kept : s.sources ⊆ s'.sources
  announced : ∀ id ∈ s'.sources, id ∈ s.sources ∨
    ∃ m a, Announces records m a s.name ∧ d.members.resolve? m.name = some id

theorem Extends.refl (records : List (MemberDecl × List Annotation)) (d : Draft) (s : Staged) : Extends records d s s :=
  ⟨rfl, List.Subset.refl _, fun _ => Or.inl⟩

/-- One more announcement adds one more source. -/
theorem Extends.announce {records : List (MemberDecl × List Annotation)} {d : Draft} {s s' : Staged}
    (h : Extends records d s s') {m : MemberDecl} {a : Annotation} {target : String} {source : PropertyId}
    (hannounces : Announces records m a target) (hsource : d.members.resolve? m.name = some source)
    (htarget : d.members.resolve? target = some s'.property) (hbound : s.Bound d.members) :
    Extends records d s { s' with sources := s'.sources ++ [source] } := by
  refine ⟨congrArg (fun t : Staged => { t with sources := t.sources ++ [source] }) h.same,
    List.Subset.trans h.kept (List.subset_append_left _ _), fun id hid => ?_⟩
  obtain hid | hid := List.mem_append.mp hid
  · exact h.announced id hid
  · -- The target is the name of the value.
    obtain ⟨info, hinfo, rfl⟩ := MemberTable.name_of_resolve? htarget
    have hproperty : s'.property = s.property := by rw [h.same]
    have hname := hbound.known
    rw [← hproperty, hinfo, Option.map_some, Option.some.injEq] at hname
    rw [List.mem_singleton.mp hid]
    exact Or.inr ⟨m, a, hname ▸ hannounces, hsource⟩

/-- Announcements add sources, and values of which only changes are announced. -/
theorem yields_mergeAll_extends (c : ClassDecl) (records : List (MemberDecl × List Annotation)) (staged : List Staged)
    (d : Draft) (hbound : ∀ s ∈ staged, s.Bound d.members) :
    Yields (mergeAll c records staged) d fun staged' d' => d'.members = d.members ∧
      (∀ s ∈ staged, ∃ s' ∈ staged', Extends records d s s') ∧
        ∀ s' ∈ staged', s'.recompute = none ∨ ∃ s ∈ staged, Extends records d s s' := by
  refine yields_mergeAll_of (P := fun staged' d' => d'.members = d.members ∧
      (∀ s ∈ staged, ∃ s' ∈ staged', Extends records d s s') ∧
        ∀ s' ∈ staged', s'.recompute = none ∨ ∃ s ∈ staged, Extends records d s s')
    (fun _ _ _ h hnoted => ⟨hnoted.members.trans h.1, h.2⟩) c records ?_ staged d
    ⟨rfl, fun s hs => ⟨s, hs, .refl records d s⟩, fun s hs => Or.inr ⟨s, hs, .refl records d s⟩⟩
  rintro m a source staged' target d' hannounces hsource ⟨hmembers, hkept, hextends⟩
  refine (yields_announce_resolved c m a source staged' target d').imp ?_
  rintro staged'' d'' ⟨hnoted, rfl | ⟨index, t, ht, htarget, -, -, rfl⟩ | ⟨id, info, -, -, -, -, rfl⟩⟩
  · exact ⟨hnoted.members.trans hmembers, hkept, hextends⟩
  · rw [hmembers] at htarget hsource
    have hannounced {s s' : Staged} {j : Nat} (hs : s ∈ staged) (hj : staged'[j]? = some s')
        (h : Extends records d s s') :
        Extends records d s (if index = j then { s' with sources := s'.sources ++ [source] } else s') := by
      split
      · rename_i hindex
        subst hindex
        obtain rfl := Option.some.inj (ht.symm.trans hj)
        exact h.announce hannounces hsource htarget (hbound s hs)
      · exact h
    refine ⟨hnoted.members.trans hmembers, fun s hs => ?_, fun s' hs' => ?_⟩
    · obtain ⟨s', hs', h⟩ := hkept s hs
      obtain ⟨j, hj⟩ := List.mem_iff_getElem?.mp hs'
      refine ⟨_, List.mem_of_getElem? (i := j) ?_, hannounced hs hj h⟩
      rw [List.getElem?_modify, hj]
      rfl
    · obtain ⟨j, hj⟩ := List.mem_iff_getElem?.mp hs'
      rw [List.getElem?_modify] at hj
      obtain ⟨t', ht', rfl⟩ := Option.map_eq_some_iff.mp hj
      obtain hnone | ⟨s, hs, h⟩ := hextends t' (List.mem_of_getElem? ht')
      · refine Or.inl ?_
        split <;> exact hnone
      · exact Or.inr ⟨s, hs, hannounced hs ht' h⟩
  · refine ⟨hnoted.members.trans hmembers, fun s hs => ?_, fun s' hs' => ?_⟩
    · exact (hkept s hs).imp fun _ => And.imp_left (List.mem_append_left _)
    · obtain hs' | hs' := List.mem_append.mp hs'
      · exact hextends s' hs'
      · exact Or.inl (List.mem_singleton.mp hs' ▸ rfl)

/-- What is found about names are targets that are no properties. -/
def Misses {α : Type} (x : Drafting α) : Prop := ∀ d : Draft, ∀ f ∈ (x d).2.findings, f.cause.isLookup = true →
  f ∈ d.findings ∨ ∃ name target, f.cause = .unknownSource name target ∧ target ∉ d.names

theorem Silent.misses {α : Type} {x : Drafting α} (hx : Silent x) : Misses x :=
  fun d f hf hlookup => Or.inl (hx d f hf hlookup)

theorem Misses.bind {α β : Type} {x : Drafting α} {f : α → Drafting β} (hx : Misses x) (hnotes : Notes x)
    (hf : ∀ a, Misses (f a)) : Misses (x >>= f) := by
  intro d g hg hlookup
  obtain hg | ⟨name, target, hcause, htarget⟩ := hf _ _ g hg hlookup
  · exact hx d g hg hlookup
  · exact Or.inr ⟨name, target, hcause, Draft.names_of_members (hnotes d).members ▸ htarget⟩

theorem misses_announce (c : ClassDecl) (m : MemberDecl) (a : Annotation) (source : PropertyId) (staged : List Staged)
    (target : String) : Misses (announce c m a source staged target) := by
  intro d
  show Yields (announce c m a source staged target) d fun _ d' => ∀ f ∈ d'.findings, f.cause.isLookup = true →
    f ∈ d.findings ∨ ∃ name target, f.cause = .unknownSource name target ∧ target ∉ d.names
  unfold announce
  refine Yields.bind (Q := fun d₀ d' => d₀ = d ∧ d' = d) ⟨rfl, rfl⟩ ?_
  rintro _ d ⟨rfl, rfl⟩
  dsimp only
  split
  · rename_i hnone
    intro f hf _
    obtain hf | hf := List.mem_append.mp hf
    · exact Or.inl hf
    · rw [List.mem_singleton.mp hf]
      exact Or.inr ⟨m.name, target, rfl, Draft.resolve?_eq_none_iff.mp hnone⟩
  · split
    · split
      · exact ((silent_report _ rfl).bind fun _ => silent_pure _).misses _
      · split <;> exact (silent_pure _).misses _
    · split
      · exact (silent_pure _).misses _
      · split
        · exact ((silent_report _ rfl).bind fun _ => silent_pure _).misses _
        · exact (silent_pure _).misses _

theorem misses_announceAll (c : ClassDecl) (m : MemberDecl) (a : Annotation) (source : PropertyId) :
    ∀ (targets : List String) (staged : List Staged), Misses (targets.foldlM (announce c m a source) staged)
  | [], _ => (silent_pure _).misses
  | target :: rest, staged => (misses_announce c m a source staged target).bind (notes_announce _ _ _ _ _ _)
    fun _ => misses_announceAll c m a source rest _

theorem misses_mergeAnnouncements (c : ClassDecl) (m : MemberDecl) (a : Annotation) (staged : List Staged) :
    Misses (mergeAnnouncements c m a staged) := by
  have hreport : Misses (do
      report (.invalidArguments a.kind.text m.name (.propertiesOnly .notifyFor)) a.span
      return staged : Drafting (List Staged)) := ((silent_report _ rfl).bind fun _ => silent_pure _).misses
  unfold mergeAnnouncements
  split
  · refine (silent_resolve _).misses.bind (notes_resolve _) fun source => ?_
    cases source with
    | none => exact hreport
    | some id => exact misses_announceAll c m a id _ _
  · exact hreport

theorem misses_mergeAll (c : ClassDecl) : ∀ (records : List (MemberDecl × List Annotation)) (staged : List Staged),
    Misses (mergeAll c records staged)
  | [], _ => (silent_pure _).misses
  | (m, annotations) :: rest, staged => by
    unfold mergeAll
    split
    · exact (misses_mergeAnnouncements c m _ staged).bind (notes_mergeAnnouncements _ _ _ _)
        fun _ => misses_mergeAll c rest _
    · exact misses_mergeAll c rest staged

/-! ### Declared properties -/

theorem mem_names_declare {m : MemberDecl} {p : PropertyDecl} (hp : m.kind = .property p) (d : Draft) :
    Yields (declare m) d fun _ d' => m.name ∈ d'.names := by
  unfold declare
  rw [hp]
  dsimp only
  refine Yields.bind (Q := fun _ d₁ => m.name ∈ d₁.names) ?_ fun result d₁ h₁ => ?_
  · obtain ⟨earlier, hfound, h⟩ | ⟨-, h⟩ := addProperty_cases
      ⟨m.name, p.type, p.setter.isSome, .plain, false, accessibility m.modifiers, m.nameSpan⟩ d
    · have hname : earlier.name = m.name := MemberTable.name_of_find? hfound
      refine .intro h ?_
      exact hname ▸ List.mem_map_of_mem (List.mem_of_find?_eq_some hfound)
    · refine .intro h ?_
      rw [Draft.names, List.map_append]
      exact List.mem_append_right _ (List.mem_singleton_self _)
  · split
    · exact h₁
    · exact h₁

/-- All declared properties are in the table. -/
theorem yields_declareAll_known : ∀ (ms : List MemberDecl) (d : Draft),
    Yields (ms.forM declare) d fun _ d' => propertyNames ms ⊆ d'.names ∧ d.Later d'
  | [], d => ⟨List.nil_subset _, .refl d⟩
  | m :: ms, d => by
    refine Yields.bind (Q := fun _ d₁ => (∀ p, m.kind = .property p → m.name ∈ d₁.names) ∧ d.Later d₁)
      ⟨fun p hp => mem_names_declare hp d, later_declare m d⟩ fun _ d₁ h₁ => ?_
    refine (yields_declareAll_known ms d₁).imp ?_
    rintro _ d₂ ⟨hrest, h₂⟩
    refine ⟨?_, h₁.2.trans h₂⟩
    rw [propertyNames_cons]
    refine List.append_subset.mpr ⟨fun n hn => ?_, hrest⟩
    obtain ⟨p, hp, rfl⟩ := Option.map_eq_some_iff.mp (Option.mem_toList.mp hn)
    exact h₂.names_subset (h₁.1 p (MemberDecl.property?_eq_some.mp hp))

theorem yields_properties_known (c : ClassDecl) :
    Yields (properties c) ⟨[], declaredNames c, []⟩ fun _ d => propertyNames c.members ⊆ d.names := by
  unfold properties
  refine (yields_declareAll_known c.members ⟨[], declaredNames c, []⟩).bind fun _ d₁ h₁ => ?_
  refine Yields.bind (Q := fun _ d₂ => d₂.names = d₁.names) rfl fun _ d₂ h₂ => ?_
  exact (yields_mutableProperties_names (annotatedMembers c).1 d₂).imp fun _ d₃ h₃ => (h₃.trans h₂) ▸ h₁.1

end Drafting

/-! ### Models -/

/-- What the model of a class and the findings say about the names that are looked up while its members are staged,
which is from `d₁` to `d₂`. -/
structure ClassModel.LookedUp (c : ClassDecl) (m : ClassModel) (findings : List Finding) (staged : List Staged)
    (d₁ d₂ : Draft) : Prop where
  declared : propertyNames c.members ⊆ d₁.names
  grown : d₁.names ⊆ d₂.names
  fixed : m.members.map PropertyInfo.fixed = d₂.members.map PropertyInfo.fixed
  resolved : ∀ n, m.members.resolve? n = d₂.members.resolve? n
  reported : d₂.findings ⊆ findings
  found : ∀ f ∈ findings, f.cause.isLookup = true → (∃ l : Lookup c.members staged d₁ d₂, f ∈ l.findings) ∨
    ∃ name target, f.cause = .unknownSource name target ∧ target ∉ d₂.names
  /-- What has been looked up is staged; announcements may have added sources since. -/
  kept : ∀ l : Lookup c.members staged d₁ d₂, ∃ t ∈ c.staged, Drafting.Extends (annotatedMembers c).1 d₂ l.value t
  /-- A value that is computed, and is no helper, has been looked up. -/
  derived : ∀ t ∈ c.staged, t.recompute.isSome = true → t.origin ≠ .observable →
    ∃ l : Lookup c.members staged d₁ d₂, Drafting.Extends (annotatedMembers c).1 d₂ l.value t

theorem Drafting.yields_classModel_lookups (s : DeclarationSet) (c : ClassDecl) :
    Yields (classModel s c) ⟨[], declaredNames c, []⟩ fun model d =>
      ∃ staged d₁ d₂, model.LookedUp c d.findings staged d₁ d₂ := by
  rw [classModel_eq]
  refine Yields.bind (Q := fun ps d => properties c ⟨[], declaredNames c, []⟩ = (ps, d)) rfl fun ps d₁ hproperties => ?_
  have hdeclared := (yields_properties_known c).of_eq hproperties
  have hsilent₁ : Yields (properties c) ⟨[], declaredNames c, []⟩ fun _ d =>
      ∀ f ∈ d.findings, f.cause.isLookup = true → f ∈ ([] : List Finding) := silent_properties c _
  have hkept : (stagedSection c (annotatedMembers c).1 d₁).1 = c.staged := by
    show _ = (stagedSection c (annotatedMembers c).1 (properties c ⟨[], declaredNames c, []⟩).2).1
    rw [hproperties]
  have hlookups := yields_stageAll_lookups c.members d₁
  rw [← annotatedMembers_eq] at hlookups
  have hbound := yields_stageAll_bound (annotatedMembers c).1 d₁
  have hadds := (adds_stageAll (annotatedMembers c).1 d₁).toLater
  obtain ⟨staged, d₂, hstaged⟩ : ∃ staged d₂, stageAll (annotatedMembers c).1 d₁ = (staged, d₂) := ⟨_, _, rfl⟩
  have hsection : stagedSection c (annotatedMembers c).1 d₁ = mergeAll c (annotatedMembers c).1 staged d₂ := by
    show mergeAll c _ (stageAll (annotatedMembers c).1 d₁).1 (stageAll (annotatedMembers c).1 d₁).2 = _
    rw [hstaged]
  rw [hstaged] at hadds
  obtain ⟨hfound, hlooked⟩ := hlookups.of_eq hstaged
  have hnoted₃ := notes_mergeAll c (annotatedMembers c).1 staged d₂
  obtain ⟨-, hstays, hextends⟩ := yields_mergeAll_extends c (annotatedMembers c).1 staged d₂ (hbound.of_eq hstaged)
  have hmisses := misses_mergeAll c (annotatedMembers c).1 staged d₂
  refine ((yields_derivedSection c (annotatedMembers c).1 d₁).and
    (yields_derivedSection_silent c (annotatedMembers c).1 d₁)).bind ?_
  rintro section_ d₄ ⟨⟨-, hnumbered, -⟩, hsilent₄⟩
  rw [hsection] at hnumbered hsilent₄ hkept
  refine Yields.bind (Q := fun _ d => d₄.Noted d ∧ Unheard d₄ d)
    ⟨notes_commands _ d₄, silent_commands _ d₄⟩ fun ks d₅ h₅ => ?_
  refine Yields.bind (Q := fun _ d => d₅.Noted d ∧ Unheard d₅ d)
    ⟨notes_localeGroups _ [] d₅, silent_localeGroups _ [] d₅⟩ fun groups d₆ h₆ => ?_
  have hunheard : Unheard d₄ d₆ := h₅.2.trans h₆.2
  have hmembers : d₆.members = d₄.members := (h₅.1.trans h₆.1).members
  have hlater : d₂.Later d₄ := hnoted₃.added.toLater.trans hnumbered.toLater
  have hnames : d₄.names = d₂.names :=
    (Draft.names_of_fixed hnumbered.fixed).trans (Draft.names_of_members hnoted₃.members)
  refine ⟨staged, d₁, d₂, hdeclared, hadds.names_subset, ?_, fun n => ?_, ?_, fun f hf hlookup => ?_,
    fun l => hkept ▸ hstays l.value l.mem, fun t ht hcomputed horigin => ?_⟩
  · show d₆.members.map PropertyInfo.fixed = _
    rw [hmembers, hnumbered.fixed, hnoted₃.members]
  · show d₆.members.resolve? n = _
    rw [hmembers, hlater.resolve?_eq hnames]
  · exact List.Subset.trans hlater.findings.subset (h₅.1.trans h₆.1).findings.subset
  · obtain hf | hmissed := hmisses f (hsilent₄ f (hunheard f hf hlookup) hlookup) hlookup
    · exact Or.inl ((hfound f hf hlookup).resolve_left fun hold =>
      nomatch hsilent₁.of_eq hproperties f hold hlookup)
    · exact Or.inr hmissed
  · obtain hnone | ⟨v, hv, hvt⟩ := hextends t (hkept ▸ ht)
    · rw [hnone] at hcomputed
      cases hcomputed
    · obtain hobservable | ⟨l, rfl⟩ := hlooked v hv
      · refine absurd ?_ horigin
        rw [hvt.same, hobservable]
      · exact ⟨l, hvt⟩

end Reactive
