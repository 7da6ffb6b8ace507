import Reactive.Proofs.Drafting

/-!
# Reactive.Proofs.Staging — what derived values are staged as

* `ClassDecl.HasGetter`, `ClassDecl.HasMethod`: what a class declares.
* `Staged.Fits`: what a staged value is computed from is written in the class; a cached one has its fields, and the name
  of the method that recomputes it is not declared.
* `Staged.Placed`: the number of a staged value is the one of the property of its name.
* `Drafting.yields_stageMember`, `Drafting.fits_mergeAll`: every staged value fits its class.
-/

namespace Reactive

namespace ClassDecl

variable (c : ClassDecl)

/-- The names of the declared members. -/
def names : List String := c.members.map MemberDecl.name

/-- The class declares a property of the name whose getter has the body. -/
def HasGetter (name : String) (body : Expr) : Prop :=
  ∃ m ∈ c.members, m.name = name ∧ ∃ p, m.kind = .property p ∧ p.getterBody? = some body

/-- The class declares a method of the name. -/
def HasMethod (name : String) : Prop := ∃ m ∈ c.members, m.name = name ∧ ∃ d, m.kind = .method d

end ClassDecl

/-- What a derived value is computed from is written in the class. -/
inductive StagedRecompute.WrittenIn (c : ClassDecl) : StagedRecompute → Prop
  | getter {name : String} {body : Expr} (declared : c.HasGetter name body) (flat : body.staticProjection? = none) :
    WrittenIn c (.inline body)
  | helper {name : String} {body : Expr} (declared : c.HasGetter name body) : WrittenIn c (.inline body.helper)
  | projection {name : String} {body : Expr} {param : String} {projected : Expr} {function : String}
    (declared : c.HasGetter name body) (projects : body.staticProjection? = some (param, projected)) :
    WrittenIn c (.projection param projected function)
  | method {name : String} (declared : c.HasMethod name) : WrittenIn c (.method name)

/-- The names of the declared properties among members. -/
def propertyNames (members : List MemberDecl) : List String :=
  members.filterMap fun m => m.property?.map fun _ => m.name

theorem MemberDecl.property?_eq_some {m : MemberDecl} {p : PropertyDecl} :
    m.property? = some p ↔ m.kind = .property p := by
  unfold MemberDecl.property?
  cases m.kind with
  | property p' => exact ⟨fun h => by rw [Option.some.inj h], fun h => by cases h; rfl⟩
  | method d => exact ⟨nofun, nofun⟩

/-- The fields of a cached value are named after it. -/
def DerivedSlot.Named (slot : DerivedSlot) (name : String) : Prop :=
  slot.value = Naming.slot name ∧ ∀ flag, slot.flag = some flag → flag = Naming.lazyFlag (Naming.slot name)

namespace Staged

/-- The name of the function that is hoisted out of a projection. -/
def function? (s : Staged) : Option String :=
  match s.recompute with
  | some (.projection _ _ function) => some function
  | _ => none

/-- A staged value goes with its class. -/
structure Fits (c : ClassDecl) (s : Staged) : Prop where
  written : ∀ r, s.recompute = some r → r.WrittenIn c
  cached : s.cache.isCached = true → s.slot.isSome ∧ s.recompute.isSome
  uncached : s.cache.isCached = false → s.slot = none
  lazy : ∀ slot, s.slot = some slot → (slot.flag.isSome ↔ s.cache = .lazy)
  named : ∀ slot, s.slot = some slot → slot.Named s.name
  helper : s.origin = .observable → s.sources = []
  own : s.origin ≠ .observable → s.cache.isCached = true → Naming.recompute s.name ∉ c.names
  silent : s.origin = .observable → s.notifiesInitially = false

/-- The property of a staged value is the one of its name, and has no setter. -/
structure Placed (table : MemberTable) (s : Staged) : Prop where
  resolved : table.resolve? s.name = some s.property
  info : ∃ i, table.find? s.name = some i ∧ i.hasSetter = false

theorem Placed.later {d d' : Draft} {s : Staged} (h : s.Placed d.members) (hlater : d.Later d') :
    s.Placed d'.members := by
  obtain ⟨i, hi, hsetter⟩ := h.info
  obtain ⟨i', hi', hfixed⟩ := hlater.find? hi
  refine ⟨hlater.resolve? h.resolved, i', hi', ?_⟩
  have hsame : i'.fixed.hasSetter = i.fixed.hasSetter := by rw [hfixed]
  exact hsame.trans hsetter

end Staged

theorem MemberTable.name_of_resolve? {t : MemberTable} {name : String} {id : PropertyId} (h : t.resolve? name = some id) :
    ∃ i, t[id]? = some i ∧ i.name = name := by
  obtain ⟨hlt, hname, -⟩ := List.findIdx?_eq_some_iff_getElem.mp h
  exact ⟨t[id], List.getElem?_eq_getElem hlt, by simpa using hname⟩

theorem MemberTable.name_of_find? {t : MemberTable} {name : String} {i : PropertyInfo} (h : t.find? name = some i) :
    i.name = name := by
  have hfound := List.find?_some h
  simpa using hfound

/-- The table has every declared property, with a setter if it is declared with one. -/
def MemberTable.Registers (table : MemberTable) (c : ClassDecl) : Prop :=
  ∀ m ∈ c.members, ∀ p, m.kind = .property p → ∃ i, table.find? m.name = some i ∧ i.hasSetter = p.setter.isSome

theorem MemberTable.Registers.later {c : ClassDecl} {d d' : Draft} (h : d.members.Registers c) (hlater : d.Later d') :
    d'.members.Registers c := by
  intro m hm p hp
  obtain ⟨i, hi, hsetter⟩ := h m hm p hp
  obtain ⟨i', hi', hfixed⟩ := hlater.find? hi
  have hsame : i'.fixed.hasSetter = i.fixed.hasSetter := by rw [hfixed]
  exact ⟨i', hi', hsame.trans hsetter⟩

namespace Drafting

variable {α : Type}

/-- A member that is rejected gives nothing. -/
theorem yields_reject {cause : FindingCause} {span : Span} {d : Draft} {P : α → Draft → Prop} :
    Yields (reject cause span) d fun r d' => ∀ a, r = some a → P a d' := nofun

theorem yields_none {d : Draft} {P : α → Draft → Prop} :
    Yields (pure none) d fun r d' => ∀ a, r = some a → P a d' := nofun

/-- Names that are taken were free. -/
theorem yields_claimAll (names : List String) (span : Span) (d : Draft) :
    Yields (claimAll names span) d fun conflict d' => d.Later d' ∧
      (conflict = none → (∀ n ∈ names, n ∉ d.taken.map Prod.fst) ∧ (∀ n ∈ names, n ∈ d'.taken.map Prod.fst) ∧
        d'.members = d.members) := by
  obtain ⟨conflict, h⟩ | ⟨hfree, h⟩ := claimAll_cases names span d
  · exact .intro h ⟨.refl d, nofun⟩
  · refine ⟨(notes_claimAll names span).yields d, fun _ => ⟨hfree, fun n hn => ?_, ?_⟩⟩
    · rw [h]
      simp [hn]
    · rw [h]

/-- A name that is taken was free. -/
theorem yields_claim (name : String) (span : Span) (d : Draft) :
    Yields (claim name span) d fun owner d' => d.Later d' ∧
      (owner = none → name ∉ d.taken.map Prod.fst ∧ name ∈ d'.taken.map Prod.fst ∧ d'.members = d.members) := by
  refine (yields_claimAll [name] span d).bind fun conflict d' hclaim => ⟨hclaim.1, fun hnone => ?_⟩
  obtain ⟨hfree, htaken, hmembers⟩ := hclaim.2 (Option.map_eq_none_iff.mp hnone)
  exact ⟨hfree name List.mem_cons_self, htaken name List.mem_cons_self, hmembers⟩

/-- A property that is added is the last one, and the only one of its name. -/
theorem yields_addProperty (info : PropertyInfo) (d : Draft) :
    Yields (addProperty info) d fun result d' => ∀ id, result = .ok id → info.name ∉ d.members.map PropertyInfo.name ∧
      id = d.members.length ∧ d' = { d with members := d.members ++ [info] } := by
  obtain ⟨earlier, -, h⟩ | ⟨hnew, h⟩ := addProperty_cases info d
  · exact .intro h nofun
  · refine .intro h fun id hid => ⟨hnew, ?_, rfl⟩
    cases hid
    rfl

theorem yields_resolve (name : String) (d : Draft) :
    Yields (resolve name) d fun id d' => d' = d ∧ d.members.resolve? name = id := ⟨rfl, rfl⟩

/-! ### Derived properties and methods -/

theorem yields_stagedBody (m : MemberDecl) (body : Expr) (d : Draft) :
    Yields (stagedBody m body) d fun result d' => d.Later d' ∧ ∀ r, result = some r →
      (∃ param projected, body.staticProjection? = some (param, projected) ∧
          r = .projection param projected (Naming.projection m.name)) ∨
        (body.staticProjection? = none ∧ r = .inline body) := by
  suffices h : Yields (stagedBody m body) d fun result _ => ∀ r, result = some r →
      (∃ param projected, body.staticProjection? = some (param, projected) ∧
          r = .projection param projected (Naming.projection m.name)) ∨
        (body.staticProjection? = none ∧ r = .inline body) from ⟨(notes_stagedBody m body).yields d, h⟩
  unfold stagedBody
  split
  · rename_i param projected hprojects
    split
    · exact yields_reject
    · split
      · exact yields_reject
      · rintro r ⟨⟩
        exact Or.inl ⟨param, projected, hprojects, rfl⟩
  · rename_i hflat
    split
    · exact yields_reject
    · rintro r ⟨⟩
      exact Or.inr ⟨hflat, rfl⟩

variable {c : ClassDecl} {m : MemberDecl}

/-- A name that is declared, or was free before and is taken now. -/
def Named (m : MemberDecl) (name : String) (d d' : Draft) : Prop :=
  ((∃ p, m.kind = .property p) ∧ name = m.name) ∨
    (name ∉ d.taken.map Prod.fst ∧ name ∈ d'.taken.map Prod.fst)

theorem Named.later {name : String} {d d' d₁ : Draft} (h : Named m name d d') (hlater : d'.Later d₁) :
    Named m name d d₁ := by
  obtain h | ⟨hfree, htaken⟩ := h
  · exact Or.inl h
  · exact Or.inr ⟨hfree, (hlater.taken.map Prod.fst).subset htaken⟩

/-- A target goes with its class. -/
structure Target.Fits (c : ClassDecl) (m : MemberDecl) (cache : CachePolicy) (d d' : Draft) (t : Target) : Prop where
  written : ∀ r, t.recompute = some r → r.WrittenIn c
  cached : cache.isCached = true → t.recompute.isSome
  own : t.origin ≠ .observable
  named : Named m t.name d d'
  resolved : d'.members.resolve? t.name = some t.property
  info : d.members.Registers c → ∃ i, d'.members.find? t.name = some i ∧ i.hasSetter = false
  announced : t.recompute = none → (∃ p, m.kind = .property p) ∧ t.name = m.name

theorem yields_propertyTarget {p : PropertyDecl} (a : Annotation) (cache : CachePolicy) (hm : m ∈ c.members)
    (hp : m.kind = .property p) (d : Draft) :
    Yields (propertyTarget m p a cache) d fun r d' => ∀ t, r = some t → t.Fits c m cache d d' := by
  unfold propertyTarget
  split
  · exact yields_reject
  · split
    · exact yields_reject
    · rename_i hsetter
      have hinfo (d' : Draft) (hlater : d.Later d') (hreg : d.members.Registers c) :
          ∃ i, d'.members.find? m.name = some i ∧ i.hasSetter = false := by
        obtain ⟨i, hi, hset⟩ := (hreg.later hlater) m hm p hp
        exact ⟨i, hi, hset.trans (by rw [hsetter]; rfl)⟩
      refine (yields_resolve m.name d).bind ?_
      rintro id d ⟨rfl, hid⟩
      split
      · exact yields_none
      · rename_i id hid
        split
        · rename_i body hbody
          have hgetter : c.HasGetter m.name body := ⟨m, hm, rfl, p, hp, hbody⟩
          refine (yields_stagedBody m body d).bind fun result d' hstaged => ?_
          split
          · rename_i recompute
            rintro t ⟨⟩
            refine ⟨?_, fun _ => rfl, nofun, Or.inl ⟨⟨p, hp⟩, rfl⟩, hstaged.1.resolve? hid, hinfo d' hstaged.1, nofun⟩
            rintro r ⟨⟩
            obtain ⟨param, projected, hprojects, rfl⟩ | ⟨hflat, rfl⟩ := hstaged.2 _ rfl
            · exact .projection hgetter hprojects
            · exact .getter hgetter hflat
          · exact yields_none
        · split
          · exact yields_reject
          · rename_i hcache
            rintro t ⟨⟩
            exact ⟨nofun, fun hcached => absurd hcached hcache, nofun, Or.inl ⟨⟨p, hp⟩, rfl⟩, hid,
              hinfo d (.refl d), fun _ => ⟨⟨p, hp⟩, rfl⟩⟩

theorem yields_methodTarget {decl : MethodDecl} (a : Annotation) (cache : CachePolicy) (hm : m ∈ c.members)
    (hdecl : m.kind = .method decl) (d : Draft) :
    Yields (methodTarget m decl a) d fun r d' => ∀ t, r = some t → t.Fits c m cache d d' := by
  unfold methodTarget
  split
  · exact yields_reject
  · rename_i exposed hexposed
    split
    · exact yields_reject
    · split
      · exact yields_reject
      · refine (yields_claim exposed a.span d).bind fun owner d₁ hclaim => ?_
        split
        · exact yields_reject
        · obtain ⟨hfree, htaken, hmembers⟩ := hclaim.2 rfl
          refine (yields_addProperty _ d₁).bind fun result d₂ hadd => ?_
          split
          · exact yields_reject
          · obtain ⟨hnew, rfl, rfl⟩ := hadd _ rfl
            rintro t ⟨⟩
            have hnone : ∀ i ∈ d₁.members, (i.name == exposed) = false := by
              intro i hi
              exact beq_false_of_ne fun heq => hnew (List.mem_map.mpr ⟨i, hi, heq⟩)
            refine ⟨?_, fun _ => rfl, nofun, Or.inr ⟨hfree, htaken⟩, ?_,
              fun _ => ⟨⟨exposed, decl.returnType, false, .plain, true, none, a.span⟩, ?_, rfl⟩, nofun⟩
            · rintro r ⟨⟩
              exact .method ⟨m, hm, rfl, decl, hdecl⟩
            · show List.findIdx? _ (d₁.members ++ [_]) = _
              rw [List.findIdx?_append, List.findIdx?_eq_none_iff.mpr hnone]
              simp
            · show List.find? _ (d₁.members ++ [_]) = _
              rw [List.find?_append, List.find?_eq_none.mpr fun i hi => by simp [hnone i hi]]
              simp

/-! ### Staged values -/

theorem yields_cacheSlot (m : MemberDecl) (name : String) (cache : CachePolicy) (d : Draft) :
    Yields (cacheSlot m name cache) d fun r d' => d.Later d' ∧ ∀ slot, r = some slot →
      (cache.isCached = false → slot = none) ∧
        (cache.isCached = true → slot.isSome ∧ Naming.recompute name ∉ d.taken.map Prod.fst) ∧
          ∀ fields, slot = some fields → (fields.flag.isSome ↔ cache = .lazy) ∧ fields.Named name := by
  refine ⟨(notes_cacheSlot m name cache).yields d, ?_⟩
  suffices h : Yields (cacheSlot m name cache) d fun r _ => ∀ slot, r = some slot →
      (cache.isCached = false → slot = none) ∧
        (cache.isCached = true → slot.isSome ∧ Naming.recompute name ∉ d.taken.map Prod.fst) ∧
          ∀ fields, slot = some fields → (fields.flag.isSome ↔ cache = .lazy) ∧ fields.Named name from h
  unfold cacheSlot
  split
  · rename_i hcache
    rintro slot ⟨⟩
    exact ⟨fun _ => rfl, fun hcached => by simp [hcached] at hcache, nofun⟩
  · rename_i hcache
    refine (yields_claimAll _ _ d).bind fun conflict d' hclaim => ?_
    split
    · exact yields_reject
    · rintro slot ⟨⟩
      refine ⟨fun huncached => by simp [huncached] at hcache, fun _ => ⟨rfl, ?_⟩, ?_⟩
      · exact (hclaim.2 rfl).1 _ (by simp)
      · rintro fields ⟨⟩
        by_cases hlazy : cache = .lazy <;> simp [hlazy, DerivedSlot.Named]

theorem yields_claimFunction (m : MemberDecl) (name : String) (recompute : Option StagedRecompute) (d : Draft) :
    Yields (claimFunction m name recompute) d fun free d' => d.Later d' ∧ (free = true →
      ∀ param body function, recompute = some (.projection param body function) →
        function ∉ d.taken.map Prod.fst ∧ function ∈ d'.taken.map Prod.fst) := by
  unfold claimFunction
  split
  · refine (yields_claim _ m.nameSpan d).bind fun owner d₁ hclaim => ?_
    split
    · exact ⟨hclaim.1.trans ((notes_report _ _ rfl).yields d₁), nofun⟩
    · refine ⟨hclaim.1, fun _ => ?_⟩
      rintro param body function ⟨⟩
      exact ⟨(hclaim.2 rfl).1, (hclaim.2 rfl).2.1⟩
  · rename_i hother
    exact ⟨.refl d, fun _ param body function h => absurd h (hother param body function)⟩

/-- What is known of a staged value of a member. -/
structure StagedOf (c : ClassDecl) (m : MemberDecl) (d d' : Draft) (s : Staged) : Prop where
  fits : s.Fits c
  named : Named m s.name d d'
  function : ∀ f, s.function? = some f → f ∉ d.taken.map Prod.fst ∧ f ∈ d'.taken.map Prod.fst
  placed : d.members.Registers c → s.Placed d'.members
  announced : s.recompute = none → (∃ p, m.kind = .property p) ∧ s.name = m.name

theorem yields_derivedTarget (a : Annotation) (cache : CachePolicy) (hm : m ∈ c.members) (d : Draft) :
    Yields (derivedTarget m a cache) d fun r d' => ∀ t, r = some t → t.Fits c m cache d d' := by
  unfold derivedTarget
  split
  · rename_i p hp
    exact yields_propertyTarget a cache hm hp d
  · rename_i decl hdecl
    exact yields_methodTarget a cache hm hdecl d

theorem yields_stageTarget (a : Annotation) {cache : CachePolicy} (notifies : Bool) {t : Target} {d d₁ d₂ : Draft}
    (htaken : ∀ n ∈ c.names, n ∈ d.taken.map Prod.fst) (ht : t.Fits c m cache d d₁) (h₁ : d.Later d₁) (h₂ : d₁.Later d₂) :
    Yields (stageTarget m a cache notifies t) d₂ fun r d' => ∀ s, r = some s → StagedOf c m d d' s := by
  unfold stageTarget
  refine (yields_cacheSlot m t.name cache d₂).bind fun slot d₃ hslot => ?_
  split
  · exact yields_none
  · refine (yields_claimFunction _ _ _ d₃).bind fun free d₄ hfree => ?_
    obtain ⟨h₄, hfunction⟩ := hfree
    split
    · exact yields_none
    · rename_i hfree
      refine ((notes_resolveSources _ _ _ _).yields d₄).bind fun sources d₅ h₅ => ?_
      refine ((notes_checkReads _ _ _).yields d₅).bind fun _ d₆ h₆ => ?_
      rintro s ⟨⟩
      obtain ⟨huncached, hcached, hfields⟩ := hslot.2 _ rfl
      have hlater : d₁.Later d₆ := (((h₂.trans hslot.1).trans h₄).trans h₅).trans h₆
      refine ⟨⟨ht.written, fun hc => ⟨(hcached hc).1, ht.cached hc⟩, huncached,
        fun slot hs => (hfields slot hs).1, fun slot hs => (hfields slot hs).2, fun ho => absurd ho ht.own,
        fun _ hc hname => (hcached hc).2 ?_, fun ho => absurd ho ht.own⟩, ht.named.later hlater, fun f hf => ?_,
        fun hreg => ⟨hlater.resolve? ht.resolved, ?_⟩, ht.announced⟩
      · exact ((h₁.trans h₂).taken.map Prod.fst).subset (htaken _ hname)
      · have hrecompute : ∃ param body, t.recompute = some (.projection param body f) := by
          unfold Staged.function? at hf
          dsimp only at hf
          split at hf
          · rename_i param body function hrecompute
            exact ⟨param, body, (Option.some.inj hf) ▸ hrecompute⟩
          · cases hf
        obtain ⟨param, body, hrecompute⟩ := hrecompute
        obtain ⟨hf₃, hf₄⟩ := hfunction (by simpa using hfree) param body f hrecompute
        exact ⟨fun hf => hf₃ ((((h₁.trans h₂).trans hslot.1).taken.map Prod.fst).subset hf),
          ((h₅.trans h₆).taken.map Prod.fst).subset hf₄⟩
      · obtain ⟨i, hi, hsetter⟩ := ht.info hreg
        obtain ⟨i', hi', hfixed⟩ := hlater.find? hi
        have hsame : i'.fixed.hasSetter = i.fixed.hasSetter := by rw [hfixed]
        exact ⟨i', hi', hsame.trans hsetter⟩

theorem yields_stageDerived (a : Annotation) (hm : m ∈ c.members) (d : Draft)
    (htaken : ∀ n ∈ c.names, n ∈ d.taken.map Prod.fst) :
    Yields (stageDerived m a) d fun r d' => ∀ s, r = some s → StagedOf c m d d' s := by
  obtain ⟨cache, notifies, ignored, heq⟩ := stageDerived_eq m a
  rw [heq]
  refine ((yields_derivedTarget a cache hm d).and_later (adds_derivedTarget m a cache)).bind fun target d₁ htarget => ?_
  obtain ⟨hfits, h₁⟩ := htarget
  split
  · exact yields_none
  · have ht := hfits _ rfl
    split
    · exact ((notes_report _ _ rfl).yields d₁).bind fun _ d₂ h₂ => yields_stageTarget a notifies htaken ht h₁ h₂
    · exact yields_stageTarget a notifies htaken ht h₁ (.refl d₁)

theorem yields_stageObservable (a : Annotation) (hm : m ∈ c.members) (d : Draft) :
    Yields (stageObservable m a) d fun r d' => ∀ s, r = some s → StagedOf c m d d' s := by
  unfold stageObservable
  split
  · exact yields_reject
  · rename_i p hp
    split
    · exact yields_reject
    · exact yields_reject
    · rename_i body hsetter hbody
      split
      · exact yields_reject
      · refine (yields_resolve m.name d).bind ?_
        rintro id d ⟨rfl, hid⟩
        split
        · exact yields_none
        · refine (yields_claim (Naming.slot m.name) m.nameSpan d).bind fun owner d₁ hclaim => ?_
          split
          · exact yields_reject
          · rintro s ⟨⟩
            refine ⟨⟨?_, fun _ => ⟨rfl, rfl⟩, nofun, ?_, ?_, fun _ => rfl, fun ho => absurd rfl ho, fun _ => rfl⟩,
              Or.inl ⟨⟨p, hp⟩, rfl⟩, nofun, fun hreg => ⟨hclaim.1.resolve? hid, ?_⟩, nofun⟩
            · rintro r ⟨⟩
              exact .helper ⟨m, hm, rfl, p, hp, hbody⟩
            · rintro fields ⟨⟩
              exact ⟨nofun, nofun⟩
            · rintro fields ⟨⟩
              exact ⟨rfl, nofun⟩
            · obtain ⟨i, hi, hset⟩ := (hreg.later hclaim.1) m hm p hp
              exact ⟨i, hi, hset.trans (by rw [hsetter]; rfl)⟩

theorem yields_stageMember (annotations : List Annotation) (hm : m ∈ c.members) (d : Draft)
    (htaken : ∀ n ∈ c.names, n ∈ d.taken.map Prod.fst) :
    Yields (stageMember m annotations) d fun r d' => ∀ s, r = some s → StagedOf c m d d' s := by
  unfold stageMember
  split
  · exact yields_reject
  · exact yields_stageDerived _ hm d htaken
  · exact yields_stageObservable _ hm d
  · exact yields_none

/-- What is known of the staged values of members. -/
structure StagedOfAll (c : ClassDecl) (members : List MemberDecl) (d d' : Draft) (staged : List Staged) : Prop where
  fits : ∀ s ∈ staged, s.Fits c
  placed : d.members.Registers c → ∀ s ∈ staged, s.Placed d'.members
  named : ∀ s ∈ staged, s.name ∈ propertyNames members ∨ s.name ∉ d.taken.map Prod.fst
  distinct : (propertyNames members).Nodup → (staged.map Staged.name).Nodup
  free : ∀ f ∈ staged.filterMap Staged.function?, f ∉ d.taken.map Prod.fst
  functions : (staged.filterMap Staged.function?).Nodup
  announced : ∀ s ∈ staged, s.recompute = none → s.name ∈ propertyNames members

theorem propertyNames_cons (m : MemberDecl) (ms : List MemberDecl) :
    propertyNames (m :: ms) = (m.property?.map fun _ => m.name).toList ++ propertyNames ms := by
  unfold propertyNames
  rw [List.filterMap_cons]
  cases m.property? <;> rfl

theorem mem_names_of_propertyNames {c : ClassDecl} {ms : List MemberDecl} (hmem : ∀ m ∈ ms, m ∈ c.members)
    {name : String} (h : name ∈ propertyNames ms) : name ∈ c.names := by
  obtain ⟨m, hm, hname⟩ := List.mem_filterMap.mp h
  obtain ⟨p, -, rfl⟩ := Option.map_eq_some_iff.mp hname
  exact List.mem_map_of_mem (hmem m hm)

/-- One more staged value before those of later members. -/
theorem StagedOfAll.cons {ms : List MemberDecl} {d d₁ d₂ : Draft} {s : Staged} {staged : List Staged}
    (hm : m ∈ c.members) (hmem : ∀ n ∈ ms, n ∈ c.members) (htaken : ∀ n ∈ c.names, n ∈ d.taken.map Prod.fst)
    (hs : StagedOf c m d d₁ s) (h₁ : d.Later d₁) (hall : StagedOfAll c ms d₁ d₂ staged) (h₂ : d₁.Later d₂) :
    StagedOfAll c (m :: ms) d d₂ (s :: staged) := by
  have hold {n : String} (hn : n ∈ d.taken.map Prod.fst) : n ∈ d₁.taken.map Prod.fst :=
    (h₁.taken.map Prod.fst).subset hn
  refine ⟨?_, fun hreg => ?_, ?_, fun hnodup => ?_, ?_, ?_, ?_⟩
  · exact List.forall_mem_cons.mpr ⟨hs.fits, hall.fits⟩
  · exact List.forall_mem_cons.mpr ⟨(hs.placed hreg).later h₂, hall.placed (hreg.later h₁)⟩
  · rw [propertyNames_cons]
    refine List.forall_mem_cons.mpr ⟨?_, fun t ht => ?_⟩
    · obtain ⟨⟨p, hp⟩, hname⟩ | ⟨hfree, -⟩ := hs.named
      · have hproperty := MemberDecl.property?_eq_some.mpr hp
        exact Or.inl (List.mem_append_left _ (by simp [hproperty, hname]))
      · exact Or.inr hfree
    · obtain h | h := hall.named t ht
      · exact Or.inl (List.mem_append_right _ h)
      · exact Or.inr fun hn => h (hold hn)
  · rw [propertyNames_cons, List.nodup_append] at hnodup
    refine List.nodup_cons.mpr ⟨fun hagain => ?_, hall.distinct hnodup.2.1⟩
    -- A later one is declared, or is free when this one has its name already.
    obtain ⟨t, ht, heq⟩ := List.mem_map.mp hagain
    obtain hdeclared | hfree := hall.named t ht
    · rw [heq] at hdeclared
      obtain ⟨⟨p, hp⟩, hname⟩ | ⟨hfree, -⟩ := hs.named
      · have hproperty := MemberDecl.property?_eq_some.mpr hp
        exact hnodup.2.2 s.name (by simp [hproperty, hname]) s.name hdeclared rfl
      · exact hfree (htaken _ (mem_names_of_propertyNames hmem hdeclared))
    · refine hfree (heq ▸ ?_)
      obtain ⟨-, hname⟩ | ⟨-, h⟩ := hs.named
      · exact hold (htaken _ (hname ▸ List.mem_map_of_mem hm))
      · exact h
  · intro f hf
    rw [List.filterMap_cons] at hf
    cases hfunction : s.function? with
    | none =>
      rw [hfunction] at hf
      exact fun hn => hall.free f hf (hold hn)
    | some g =>
      rw [hfunction] at hf
      obtain rfl | hf := List.mem_cons.mp hf
      · exact (hs.function f hfunction).1
      · exact fun hn => hall.free f hf (hold hn)
  · rw [List.filterMap_cons]
    cases hfunction : s.function? with
    | none => exact hall.functions
    | some g => exact List.nodup_cons.mpr ⟨fun hg => hall.free g hg (hs.function g hfunction).2, hall.functions⟩
  · rw [propertyNames_cons]
    refine List.forall_mem_cons.mpr ⟨fun hrecompute => ?_, fun t ht hrecompute => ?_⟩
    · obtain ⟨⟨p, hp⟩, hname⟩ := hs.announced hrecompute
      exact List.mem_append_left _ (by simp [MemberDecl.property?_eq_some.mpr hp, hname])
    · exact List.mem_append_right _ (hall.announced t ht hrecompute)

/-- A member that is not staged before those of later members. -/
theorem StagedOfAll.skip {ms : List MemberDecl} {d d₁ d₂ : Draft} {staged : List Staged} (h₁ : d.Later d₁)
    (hall : StagedOfAll c ms d₁ d₂ staged) : StagedOfAll c (m :: ms) d d₂ staged := by
  have hold {n : String} (hn : n ∈ d.taken.map Prod.fst) : n ∈ d₁.taken.map Prod.fst :=
    (h₁.taken.map Prod.fst).subset hn
  refine ⟨hall.fits, fun hreg => hall.placed (hreg.later h₁), fun t ht => ?_, fun hnodup => ?_,
    fun f hf hn => hall.free f hf (hold hn), hall.functions, fun t ht hrecompute => ?_⟩
  · rw [propertyNames_cons]
    obtain h | h := hall.named t ht
    · exact Or.inl (List.mem_append_right _ h)
    · exact Or.inr fun hn => h (hold hn)
  · rw [propertyNames_cons, List.nodup_append] at hnodup
    exact hall.distinct hnodup.2.1
  · rw [propertyNames_cons]
    exact List.mem_append_right _ (hall.announced t ht hrecompute)

theorem yields_stageAll : ∀ (records : List (MemberDecl × List Annotation)) (d : Draft),
    (∀ m ∈ records.map Prod.fst, m ∈ c.members) → (∀ n ∈ c.names, n ∈ d.taken.map Prod.fst) →
      Yields (stageAll records) d fun staged d' => StagedOfAll c (records.map Prod.fst) d d' staged
  | [], d, _, _ => ⟨List.forall_mem_nil _, fun _ => List.forall_mem_nil _, List.forall_mem_nil _,
    fun _ => List.nodup_nil, List.forall_mem_nil _, List.nodup_nil, List.forall_mem_nil _⟩
  | (m, annotations) :: rest, d, hmem, htaken => by
    have hm : m ∈ c.members := hmem _ List.mem_cons_self
    have hmem : ∀ n ∈ rest.map Prod.fst, n ∈ c.members := fun n hn => hmem n (List.mem_cons_of_mem _ hn)
    have hrest (d₁ : Draft) (h₁ : d.Later d₁) : Yields (stageAll rest) d₁ fun staged d' =>
        StagedOfAll c (rest.map Prod.fst) d₁ d' staged ∧ d₁.Later d' :=
      (yields_stageAll rest d₁ hmem fun n hn => (h₁.taken.map Prod.fst).subset (htaken n hn)).and_later
        (adds_stageAll rest)
    unfold stageAll
    refine ((yields_stageMember annotations hm d htaken).and_later (adds_stageMember m annotations)).bind
      fun result d₁ hresult => ?_
    obtain ⟨hstaged, h₁⟩ := hresult
    split
    · refine (hrest d₁ h₁).bind fun staged d₂ hall => ?_
      exact .cons hm hmem htaken (hstaged _ rfl) h₁ hall.1 hall.2
    · exact (hrest d₁ h₁).imp fun staged d₂ hall => hall.1.skip h₁

/-! ### Announcements -/

/-- What an announcement makes of the staged values: the one of the target, which is no helper, gets a source, or there is
one more, which is only announced. -/
theorem yields_announce_resolved (c : ClassDecl) (m : MemberDecl) (a : Annotation) (source : PropertyId)
    (staged : List Staged) (target : String) (d : Draft) :
    Yields (announce c m a source staged target) d fun staged' d' => d.Noted d' ∧
      (staged' = staged ∨
        (∃ index s, staged[index]? = some s ∧ d.members.resolve? target = some s.property ∧ s.origin ≠ .observable ∧
          source ∉ s.sources ∧
          staged' = staged.modify index fun s => { s with sources := s.sources ++ [source] }) ∨
        ∃ id info, d.members.resolve? target = some id ∧ (∀ s ∈ staged, s.property ≠ id) ∧
          d.members.find? target = some info ∧ info.hasSetter = false ∧
          staged' = staged ++
            [⟨id, info.name, info.type, .property, none, .disabled, false, none, [source], info.span⟩]) := by
  unfold announce
  refine Yields.bind (Q := fun d₀ d' => d₀ = d ∧ d' = d) ⟨rfl, rfl⟩ ?_
  rintro _ d ⟨rfl, rfl⟩
  dsimp only
  split
  · exact ⟨notes_report _ _ rfl d, Or.inl rfl⟩
  · rename_i id hid
    split
    · rename_i s hs
      have hproperty : s.property = id := by simpa using List.find?_some hs
      split
      · exact ⟨notes_report _ _ rfl d, Or.inl rfl⟩
      · rename_i horigin
        split
        · exact ⟨.refl _, Or.inl rfl⟩
        · rename_i hnew
          refine ⟨.refl _, Or.inr (Or.inl ⟨_, s, ?_, hproperty ▸ hid, horigin,
            fun hmem => hnew (List.contains_iff_mem.mpr hmem), rfl⟩)⟩
          rw [← List.find?_eq_getElem?_findIdx, hs]
    · rename_i hnone
      split
      · exact ⟨.refl _, Or.inl rfl⟩
      · rename_i info hinfo
        split
        · exact ⟨notes_report _ _ rfl d, Or.inl rfl⟩
        · rename_i hsetter
          refine ⟨.refl _, Or.inr (Or.inr ⟨id, info, hid, fun s hs heq => ?_, hinfo, ?_, rfl⟩)⟩
          · exact List.find?_eq_none.mp hnone s hs (decide_eq_true heq)
          · exact Bool.eq_false_iff.mpr hsetter

/-- What an announcement makes of the staged values: one that is no helper gets a source, or there is one more, which is
only announced. -/
theorem yields_announce (c : ClassDecl) (m : MemberDecl) (a : Annotation) (source : PropertyId) (staged : List Staged)
    (target : String) (d : Draft) :
    Yields (announce c m a source staged target) d fun staged' d' => d.Noted d' ∧
      (staged' = staged ∨
        (∃ index s, staged[index]? = some s ∧ s.origin ≠ .observable ∧ source ∉ s.sources ∧
          staged' = staged.modify index fun s => { s with sources := s.sources ++ [source] }) ∨
        ∃ id info, d.members.resolve? target = some id ∧ (∀ s ∈ staged, s.property ≠ id) ∧
          d.members.find? target = some info ∧ info.hasSetter = false ∧
          staged' = staged ++
            [⟨id, info.name, info.type, .property, none, .disabled, false, none, [source], info.span⟩]) := by
  refine (yields_announce_resolved c m a source staged target d).imp ?_
  rintro staged' d' ⟨hnoted, h⟩
  exact ⟨hnoted, h.imp_right (Or.imp_left fun ⟨index, s, hs, _, h⟩ => ⟨index, s, hs, h⟩)⟩

/-- A loop keeps what each of its steps keeps. -/
theorem yields_foldlM {γ δ : Type} {f : γ → δ → Drafting γ} {P : γ → Draft → Prop} : ∀ (xs : List δ),
    (∀ x ∈ xs, ∀ y d, P y d → Yields (f y x) d P) → ∀ (y : γ) (d : Draft), P y d → Yields (xs.foldlM f y) d P
  | [], _, _, _, hP => hP
  | x :: xs, h, y, d, hP => by
    obtain ⟨hx, hxs⟩ := List.forall_mem_cons.mp h
    exact (hx y d hP).bind fun y' d' hP' => yields_foldlM xs hxs y' d' hP'

/-- The property of the member announces changes of the target. -/
structure Announces (records : List (MemberDecl × List Annotation)) (m : MemberDecl) (a : Annotation) (target : String) :
    Prop where
  annotated : ∃ annotations, (m, annotations) ∈ records ∧ findKind .notifyFor annotations = some a
  property : m.property?.isSome = true
  named : target ∈ a.strings "Targets"

theorem yields_mergeAnnouncements {P : List Staged → Draft → Prop}
    (hmono : ∀ staged d d', P staged d → d.Noted d' → P staged d')
    (c : ClassDecl) (m : MemberDecl) (a : Annotation)
    (h : ∀ source staged d, ∀ target ∈ a.strings "Targets", m.property?.isSome = true →
      d.members.resolve? m.name = some source → P staged d → Yields (announce c m a source staged target) d P)
    (staged : List Staged) (d : Draft) (hP : P staged d) : Yields (mergeAnnouncements c m a staged) d P := by
  have hreport : Yields (do
      report (.invalidArguments a.kind.text m.name (.propertiesOnly .notifyFor)) a.span
      return staged : Drafting (List Staged)) d P := hmono staged d _ hP (notes_report _ _ rfl d)
  have hannounce (id : PropertyId) (hproperty : m.property?.isSome = true) (hid : d.members.resolve? m.name = some id) :
      Yields ((a.strings "Targets").foldlM (announce c m a id) staged) d P := by
    refine (yields_foldlM (P := fun staged d => P staged d ∧ d.members.resolve? m.name = some id) _
      (fun target htarget staged d hd => ?_) _ _ ⟨hP, hid⟩).imp fun _ _ h => h.1
    have hkept : (announce c m a id staged target d).2.members = d.members :=
      (notes_announce c m a id staged target d).members
    exact (h id staged d target htarget hproperty hd.2 hd.1).and (show _ = _ from hkept ▸ hd.2)
  unfold mergeAnnouncements
  split
  · rename_i hproperty
    refine (yields_resolve m.name d).bind ?_
    rintro source d ⟨rfl, hsource⟩
    cases source with
    | none => exact hreport
    | some id => exact hannounce id hproperty hsource
  · exact hreport

/-- Announcements keep what each of them keeps. -/
theorem yields_mergeAll_of {P : List Staged → Draft → Prop} (hmono : ∀ staged d d', P staged d → d.Noted d' → P staged d')
    (c : ClassDecl) : ∀ (records : List (MemberDecl × List Annotation)),
      (∀ m a source staged target d, Announces records m a target → d.members.resolve? m.name = some source →
        P staged d → Yields (announce c m a source staged target) d P) →
      ∀ (staged : List Staged) (d : Draft), P staged d → Yields (mergeAll c records staged) d P
  | [], _, _, _, hP => hP
  | (m, annotations) :: rest, h, staged, d, hP => by
    have hrest := yields_mergeAll_of hmono c rest fun m a source staged target d hannounces =>
      h m a source staged target d
        { hannounces with annotated := hannounces.annotated.imp fun _ => And.imp_left (List.mem_cons_of_mem _) }
    unfold mergeAll
    split
    · rename_i a ha
      refine (yields_mergeAnnouncements hmono c m a (fun source staged d target htarget hproperty hsource => ?_) staged d
        hP).bind fun staged' d' hP' => hrest staged' d' hP'
      exact h m a source staged target d ⟨⟨annotations, List.mem_cons_self, ha⟩, hproperty, htarget⟩ hsource
    · exact hrest staged d hP

theorem yields_mergeAll {P : List Staged → Draft → Prop} (hmono : ∀ staged d d', P staged d → d.Noted d' → P staged d')
    (c : ClassDecl) (h : ∀ m a source staged target d, source < d.members.length → P staged d →
      Yields (announce c m a source staged target) d P)
    (records : List (MemberDecl × List Annotation)) (staged : List Staged) (d : Draft) (hP : P staged d) :
    Yields (mergeAll c records staged) d P := by
  refine yields_mergeAll_of hmono c records (fun m a source staged target d _ hsource => ?_) staged d hP
  exact h m a source staged target d (List.findIdx?_eq_some_iff_getElem.mp hsource).1

/-- Every staged value goes with its class. -/
theorem fits_mergeAll (c : ClassDecl) (records : List (MemberDecl × List Annotation)) (staged : List Staged) (d : Draft)
    (hfits : ∀ s ∈ staged, s.Fits c) : Yields (mergeAll c records staged) d fun staged' _ => ∀ s ∈ staged', s.Fits c := by
  refine yields_mergeAll (P := fun staged _ => ∀ s ∈ staged, s.Fits c) (fun _ _ _ h _ => h) c ?_ records staged d hfits
  intro m a source staged target d _ hfits
  refine (yields_announce c m a source staged target d).imp fun staged' d' h => ?_
  obtain ⟨-, rfl | ⟨index, s, hs, horigin, -, rfl⟩ | ⟨id, info, -, -, -, -, rfl⟩⟩ := h
  · exact hfits
  · intro t ht
    obtain ⟨i, hi⟩ := List.mem_iff_getElem?.mp ht
    rw [List.getElem?_modify] at hi
    obtain ⟨t', ht', heq⟩ := Option.map_eq_some_iff.mp hi
    have hfitsOld := hfits t' (List.mem_of_getElem? ht')
    split at heq
    · rename_i hindex
      subst hindex heq
      obtain rfl : s = t' := Option.some.inj (hs.symm.trans ht')
      obtain ⟨hwritten, hcached, huncached, hlazy, hnamed, -, hown, hsilent⟩ := hfitsOld
      exact ⟨hwritten, hcached, huncached, hlazy, hnamed, fun ho => absurd ho horigin, hown, hsilent⟩
    · exact heq ▸ hfitsOld
  · intro t ht
    obtain ht | ht := List.mem_append.mp ht
    · exact hfits t ht
    · obtain rfl := List.mem_singleton.mp ht
      exact ⟨nofun, nofun, fun _ => rfl, nofun, nofun, nofun, fun _ hc => (nomatch hc), nofun⟩

/-- Every staged value has a property and a function of its own. -/
structure Apart (staged : List Staged) (d : Draft) : Prop where
  placed : ∀ s ∈ staged, s.Placed d.members
  distinct : (staged.map Staged.name).Nodup
  functions : (staged.filterMap Staged.function?).Nodup

theorem Apart.noted {staged : List Staged} {d d' : Draft} (h : Apart staged d) (hnoted : d.Noted d') : Apart staged d' :=
  ⟨fun s hs => (h.placed s hs).later hnoted.added.toLater, h.distinct, h.functions⟩

theorem apart_announce (c : ClassDecl) (m : MemberDecl) (a : Annotation) (source : PropertyId) (staged : List Staged)
    (target : String) (d : Draft) (hapart : Apart staged d) :
    Yields (announce c m a source staged target) d Apart := by
  refine (yields_announce c m a source staged target d).imp fun staged' d' h => ?_
  obtain ⟨hnoted, h⟩ := h
  have hlater := hnoted.added.toLater
  obtain rfl | ⟨index, s, hs, -, -, rfl⟩ | ⟨id, info, hid, hnew, hinfo, hsetter, rfl⟩ := h
  · exact hapart.noted hnoted
  · refine ⟨fun t ht => ?_, ?_, ?_⟩
    · obtain ⟨t', ht', heq⟩ := mem_of_mem_modify ht
      have hplaced := (hapart.placed t' ht').later hlater
      obtain rfl | rfl := heq <;> exact ⟨hplaced.resolved, hplaced.info⟩
    · rw [map_modify_of_eq (f := fun s : Staged => { s with sources := s.sources ++ [source] }) fun _ => rfl]
      exact hapart.distinct
    · have hid (staged : List Staged) :
          staged.filterMap Staged.function? = (staged.map Staged.function?).filterMap id := by
        rw [List.filterMap_map]
        rfl
      rw [hid, map_modify_of_eq (f := fun s : Staged => { s with sources := s.sources ++ [source] }) fun _ => rfl,
        ← hid]
      exact hapart.functions
  · have hname : info.name = target := MemberTable.name_of_find? hinfo
    refine ⟨fun t ht => ?_, ?_, ?_⟩
    · obtain ht | ht := List.mem_append.mp ht
      · exact (hapart.placed t ht).later hlater
      · obtain rfl := List.mem_singleton.mp ht
        exact Staged.Placed.later ⟨hname ▸ hid, info, hname ▸ hinfo, hsetter⟩ hlater
    · rw [List.map_append]
      refine List.nodup_append.mpr ⟨hapart.distinct, List.nodup_singleton _, fun n hn n' hn' => ?_⟩
      obtain ⟨t, ht, rfl⟩ := List.mem_map.mp hn
      obtain rfl := List.mem_singleton.mp hn'
      -- One of that name would have the same property.
      intro heq
      have hplaced := (hapart.placed t ht).resolved
      rw [heq] at hplaced
      have hsame : d.members.resolve? info.name = some id := hname ▸ hid
      exact hnew t ht (Option.some.inj (hplaced.symm.trans hsame))
    · rw [List.filterMap_append]
      exact (List.append_nil _).symm ▸ hapart.functions

end Drafting

end Reactive
