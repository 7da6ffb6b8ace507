import Mathlib.Data.List.Flatten
import Reactive.Proofs.Analyzing

/-!
# Reactive.Proofs.Ledger — the names that the analysis takes

Every generated field, property and method has a name that the analysis has taken for it, or is an accessor of a
property of such a name.  A name is taken once, and no declared member has it.

* `Draft.Takes`: a stage of the analysis takes some names.
* `ClassModel.takenNames`: the names that are taken for what is generated for a class.
* `ClassModel.Entered`: these names are all different, and no member is declared under one of them; what stands for a
  declared property is marked as declared, and what is added is not.
-/

namespace Reactive

namespace Naming

/-- The name of a generated field begins with an underscore. -/
theorem head_slot (name : String) : (slot name).toList.head? = some '_' := by
  unfold slot
  split
  · rfl
  · rw [String.toList_append]
    rfl

theorem head_lazyFlag (name : String) : (lazyFlag (slot name)).toList.head? = some '_' := by
  rw [lazyFlag, String.toList_append, List.head?_append, head_slot]
  rfl

theorem head_raiseAndSet (name : String) : (raiseAndSet name).toList.head? = some 'R' := by
  rw [raiseAndSet, String.toList_append]
  rfl

theorem head_recompute (name : String) : (recompute name).toList.head? = some 'R' := by
  rw [recompute, String.toList_append]
  rfl

/-- Names with different first letters are different. -/
theorem ne_of_head {x y : String} {a b : Char} (hx : x.toList.head? = some a) (hy : y.toList.head? = some b)
    (h : a ≠ b) : x ≠ y := by
  rintro rfl
  exact h (Option.some.inj (hx.symm.trans hy))

theorem slot_ne_lazyFlag (name : String) : slot name ≠ lazyFlag (slot name) := by
  intro h
  have hlength := congrArg String.length h
  rw [lazyFlag, String.length_append] at hlength
  have : "Initialized".length = 11 := rfl
  omega

end Naming

/-! ### Names of generated members -/

/-- The value is one of a method, which is exposed as a property of its own. -/
def DerivedOrigin.isMethod : DerivedOrigin → Bool
  | .method _ => true
  | _ => false

/-- The names that are taken for a reactive property. -/
def MutableProperty.takenNames (p : MutableProperty) : List String := [p.slot, Naming.raiseAndSet p.name]

/-- The names that are taken for the fields of a derived value; one that is no observable helper has a method, too. -/
def cacheNames (origin : DerivedOrigin) (name : String) : Option DerivedSlot → List String
  | none => []
  | some slot => slot.value :: ((if origin = .observable then [] else [Naming.recompute name]) ++ slot.flag.toList)

/-- The names that are taken for a derived value. -/
def derivedNames (origin : DerivedOrigin) (name : String) (slot : Option DerivedSlot) : List String :=
  (if origin.isMethod then [name] else []) ++ cacheNames origin name slot

/-- The names that are taken for a staged value, but for the one of a function. -/
def Staged.takenNames (s : Staged) : List String := derivedNames s.origin s.name s.slot

/-- The names that are taken for a derived value, but for the one of a function. -/
def DerivedProperty.takenNames (d : DerivedProperty) : List String := derivedNames d.origin d.name d.slot

/-- The names that are taken for a command. -/
def CommandModel.takenNames (k : CommandModel) : List String := [k.property, k.slot]

/-- The names that are taken for what is generated for a class. -/
def ClassModel.takenNames (m : ClassModel) : List String :=
  m.mutableProperties.flatMap MutableProperty.takenNames ++ m.derived.flatMap DerivedProperty.takenNames
    ++ m.commands.flatMap CommandModel.takenNames

/-! ### Taking names -/

namespace Draft

/-- Names that were free and all different, and are taken now. -/
structure Takes (d d' : Draft) (names : List String) : Prop where
  distinct : names.Nodup
  free : ∀ n ∈ names, n ∉ d.taken.map Prod.fst
  taken : ∀ n ∈ names, n ∈ d'.taken.map Prod.fst

variable {d d₁ d₂ d₃ : Draft} {xs ys : List String}

theorem Takes.nil (d d' : Draft) : d.Takes d' [] := ⟨List.nodup_nil, nofun, nofun⟩

theorem Later.subset (h : d.Later d₁) {n : String} (hn : n ∈ d.taken.map Prod.fst) : n ∈ d₁.taken.map Prod.fst :=
  (h.taken.map Prod.fst).subset hn

/-- What is taken within a stage is taken within a longer one. -/
theorem Takes.within (h : d₁.Takes d₂ xs) (h₁ : d.Later d₁) (h₂ : d₂.Later d₃) : d.Takes d₃ xs :=
  ⟨h.distinct, fun n hn htaken => h.free n hn (h₁.subset htaken), fun n hn => h₂.subset (h.taken n hn)⟩

/-- What is taken in a later stage differs from what is taken in an earlier one. -/
theorem Takes.append (h : d.Takes d₁ xs) (h' : d₁.Takes d₂ ys) (h₁ : d.Later d₁) (h₂ : d₁.Later d₂) :
    d.Takes d₂ (xs ++ ys) := by
  refine ⟨List.nodup_append.mpr ⟨h.distinct, h'.distinct, ?_⟩, fun n hn => ?_, fun n hn => ?_⟩
  · rintro x hx _ hy rfl
    exact h'.free x hy (h.taken x hx)
  · obtain hn | hn := List.mem_append.mp hn
    · exact h.free n hn
    · exact (h'.within h₁ (.refl d₂)).free n hn
  · obtain hn | hn := List.mem_append.mp hn
    · exact h₂.subset (h.taken n hn)
    · exact h'.taken n hn

theorem Takes.sublist (h : d.Takes d₁ ys) (hsub : xs.Sublist ys) : d.Takes d₁ xs :=
  ⟨h.distinct.sublist hsub, fun n hn => h.free n (hsub.subset hn), fun n hn => h.taken n (hsub.subset hn)⟩

/-- Every declared property is known, as one that is declared. -/
def Files (d : Draft) (c : ClassDecl) : Prop :=
  ∀ m ∈ c.members, ∀ p, m.kind = .property p → ∃ i, d.members.find? m.name = some i ∧ i.synthesized = false

theorem Later.synthesized (h : d.Later d₁) {name : String} {flag : Bool}
    (hi : ∃ i, d.members.find? name = some i ∧ i.synthesized = flag) :
    ∃ i, d₁.members.find? name = some i ∧ i.synthesized = flag := by
  obtain ⟨i, hi, hflag⟩ := hi
  obtain ⟨i', hi', hfixed⟩ := h.find? hi
  have hsame : i'.fixed.synthesized = i.fixed.synthesized := by rw [hfixed]
  exact ⟨i', hi', hsame.trans hflag⟩

theorem Files.later {c : ClassDecl} (h : d.Files c) (hlater : d.Later d₁) : d₁.Files c :=
  fun m hm p hp => hlater.synthesized (h m hm p hp)

end Draft

namespace MemberDecl

/-- The member is annotated as reactive. -/
def isReactive (m : MemberDecl) : Bool := (findKind .reactive ( Annotation.ofMember m).1).isSome

end MemberDecl

/-- A reactive property is declared as such, with a setter and with its initial value. -/
def MutableProperty.Declared (c : ClassDecl) (p : MutableProperty) : Prop :=
  ∃ m ∈ c.members, m.name = p.name ∧ m.isReactive = true ∧
    ∃ decl, m.kind = .property decl ∧ decl.setter.isSome ∧ decl.initializer = p.initializer

/-- A derived value whose getter is generated stands for a declared getter, or for an added property. -/
structure Entry (c : ClassDecl) (origin : DerivedOrigin) (name : String) (table : MemberTable) : Prop where
  written : origin.isMethod = false → ∃ body, c.HasGetter name body
  info : ∃ i, table.find? name = some i ∧ i.synthesized = origin.isMethod

theorem Entry.later {c : ClassDecl} {origin : DerivedOrigin} {name : String} {d d' : Draft}
    (h : Entry c origin name d.members) (hlater : d.Later d') : Entry c origin name d'.members :=
  ⟨h.written, hlater.synthesized h.info⟩

namespace Drafting

variable {α : Type} {c : ClassDecl}

/-! ### Declared and reactive properties -/

theorem yields_claimAll_takes {names : List String} (span : Span) (d : Draft) (hnodup : names.Nodup) :
    Yields (claimAll names span) d fun conflict d' => conflict = none → d.Takes d' names :=
  (yields_claimAll names span d).imp fun _ _ h hnone => ⟨hnodup, (h.2 hnone).1, (h.2 hnone).2.1⟩

theorem yields_claim_takes (name : String) (span : Span) (d : Draft) :
    Yields (claim name span) d fun owner d' => owner = none → d.Takes d' [name] :=
  (yields_claim name span d).imp fun _ _ h hnone => by
    obtain ⟨hfree, htaken, -⟩ := h.2 hnone
    exact ⟨List.nodup_singleton _, List.forall_mem_singleton.mpr hfree, List.forall_mem_singleton.mpr htaken⟩

/-- There is a property of the name afterwards, and no other than that has been added. -/
theorem yields_addProperty_found (info : PropertyInfo) (d : Draft) :
    Yields (addProperty info) d fun _ d' => (∃ i, d'.members.find? info.name = some i) ∧
      ∀ i ∈ d'.members, i ∈ d.members ∨ i = info := by
  obtain ⟨earlier, hfound, h⟩ | ⟨hfree, h⟩ := addProperty_cases info d
  · exact .intro h ⟨⟨earlier, hfound⟩, fun i hi => Or.inl hi⟩
  · refine .intro h ⟨⟨info, ?_⟩, fun i hi => (List.mem_append.mp hi).imp id List.mem_singleton.mp⟩
    have hnone : List.find? (·.name == info.name) d.members = none :=
      List.find?_eq_none.mpr fun i hi hname => hfree (List.mem_map.mpr ⟨i, hi, eq_of_beq hname⟩)
    show List.find? _ (d.members ++ [info]) = _
    rw [List.find?_append, hnone]
    simp

/-- A declared property is known as one that is declared, be it the first of its name or not. -/
theorem yields_declare_files (m : MemberDecl) (d : Draft) (hold : ∀ i ∈ d.members, i.synthesized = false) :
    Yields (declare m) d fun _ d' => (∀ i ∈ d'.members, i.synthesized = false) ∧
      ∀ p, m.kind = .property p → ∃ i, d'.members.find? m.name = some i ∧ i.synthesized = false := by
  unfold declare
  split
  · rename_i p hp
    refine (yields_addProperty_found ⟨m.name, p.type, p.setter.isSome, .plain, false, accessibility m.modifiers,
      m.nameSpan⟩ d).bind fun result d₁ h₁ => ?_
    obtain ⟨⟨i, hi⟩, hall⟩ := h₁
    have hdeclared : ∀ j ∈ d₁.members, j.synthesized = false := by
      intro j hj
      obtain hj | rfl := hall j hj
      · exact hold j hj
      · rfl
    have hboth : (∀ j ∈ d₁.members, j.synthesized = false) ∧
        ∀ p, m.kind = .property p → ∃ i, d₁.members.find? m.name = some i ∧ i.synthesized = false :=
      ⟨hdeclared, fun _ _ => ⟨i, hi, hdeclared i (List.mem_of_find?_eq_some hi)⟩⟩
    split <;> exact hboth
  · rename_i hother
    exact ⟨hold, fun p hp => absurd hp (hother p)⟩

/-- All declared properties are known as such. -/
theorem yields_declareAll_files : ∀ (ms : List MemberDecl) (d : Draft), (∀ i ∈ d.members, i.synthesized = false) →
    Yields (ms.forM declare) d fun _ d' => d.Later d' ∧
      ∀ m ∈ ms, ∀ p, m.kind = .property p → ∃ i, d'.members.find? m.name = some i ∧ i.synthesized = false
  | [], d, _ => ⟨.refl d, nofun⟩
  | m :: ms, d, hold => by
    refine Yields.bind (Q := fun _ d₁ => d.Later d₁ ∧ (∀ i ∈ d₁.members, i.synthesized = false) ∧
        ∀ p, m.kind = .property p → ∃ i, d₁.members.find? m.name = some i ∧ i.synthesized = false)
      ⟨later_declare m d, yields_declare_files m d hold⟩ fun _ d₁ h₁ => ?_
    obtain ⟨h₁, hold₁, hm⟩ := h₁
    refine (yields_declareAll_files ms d₁ hold₁).imp fun _ d₂ h₂ => ?_
    exact ⟨h₁.trans h₂.1, List.forall_mem_cons.mpr ⟨fun p hp => h₂.1.synthesized (hm p hp), h₂.2⟩⟩

/-- The records of members that are declared in the class, with their annotations. -/
def Records (c : ClassDecl) (records : List (MemberDecl × List Annotation)) : Prop :=
  ∀ r ∈ records, r.1 ∈ c.members ∧ r.2 = ( Annotation.ofMember r.1).1

theorem records_annotatedMembers (c : ClassDecl) : Records c (annotatedMembers c).1 := by
  intro r hr
  obtain ⟨e, he, rfl⟩ := List.mem_map.mp hr
  obtain ⟨m, hm, rfl⟩ := List.mem_map.mp he
  exact ⟨hm, rfl⟩

theorem yields_mutableProperty_takes {m : MemberDecl} (a : Annotation) (hm : m ∈ c.members)
    (hreactive : m.isReactive = true) (d : Draft) :
    Yields (mutableProperty m a) d fun r d' => ∀ p, r = some p → d.Takes d' p.takenNames ∧ p.Declared c := by
  unfold mutableProperty
  split
  · exact yields_reject
  · rename_i decl hdecl
    split
    · exact yields_reject
    · rename_i setter hsetter
      split
      · exact yields_reject
      · refine Yields.bind (Q := fun d₀ d' => d₀ = d ∧ d' = d) ⟨rfl, rfl⟩ ?_
        rintro _ d ⟨rfl, rfl⟩
        dsimp only
        split
        · exact yields_none
        · split
          · exact yields_none
          · have hnodup : [Naming.slot m.name, Naming.raiseAndSet m.name].Nodup := by
              simp [Naming.ne_of_head (Naming.head_slot _) (Naming.head_raiseAndSet _)]
            refine (yields_claimAll_takes m.nameSpan _ hnodup).bind fun conflict d₁ hclaim => ?_
            split
            · exact yields_reject
            · rintro p ⟨⟩
              exact ⟨hclaim rfl, m, hm, rfl, hreactive, decl, hdecl, by rw [hsetter]; rfl, rfl⟩

/-- Reactive properties take names of their own. -/
theorem yields_mutableProperties_takes : ∀ (records : List (MemberDecl × List Annotation)) (d : Draft),
    Records c records → Yields (mutableProperties records) d fun ps d' =>
      d.Takes d' (ps.flatMap MutableProperty.takenNames) ∧ ∀ p ∈ ps, p.Declared c
  | [], d, _ => ⟨.nil d d, nofun⟩
  | (m, annotations) :: rest, d, hrecords => by
    obtain ⟨⟨hm, hannotations⟩, hrest⟩ := List.forall_mem_cons.mp hrecords
    unfold mutableProperties
    split
    · exact yields_mutableProperties_takes rest d hrest
    · rename_i a ha
      have hreactive : m.isReactive = true := by
        rw [MemberDecl.isReactive, ← hannotations, ha]
        rfl
      refine ((yields_mutableProperty_takes a hm hreactive d).and_later (notes_mutableProperty m a).adds).bind
        fun result d₁ hresult => ?_
      obtain ⟨hp, h₁⟩ := hresult
      split
      · refine ((yields_mutableProperties_takes rest d₁ hrest).and (yields_mutableProperties_marked rest d₁)).imp
          fun ps d₂ h => ?_
        exact ⟨h.1.1.within h₁ (.refl d₂), h.1.2⟩
      · rename_i p
        obtain ⟨htakes, hdeclared⟩ := hp p rfl
        refine Yields.bind (Q := fun _ d₂ => d₁.Later d₂) (later_setRole _ _ d₁) fun _ d₂ h₂ => ?_
        refine ((yields_mutableProperties_takes rest d₂ hrest).and (yields_mutableProperties_marked rest d₂)).bind
          fun ps d₃ h => ?_
        obtain ⟨⟨hps, hall⟩, h₃⟩ := h
        exact ⟨(htakes.within (.refl d) h₂).append hps (h₁.trans h₂) h₃.toLater, List.forall_mem_cons.mpr ⟨hdeclared, hall⟩⟩

/-! ### Derived values -/

/-- What is known of a target besides. -/
structure TargetEntered (c : ClassDecl) (d d' : Draft) (t : Target) : Prop where
  own : t.origin ≠ .observable
  takes : d.Takes d' (if t.origin.isMethod then [t.name] else [])
  entry : d.Files c → t.recompute.isSome → Entry c t.origin t.name d'.members

theorem yields_propertyTarget_entered {m : MemberDecl} {p : PropertyDecl} (a : Annotation) (cache : CachePolicy)
    (hm : m ∈ c.members) (hp : m.kind = .property p) (d : Draft) :
    Yields (propertyTarget m p a cache) d fun r d' => ∀ t, r = some t → TargetEntered c d d' t := by
  unfold propertyTarget
  split
  · exact yields_reject
  · split
    · exact yields_reject
    · refine (yields_resolve m.name d).bind ?_
      rintro id d ⟨rfl, -⟩
      split
      · exact yields_none
      · split
        · rename_i body hbody
          refine ((notes_stagedBody m body).yields d).bind fun result d' hlater => ?_
          split
          · rintro t ⟨⟩
            exact ⟨nofun, .nil d d', fun hfiles _ =>
              ⟨fun _ => ⟨body, m, hm, rfl, p, hp, hbody⟩, hlater.synthesized (hfiles m hm p hp)⟩⟩
          · exact yields_none
        · split
          · exact yields_reject
          · rintro t ⟨⟩
            exact ⟨nofun, .nil d d, nofun⟩

theorem yields_methodTarget_entered (c : ClassDecl) (m : MemberDecl) (decl : MethodDecl) (a : Annotation) (d : Draft) :
    Yields (methodTarget m decl a) d fun r d' => ∀ t, r = some t → TargetEntered c d d' t := by
  unfold methodTarget
  split
  · exact yields_reject
  · rename_i exposed _
    split
    · exact yields_reject
    · split
      · exact yields_reject
      · refine (yields_claim_takes exposed a.span d).bind fun owner d₁ hclaim => ?_
        split
        · exact yields_reject
        · have htakes := hclaim rfl
          have hadded := later_addProperty ⟨exposed, decl.returnType, false, .plain, true, none, a.span⟩ d₁
          refine Yields.bind (Q := fun result d₂ => d₁.Later d₂ ∧ ∀ id, result = .ok id →
              ∃ i, d₂.members.find? exposed = some i ∧ i.synthesized = true) ⟨hadded, ?_⟩ fun result d₂ h₂ => ?_
          · obtain ⟨⟨i, hi⟩, hall⟩ := yields_addProperty_found
              ⟨exposed, decl.returnType, false, .plain, true, none, a.span⟩ d₁
            have hok := yields_addProperty ⟨exposed, decl.returnType, false, .plain, true, none, a.span⟩ d₁
            intro id hid
            refine ⟨i, hi, ?_⟩
            obtain hold | rfl := hall i (List.mem_of_find?_eq_some hi)
            · -- No property had the name before.
              exact absurd (List.mem_map.mpr ⟨i, hold, MemberTable.name_of_find? hi⟩) (hok id hid).1
            · rfl
          · split
            · exact yields_reject
            · rintro t ⟨⟩
              exact ⟨nofun, htakes.within (.refl d) h₂.1, fun _ _ => ⟨nofun, h₂.2 _ rfl⟩⟩

theorem yields_cacheSlot_takes (m : MemberDecl) (name : String) (cache : CachePolicy) {origin : DerivedOrigin}
    (hown : origin ≠ .observable) (d : Draft) :
    Yields (cacheSlot m name cache) d fun r d' => ∀ slot, r = some slot → d.Takes d' (cacheNames origin name slot) := by
  unfold cacheSlot
  split
  · rintro slot ⟨⟩
    exact .nil d _
  · dsimp only
    have hnames (flag : Option String) : [Naming.slot name, Naming.recompute name] ++ flag.toList =
        cacheNames origin name (some ⟨Naming.slot name, flag⟩) := by
      rw [cacheNames, if_neg hown]
      rfl
    rw [hnames]
    refine (yields_claimAll_takes m.nameSpan d ?_).bind fun conflict d' hclaim => ?_
    · rw [← hnames]
      have h₁ := Naming.ne_of_head (Naming.head_slot name) (Naming.head_recompute name) (by decide)
      have h₂ := Naming.ne_of_head (Naming.head_recompute name) (Naming.head_lazyFlag name) (by decide)
      have h₃ := Naming.slot_ne_lazyFlag name
      by_cases hlazy : cache = .lazy <;> simp [hlazy, h₁, h₂, h₃]
    · split
      · exact yields_reject
      · rintro slot ⟨⟩
        exact hclaim rfl

/-- A staged value has taken its names, and stands for something declared or added. -/
structure StagedEntered (c : ClassDecl) (d d' : Draft) (s : Staged) : Prop where
  takes : d.Takes d' s.takenNames
  entry : d.Files c → s.recompute.isSome → Entry c s.origin s.name d'.members

theorem yields_derivedTarget_entered {m : MemberDecl} (a : Annotation) (cache : CachePolicy) (hm : m ∈ c.members)
    (d : Draft) : Yields (derivedTarget m a cache) d fun r d' => ∀ t, r = some t → TargetEntered c d d' t := by
  unfold derivedTarget
  split
  · rename_i p hp
    exact yields_propertyTarget_entered a cache hm hp d
  · exact yields_methodTarget_entered c m _ a d

theorem yields_stageTarget_entered (m : MemberDecl) (a : Annotation) (cache : CachePolicy) (notifies : Bool)
    {t : Target} {d d₁ d₂ : Draft} (ht : TargetEntered c d d₁ t) (h₁ : d.Later d₁) (h₂ : d₁.Later d₂) :
    Yields (stageTarget m a cache notifies t) d₂ fun r d' => ∀ s, r = some s → StagedEntered c d d' s := by
  unfold stageTarget
  refine ((yields_cacheSlot_takes m t.name cache ht.own d₂).and_later (notes_cacheSlot m t.name cache).adds).bind
    fun slot d₃ hslot => ?_
  obtain ⟨htakes, h₃⟩ := hslot
  split
  · exact yields_none
  · refine ((notes_claimFunction _ _ _).yields d₃).bind fun free d₄ h₄ => ?_
    split
    · exact yields_none
    · refine ((notes_resolveSources _ _ _ _).yields d₄).bind fun sources d₅ h₅ => ?_
      refine ((notes_checkReads _ _ _).yields d₅).bind fun _ d₆ h₆ => ?_
      rintro s ⟨⟩
      have hlater := (h₄.trans h₅).trans h₆
      refine ⟨(ht.takes.within (.refl d) h₂).append ((htakes _ rfl).within (.refl d₂) hlater) (h₁.trans h₂)
        (h₃.trans hlater), fun hfiles hrecompute => ?_⟩
      exact (ht.entry hfiles hrecompute).later ((h₂.trans h₃).trans hlater)

theorem yields_stageDerived_entered {m : MemberDecl} (a : Annotation) (hm : m ∈ c.members) (d : Draft) :
    Yields (stageDerived m a) d fun r d' => ∀ s, r = some s → StagedEntered c d d' s := by
  obtain ⟨cache, notifies, ignored, heq⟩ := stageDerived_eq m a
  rw [heq]
  refine ((yields_derivedTarget_entered a cache hm d).and_later (adds_derivedTarget m a cache)).bind
    fun target d₁ htarget => ?_
  obtain ⟨hentered, h₁⟩ := htarget
  split
  · exact yields_none
  · have ht := hentered _ rfl
    split
    · exact ((notes_report _ _ rfl).yields d₁).bind fun _ d₂ h₂ => yields_stageTarget_entered m a cache notifies ht h₁ h₂
    · exact yields_stageTarget_entered m a cache notifies ht h₁ (.refl d₁)

theorem yields_stageObservable_entered {m : MemberDecl} (a : Annotation) (hm : m ∈ c.members) (d : Draft) :
    Yields (stageObservable m a) d fun r d' => ∀ s, r = some s → StagedEntered c d d' s := by
  unfold stageObservable
  split
  · exact yields_reject
  · rename_i p hp
    split
    · exact yields_reject
    · exact yields_reject
    · rename_i body hsetter hbody
      split
      · exact yields_reject
      · refine (yields_resolve m.name d).bind ?_
        rintro id d ⟨rfl, -⟩
        split
        · exact yields_none
        · refine ((yields_claim_takes (Naming.slot m.name) m.nameSpan d).and_later (notes_claim _ _).adds).bind
            fun owner d₁ hclaim => ?_
          split
          · exact yields_reject
          · rintro s ⟨⟩
            refine ⟨hclaim.1 rfl, fun hfiles _ => ⟨fun _ => ⟨body, m, hm, rfl, p, hp, hbody⟩, ?_⟩⟩
            exact hclaim.2.synthesized (hfiles m hm p hp)

theorem yields_stageMember_entered {m : MemberDecl} (annotations : List Annotation) (hm : m ∈ c.members) (d : Draft) :
    Yields (stageMember m annotations) d fun r d' => ∀ s, r = some s → StagedEntered c d d' s := by
  unfold stageMember
  split
  · exact yields_reject
  · exact yields_stageDerived_entered _ hm d
  · exact yields_stageObservable_entered _ hm d
  · exact yields_none

/-- Staged values have taken their names, and stand for something declared or added. -/
structure AllEntered (c : ClassDecl) (d d' : Draft) (staged : List Staged) : Prop where
  takes : d.Takes d' (staged.flatMap Staged.takenNames)
  entries : d.Files c → ∀ s ∈ staged, s.recompute.isSome → Entry c s.origin s.name d'.members

theorem AllEntered.within {d d₁ d₂ d₃ : Draft} {staged : List Staged} (h : AllEntered c d₁ d₂ staged) (h₁ : d.Later d₁)
    (h₂ : d₂.Later d₃) : AllEntered c d d₃ staged :=
  ⟨h.takes.within h₁ h₂, fun hfiles s hs hrecompute => (h.entries (hfiles.later h₁) s hs hrecompute).later h₂⟩

theorem AllEntered.sublist {d d' : Draft} {staged kept : List Staged} (h : AllEntered c d d' staged)
    (hkept : kept.Sublist staged) : AllEntered c d d' kept :=
  ⟨h.takes.sublist (hkept.flatMap _), fun hfiles s hs => h.entries hfiles s (hkept.subset hs)⟩

theorem yields_stageAll_entered : ∀ (records : List (MemberDecl × List Annotation)) (d : Draft), Records c records →
    Yields (stageAll records) d fun staged d' => AllEntered c d d' staged
  | [], d, _ => ⟨.nil d d, fun _ => List.forall_mem_nil _⟩
  | (m, annotations) :: rest, d, hrecords => by
    obtain ⟨⟨hm, -⟩, hrest⟩ := List.forall_mem_cons.mp hrecords
    unfold stageAll
    refine ((yields_stageMember_entered annotations hm d).and_later (adds_stageMember m annotations)).bind
      fun result d₁ hresult => ?_
    obtain ⟨hs, h₁⟩ := hresult
    have hall := (yields_stageAll_entered rest d₁ hrest).and_later (adds_stageAll rest)
    split
    · refine hall.bind fun staged d₂ hstaged => ?_
      obtain ⟨hstaged, h₂⟩ := hstaged
      obtain ⟨htakes, hentry⟩ := hs _ rfl
      refine ⟨htakes.append hstaged.takes h₁ h₂, fun hfiles => List.forall_mem_cons.mpr ⟨fun hrecompute => ?_, ?_⟩⟩
      · exact (hentry hfiles hrecompute).later h₂
      · exact hstaged.entries (hfiles.later h₁)
    · exact hall.imp fun staged d₂ hstaged => hstaged.1.within h₁ (.refl d₂)

/-- Announcements take no names, and generate no getter. -/
theorem yields_mergeAll_entered (c : ClassDecl) {d₀ : Draft} (records : List (MemberDecl × List Annotation))
    (staged : List Staged) (d : Draft) (hall : AllEntered c d₀ d staged) :
    Yields (mergeAll c records staged) d fun staged' d' => AllEntered c d₀ d' staged' := by
  refine yields_mergeAll (P := fun staged d => AllEntered c d₀ d staged)
    (fun _ _ _ h hnoted => h.within (.refl d₀) hnoted.added.toLater) c ?_ records staged d hall
  intro m a source staged target d _ hall
  refine (yields_announce c m a source staged target d).imp fun staged' d' h => ?_
  obtain ⟨hnoted, h⟩ := h
  have hlater := hall.within (.refl d₀) hnoted.added.toLater
  obtain rfl | ⟨index, s, hs, -, -, rfl⟩ | ⟨id, info, -, -, -, -, rfl⟩ := h
  · exact hlater
  · refine ⟨?_, fun hfiles t ht hrecompute => ?_⟩
    · rw [List.flatMap_def,
        map_modify_of_eq (f := fun s : Staged => { s with sources := s.sources ++ [source] }) fun _ => rfl,
        ← List.flatMap_def]
      exact hlater.takes
    · obtain ⟨t', ht', heq⟩ := mem_of_mem_modify ht
      have hentry := hlater.entries hfiles t' ht'
      obtain rfl | rfl := heq <;> exact hentry hrecompute
  · refine ⟨?_, fun hfiles t ht hrecompute => ?_⟩
    · rw [List.flatMap_append]
      exact (List.append_nil _).symm ▸ hlater.takes
    · obtain ht | ht := List.mem_append.mp ht
      · exact hlater.entries hfiles t ht hrecompute
      · obtain rfl := List.mem_singleton.mp ht
        cases hrecompute

/-! ### Commands -/

theorem yields_command_takes (m : MemberDecl) (a : Annotation) (d : Draft) :
    Yields (command m a) d fun r d' => ∀ k, r = some k → d.Takes d' k.takenNames := by
  unfold command
  split
  · exact yields_reject
  · split
    · exact yields_reject
    · refine ((yields_claim_takes _ m.nameSpan d).and_later (notes_claim _ _).adds).bind fun earlier d₁ hproperty => ?_
      split
      · exact yields_reject
      · refine ((yields_claim_takes _ m.nameSpan d₁).and_later (notes_claim _ _).adds).bind fun existing d₂ hslot => ?_
        split
        · exact yields_reject
        · have htakes := (hproperty.1 rfl).append (hslot.1 rfl) hproperty.2 hslot.2
          dsimp only
          split
          · refine ((notes_bindEnablement _ _ _).yields d₂).bind fun enablement d₃ h₃ => ?_
            rintro k ⟨⟩
            exact htakes.within (.refl d) h₃
          · rintro k ⟨⟩
            exact htakes

/-- Commands take names of their own. -/
theorem yields_commands_takes : ∀ (records : List (MemberDecl × List Annotation)) (d : Draft),
    Yields (commands records) d fun ks d' => d.Takes d' (ks.flatMap CommandModel.takenNames)
  | [], d => .nil d d
  | (m, annotations) :: rest, d => by
    unfold commands
    split
    · exact yields_commands_takes rest d
    · rename_i a _
      refine ((yields_command_takes m a d).and_later (notes_command m a).adds).bind fun result d₁ hresult => ?_
      have hrest := (yields_commands_takes rest d₁).and_later (notes_commands rest).adds
      split
      · refine hrest.bind fun ks d₂ hks => ?_
        exact (hresult.1 _ rfl).append hks.1 hresult.2 hks.2
      · exact hrest.imp fun ks d₂ hks => hks.1.within hresult.2 (.refl d₂)

end Drafting

/-! ### Whole classes -/

namespace ClassModel

/-- The names that are taken for a class are all different, and none of them is declared.  What is generated for a
declared property stands for it. -/
structure Entered (c : ClassDecl) (m : ClassModel) : Prop where
  distinct : m.takenNames.Nodup
  undeclared : ∀ n ∈ m.takenNames, n ∉ c.names
  mutable : ∀ p ∈ m.mutableProperties, p.Declared c
  derived : ∀ d ∈ m.derived, d.recompute.isSome → Entry c d.origin d.name m.members

end ClassModel

/-- The names of a derived value are those of the staged one. -/
theorem DerivedProperty.Of.takenNames {statics : List HoistedFunction} {d : DerivedProperty} {s : Staged}
    (h : d.Of statics s) : d.takenNames = s.takenNames := by
  rw [DerivedProperty.takenNames, Staged.takenNames, h.origin, h.name, h.slot]

namespace Drafting

theorem yields_properties_takes (c : ClassDecl) :
    Yields (properties c) ⟨[], declaredNames c, []⟩ fun ps d =>
      Draft.Takes ⟨[], declaredNames c, []⟩ d (ps.flatMap MutableProperty.takenNames) ∧ (∀ p ∈ ps, p.Declared c) ∧
        d.Files c ∧ Draft.Later ⟨[], declaredNames c, []⟩ d := by
  unfold properties
  refine (yields_declareAll_files c.members ⟨[], declaredNames c, []⟩ nofun).bind fun _ d₁ h₁ => ?_
  obtain ⟨h₁, hfiles⟩ := h₁
  refine Yields.bind (Q := fun _ d₂ => d₁.Later d₂)
    ⟨List.prefix_rfl, List.prefix_rfl, List.prefix_append _ _, id⟩ fun _ d₂ h₂ => ?_
  refine ((yields_mutableProperties_takes _ d₂ (records_annotatedMembers c)).and
    (yields_mutableProperties_marked _ d₂)).imp fun ps d₃ h => ?_
  obtain ⟨⟨htakes, hdeclared⟩, hmarked⟩ := h
  have h₃ := hmarked.toLater
  have hfiles : d₁.Files c := hfiles
  exact ⟨htakes.within (h₁.trans h₂) (.refl d₃), hdeclared, hfiles.later (h₂.trans h₃), (h₁.trans h₂).trans h₃⟩

theorem yields_stagedSection_entered (c : ClassDecl) (d : Draft) :
    Yields (stagedSection c (annotatedMembers c).1) d fun staged d' => AllEntered c d d' staged :=
  (yields_stageAll_entered _ d (records_annotatedMembers c)).bind fun staged d₁ hall =>
    yields_mergeAll_entered c _ staged d₁ hall

theorem yields_derivedSection_entered (c : ClassDecl) (d : Draft) :
    Yields (derivedSection c (annotatedMembers c).1) d fun section_ d' =>
      d.Takes d' (section_.derived.flatMap DerivedProperty.takenNames) ∧ d.Later d' ∧ (d.Files c →
        ∀ e ∈ section_.derived, e.recompute.isSome → Entry c e.origin e.name d'.members) := by
  have hstaged := yields_stagedSection_entered c d
  have hlater := adds_stagedSection c (annotatedMembers c).1 d
  refine (yields_derivedSection c (annotatedMembers c).1 d).imp ?_
  rintro _ d' ⟨rfl, hnumbered, -⟩
  unfold Yields at hstaged
  generalize hsection : stagedSection c (annotatedMembers c).1 d = result at hstaged hlater hnumbered ⊢
  have hkept := (hstaged.sublist (Staged.acyclic_sublist _)).within (.refl d) hnumbered.toLater
  obtain ⟨ds, fs, hsection, hof, -⟩ := DerivedSection.ofStaged_eq (Staged.acyclic result.1)
  have hnames : ds.flatMap DerivedProperty.takenNames = (Staged.acyclic result.1).flatMap Staged.takenNames := by
    rw [List.flatMap_def, List.flatMap_def]
    congr 1
    refine List.forall₂_eq_eq_eq ▸ ?_
    rw [List.forall₂_map_left_iff, List.forall₂_map_right_iff]
    exact hof.imp fun _ _ h => h.takenNames
  rw [hsection, hnames]
  refine ⟨hkept.takes, hlater.toLater.trans hnumbered.toLater, fun hfiles e he hrecompute => ?_⟩
  obtain ⟨j, hj, rfl⟩ := List.getElem_of_mem he
  have hj' : j < (Staged.acyclic result.1).length := hof.length_eq ▸ hj
  have hej := hof.get hj hj'
  rw [List.get_eq_getElem, List.get_eq_getElem] at hej
  rw [hej.isSome_recompute] at hrecompute
  rw [hej.origin, hej.name]
  exact hkept.entries hfiles _ (List.getElem_mem hj') hrecompute

theorem yields_classModel_entered (s : DeclarationSet) (c : ClassDecl) :
    Yields (classModel s c) ⟨[], declaredNames c, []⟩ fun model _ => model.Entered c := by
  rw [classModel_eq]
  refine (yields_properties_takes c).bind fun ps d₁ h₁ => ?_
  obtain ⟨htakes₁, hdeclared, hfiles, h₁⟩ := h₁
  refine (yields_derivedSection_entered c d₁).bind fun section_ d₂ h₂ => ?_
  obtain ⟨htakes₂, h₂, hentries⟩ := h₂
  refine ((yields_commands_takes _ d₂).and_later (notes_commands _).adds).bind fun ks d₃ h₃ => ?_
  obtain ⟨htakes₃, h₃⟩ := h₃
  refine ((notes_localeGroups _ []).yields d₃).bind fun groups d₄ h₄ => ?_
  have htakes := (htakes₁.append htakes₂ h₁ h₂).append htakes₃ (h₁.trans h₂) h₃
  refine ⟨htakes.distinct, fun n hn hname => htakes.free n hn ?_, hdeclared, fun e he hrecompute => ?_⟩
  · show n ∈ (declaredNames c).map Prod.fst
    rwa [declaredNames, List.map_map]
  · exact (hentries hfiles e he hrecompute).later (h₃.trans h₄)

end Drafting

/-- The names that are taken for a class that is analyzed. -/
theorem entered_of_analyzeClass {s : DeclarationSet} {c : ClassDecl} {model : ClassModel}
    (h : (s.analyzeClass c).1 = some model) : model.Entered c := by
  unfold DeclarationSet.analyzeClass at h
  split at h
  · cases h
  · split at h
    · cases h
    · cases h
      exact Drafting.yields_classModel_entered s c

end Reactive
