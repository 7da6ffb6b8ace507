import Reactive.Proofs.Analyzing

/-!
# Reactive.Proofs.Silence — steps of the analysis that find nothing about names

Two findings are about names that are looked up among the properties of a class: a source that is no property, and a
property that is read and is no source.  All steps of the analysis are silent about such names, but for the one that
resolves the sources of a derived value and checks its reads, and for the announcements.

* `FindingCause.isLookup`: the two kinds of findings.
* `Drafting.Silent`: a step after which nothing more is known about names.
-/

namespace Reactive

/-- The finding is about a name that is looked up among the properties of a class. -/
def FindingCause.isLookup : FindingCause → Bool
  | .unknownSource .. | .undeclaredRead .. => true
  | _ => false

theorem FindingCause.not_isLookup_of_isUse {cause : FindingCause} (h : cause.isUse = true) : cause.isLookup = false := by
  cases cause <;> first | rfl | cases h

namespace Drafting

variable {α β : Type}

/-- Nothing is found about names. -/
def Silent (x : Drafting α) : Prop := ∀ d : Draft, ∀ f ∈ (x d).2.findings, f.cause.isLookup = true → f ∈ d.findings

theorem Silent.of_findings {x : Drafting α} (h : ∀ d : Draft, (x d).2.findings = d.findings) : Silent x :=
  fun d _ hf _ => h d ▸ hf

theorem Silent.bind {x : Drafting α} {f : α → Drafting β} (hx : Silent x) (hf : ∀ a, Silent (f a)) : Silent (x >>= f) :=
  fun d g hg hlookup => hx d g (hf _ _ g hg hlookup) hlookup

theorem silent_pure (a : α) : Silent (pure a : Drafting α) := .of_findings fun _ => rfl

theorem silent_get : Silent (get : Drafting Draft) := .of_findings fun _ => rfl

theorem silent_report {cause : FindingCause} (span : Span) (hcause : cause.isLookup = false) :
    Silent (report cause span) := by
  intro d f hf hlookup
  obtain hf | hf := List.mem_append.mp hf
  · exact hf
  · rw [List.mem_singleton.mp hf, hcause] at hlookup
    cases hlookup

theorem silent_reject {cause : FindingCause} (span : Span) (hcause : cause.isLookup = false) :
    Silent (reject cause span : Drafting (Option α)) := (silent_report span hcause).bind fun _ => silent_pure none

theorem silent_resolve (name : String) : Silent (resolve name) := .of_findings fun _ => rfl

theorem silent_claimAll (names : List String) (span : Span) : Silent (claimAll names span) := by
  refine .of_findings fun d => ?_
  obtain ⟨conflict, h⟩ | ⟨-, h⟩ := claimAll_cases names span d <;> rw [h]

theorem silent_claim (name : String) (span : Span) : Silent (claim name span) :=
  (silent_claimAll [name] span).bind fun _ => silent_pure _

theorem silent_addProperty (info : PropertyInfo) : Silent (addProperty info) := by
  refine .of_findings fun d => ?_
  obtain ⟨earlier, -, h⟩ | ⟨-, h⟩ := addProperty_cases info d <;> rw [h]

theorem silent_setRole (id : PropertyId) (role : PropertyRole) : Silent (setRole id role) := .of_findings fun _ => rfl

theorem silent_forM {γ : Type} {f : γ → Drafting PUnit} (h : ∀ x, Silent (f x)) : ∀ xs : List γ, Silent (xs.forM f)
  | [] => silent_pure _
  | x :: xs => (h x).bind fun _ => silent_forM h xs

/-! ### Declared and reactive properties -/

theorem silent_declare (m : MemberDecl) : Silent (declare m) := by
  unfold declare
  split
  · refine (silent_addProperty _).bind fun result => ?_
    split
    · exact silent_report _ rfl
    · exact silent_pure _
  · exact silent_pure _

theorem silent_mutableProperty (m : MemberDecl) (a : Annotation) : Silent (mutableProperty m a) := by
  unfold mutableProperty
  split
  · exact silent_reject _ rfl
  · split
    · exact silent_reject _ rfl
    · split
      · exact silent_reject _ rfl
      · refine silent_get.bind fun d => ?_
        dsimp only
        split
        · exact silent_pure _
        · split
          · exact silent_pure _
          · refine (silent_claimAll _ _).bind fun conflict => ?_
            split
            · exact silent_reject _ rfl
            · exact silent_pure _

theorem silent_mutableProperties : ∀ records : List (MemberDecl × List Annotation), Silent (mutableProperties records)
  | [] => silent_pure _
  | (m, annotations) :: rest => by
    have hrest := silent_mutableProperties rest
    unfold mutableProperties
    split
    · exact hrest
    · refine (silent_mutableProperty m _).bind fun result => ?_
      split
      · exact hrest
      · exact (silent_setRole _ _).bind fun _ => hrest.bind fun _ => silent_pure _

theorem silent_properties (c : ClassDecl) : Silent (properties c) := by
  unfold properties
  refine (silent_forM silent_declare c.members).bind fun _ => Silent.bind ?_ fun _ => silent_mutableProperties _
  intro d f hf hlookup
  obtain hf | hf := List.mem_append.mp hf
  · exact hf
  · rw [FindingCause.not_isLookup_of_isUse (isUse_of_annotatedMembers hf)] at hlookup
    cases hlookup

/-! ### Derived values -/

theorem silent_stagedBody (m : MemberDecl) (body : Expr) : Silent (stagedBody m body) := by
  unfold stagedBody
  split
  · split
    · exact silent_reject _ rfl
    · split
      · exact silent_reject _ rfl
      · exact silent_pure _
  · split
    · exact silent_reject _ rfl
    · exact silent_pure _

theorem silent_propertyTarget (m : MemberDecl) (p : PropertyDecl) (a : Annotation) (cache : CachePolicy) :
    Silent (propertyTarget m p a cache) := by
  unfold propertyTarget
  split
  · exact silent_reject _ rfl
  · split
    · exact silent_reject _ rfl
    · refine (silent_resolve _).bind fun id => ?_
      split
      · exact silent_pure _
      · split
        · refine (silent_stagedBody _ _).bind fun result => ?_
          split <;> exact silent_pure _
        · split
          · exact silent_reject _ rfl
          · exact silent_pure _

theorem silent_methodTarget (m : MemberDecl) (decl : MethodDecl) (a : Annotation) : Silent (methodTarget m decl a) := by
  unfold methodTarget
  split
  · exact silent_reject _ rfl
  · split
    · exact silent_reject _ rfl
    · split
      · exact silent_reject _ rfl
      · refine (silent_claim _ _).bind fun owner => ?_
        split
        · exact silent_reject _ rfl
        · refine (silent_addProperty _).bind fun result => ?_
          split
          · exact silent_reject _ rfl
          · exact silent_pure _

theorem silent_derivedTarget (m : MemberDecl) (a : Annotation) (cache : CachePolicy) :
    Silent (derivedTarget m a cache) := by
  unfold derivedTarget
  split
  · exact silent_propertyTarget _ _ _ _
  · exact silent_methodTarget _ _ _

theorem silent_cacheSlot (m : MemberDecl) (name : String) (cache : CachePolicy) : Silent (cacheSlot m name cache) := by
  unfold cacheSlot
  split
  · exact silent_pure _
  · refine (silent_claimAll _ _).bind fun conflict => ?_
    split
    · exact silent_reject _ rfl
    · exact silent_pure _

theorem silent_claimFunction (m : MemberDecl) (name : String) (recompute : Option StagedRecompute) :
    Silent (claimFunction m name recompute) := by
  unfold claimFunction
  split
  · refine (silent_claim _ _).bind fun existing => ?_
    split
    · exact (silent_report _ rfl).bind fun _ => silent_pure _
    · exact silent_pure _
  · exact silent_pure _

theorem silent_stageObservable (m : MemberDecl) (a : Annotation) : Silent (stageObservable m a) := by
  unfold stageObservable
  split
  · exact silent_reject _ rfl
  · split
    · exact silent_reject _ rfl
    · exact silent_reject _ rfl
    · split
      · exact silent_reject _ rfl
      · refine (silent_resolve _).bind fun id => ?_
        split
        · exact silent_pure _
        · refine (silent_claim _ _).bind fun existing => ?_
          split
          · exact silent_reject _ rfl
          · exact silent_pure _

/-! ### Cycles and numbers -/

theorem silent_forIn_report {γ : Type} {find : γ → Option Finding}
    (hfind : ∀ x f, find x = some f → f.cause.isLookup = false) (xs : List γ) :
    Silent (forIn xs PUnit.unit fun x _ =>
      match find x with
      | some finding => do
        report finding.cause finding.span
        pure (ForInStep.yield PUnit.unit)
      | _ => pure (ForInStep.yield PUnit.unit) : Drafting PUnit) := by
  intro d f hf hlookup
  have hfindings := congrArg (fun r => f ∈ r.2.findings) (forIn_report find xs d)
  obtain hf | hf := List.mem_append.mp (hfindings.mp hf)
  · exact hf
  · obtain ⟨x, -, hx⟩ := List.mem_filterMap.mp hf
    rw [hfind x f hx] at hlookup
    cases hlookup

theorem silent_setDerivedRoles : ∀ (staged : List Staged) (id : DerivedId), Silent (setDerivedRoles id staged)
  | [], _ => silent_pure _
  | _ :: rest, id => (silent_setRole _ _).bind fun _ => silent_setDerivedRoles rest (id + 1)

theorem isLookup_of_cycleFinding {staged : List Staged} {cycle : List Nat} {f : Finding}
    (h : Staged.cycleFinding staged cycle = some f) : f.cause.isLookup = false := by
  unfold Staged.cycleFinding at h
  obtain ⟨first, -, h⟩ := Option.bind_eq_some_iff.mp h
  cases h
  rfl

/-- Once values are staged, nothing more is found about names. -/
theorem yields_derivedSection_silent (c : ClassDecl) (records : List (MemberDecl × List Annotation)) (d : Draft) :
    Yields (derivedSection c records) d fun _ d' =>
      ∀ f ∈ d'.findings, f.cause.isLookup = true → f ∈ (stagedSection c records d).2.findings := by
  unfold derivedSection
  rw [← bind_assoc]
  refine Yields.bind (Q := fun _ d₁ => (stagedSection c records d).2 = d₁) rfl ?_
  rintro staged _ rfl
  refine Silent.bind (f := fun _ => setDerivedRoles 0 (Staged.acyclic staged) >>= fun _ =>
    pure (DerivedSection.ofStaged (Staged.acyclic staged))) ?_ (fun _ => ?_) _
  · exact silent_forIn_report (fun _ _ => isLookup_of_cycleFinding) _
  · exact (silent_setDerivedRoles _ 0).bind fun _ => silent_pure _

/-! ### Commands and locale bindings -/

theorem silent_bindEnablement (command : String) (a : Annotation) (name : String) :
    Silent (bindEnablement command a name) := by
  refine silent_get.bind fun d => ?_
  dsimp only
  split
  · split
    · exact silent_reject _ rfl
    · split
      · exact silent_reject _ rfl
      · exact silent_pure _
  · exact silent_reject _ rfl

theorem silent_command (m : MemberDecl) (a : Annotation) : Silent (command m a) := by
  unfold command
  split
  · exact silent_reject _ rfl
  · split
    · exact silent_reject _ rfl
    · refine (silent_claim _ _).bind fun earlier => ?_
      split
      · exact silent_reject _ rfl
      · refine (silent_claim _ _).bind fun existing => ?_
        split
        · exact silent_reject _ rfl
        · dsimp only
          split
          · exact (silent_bindEnablement _ _ _).bind fun _ => silent_pure _
          · exact silent_pure _

theorem silent_commands : ∀ records : List (MemberDecl × List Annotation), Silent (commands records)
  | [] => silent_pure _
  | (m, annotations) :: rest => by
    have hrest := silent_commands rest
    unfold commands
    split
    · exact hrest
    · refine (silent_command m _).bind fun result => ?_
      split
      · exact hrest.bind fun _ => silent_pure _
      · exact hrest

theorem silent_localeBinding (m : MemberDecl) (a : Annotation) : Silent (localeBinding m a) := by
  unfold localeBinding
  split
  · exact silent_reject _ rfl
  · split
    · exact silent_reject _ rfl
    · split
      · refine (silent_resolve _).bind fun key => ?_
        split
        · exact silent_reject _ rfl
        · refine (silent_resolve _).bind fun target => ?_
          split <;> exact silent_pure _
      · exact silent_reject _ rfl

theorem silent_localeGroups : ∀ (records : List (MemberDecl × List Annotation)) (groups : List LocaleGroup),
    Silent (localeGroups records groups)
  | [], _ => silent_pure _
  | (m, annotations) :: rest, groups => by
    unfold localeGroups
    split
    · exact silent_localeGroups rest groups
    · refine (silent_localeBinding m _).bind fun result => ?_
      split <;> exact silent_localeGroups rest _

end Drafting

end Reactive
