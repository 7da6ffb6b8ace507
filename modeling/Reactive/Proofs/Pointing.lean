import Mathlib.Tactic.Common
import Reactive.Diagnostic
import Reactive.Proofs.Drafting
import Reactive.Proofs.Sites

/-!
# Reactive.Proofs.Pointing — findings point at declarations

The analysis makes no spans of its own: every place in a finding, and the place of every model, is a span of the class
that is analyzed, a generated member having the place of what it is generated for.

* `Expr.exists_node_of_read`: a read of a member has the span of a node of the expression.
* `Finding.Sited P`: the places of all labels of a finding have the property `P`.
* `Drafting.Sited P V x`: a step that finds only such things and notes only such places; a lemma for each step.
* `DeclarationSet.sited_analyze`: what is found in a file, and the models of its classes.
-/

namespace Reactive

variable {P : Span → Prop}

/-! ### Reads -/

namespace Expr

/-- A member access is a read itself, or its object has the reads. -/
theorem read_of_member {bound : List String} {o : Expr} {n : String} {s : Span} {r : Read}
    (h : r ∈ (member o n s).readsIn bound) : r = ⟨n, s⟩ ∨ r ∈ o.readsIn bound := by
  cases o with
  | this s' => exact .inl (List.mem_singleton.mp h)
  | name x s' =>
    rw [readsIn] at h
    split at h
    · exact .inl (List.mem_singleton.mp h)
    · exact .inr h
  | _ => exact .inr h

theorem exists_node_of_subset {ns ns' : List Expr} {s : Span} (h : ∃ n ∈ ns, n.span = s) (hsub : ns ⊆ ns') :
    ∃ n ∈ ns', n.span = s :=
  h.imp fun _ hn => ⟨hsub hn.1, hn.2⟩

mutual

/-- A read of a member has the span of a node. -/
theorem exists_node_of_read (bound : List String) (e : Expr) :
    ∀ r ∈ e.readsIn bound, ∃ n ∈ e.nodes, n.span = r.span := by
  intro r hr
  cases e with
  | literal v s => simp [readsIn] at hr
  | this s => simp [readsIn] at hr
  | name n s =>
    rw [readsIn] at hr
    split at hr
    · cases hr
    · rw [List.mem_singleton.mp hr]
      exact ⟨name n s, List.mem_cons_self, rfl⟩
  | member o n s =>
    obtain rfl | hr := read_of_member hr
    · exact ⟨member o n s, List.mem_cons_self, rfl⟩
    · exact exists_node_of_subset (exists_node_of_read bound o r hr) (List.subset_cons_self _ _)
  | call c args s =>
    rw [readsIn] at hr
    refine exists_node_of_subset ?_ (List.subset_cons_self _ (nodes c ++ nodesList args))
    obtain hr | hr := List.mem_append.mp hr
    · split at hr
      · cases hr
      · exact exists_node_of_subset (exists_node_of_read bound c r hr) (List.subset_append_left _ _)
    · exact exists_node_of_subset (exists_node_of_readAll bound args r hr) (List.subset_append_right _ _)
  | unary op o s => exact exists_node_of_subset (exists_node_of_read bound o r hr) (List.subset_cons_self _ _)
  | binary op a b s =>
    rw [readsIn] at hr
    refine exists_node_of_subset ?_ (List.subset_cons_self _ (nodes a ++ nodes b))
    obtain hr | hr := List.mem_append.mp hr
    · exact exists_node_of_subset (exists_node_of_read bound a r hr) (List.subset_append_left _ _)
    · exact exists_node_of_subset (exists_node_of_read bound b r hr) (List.subset_append_right _ _)
  | conditional a b c s =>
    rw [readsIn] at hr
    refine exists_node_of_subset ?_ (List.subset_cons_self _ (nodes a ++ nodes b ++ nodes c))
    obtain hr | hr := List.mem_append.mp hr
    · refine exists_node_of_subset ?_ (List.subset_append_left _ _)
      obtain hr | hr := List.mem_append.mp hr
      · exact exists_node_of_subset (exists_node_of_read bound a r hr) (List.subset_append_left _ _)
      · exact exists_node_of_subset (exists_node_of_read bound b r hr) (List.subset_append_right _ _)
    · exact exists_node_of_subset (exists_node_of_read bound c r hr) (List.subset_append_right _ _)
  | lambda st p b s => exact exists_node_of_subset (exists_node_of_read (p :: bound) b r hr) (List.subset_cons_self _ _)

theorem exists_node_of_readAll (bound : List String) (es : List Expr) :
    ∀ r ∈ readsInAll bound es, ∃ n ∈ nodesList es, n.span = r.span := by
  intro r hr
  cases es with
  | nil => cases hr
  | cons e es =>
    rw [readsInAll] at hr
    obtain hr | hr := List.mem_append.mp hr
    · exact exists_node_of_subset (exists_node_of_read bound e r hr) (List.subset_append_left _ _)
    · exact exists_node_of_subset (exists_node_of_readAll bound es r hr) (List.subset_append_right _ _)

end

theorem Sited.reads {e : Expr} (h : e.Sited P) : ∀ r ∈ e.memberReads, P r.span := by
  intro r hr
  obtain ⟨node, hnode, hspan⟩ := exists_node_of_read [] e r hr
  exact hspan ▸ h node hnode

end Expr

/-! ### Findings and drafts -/

/-- The places of all labels of a finding have the property. -/
structure Finding.Sited (P : Span → Prop) (f : Finding) : Prop where
  span : P f.span
  others : ∀ l ∈ f.secondaryLabels, P l.1

/-- The places in a draft have the property. -/
structure Draft.Sited (P : Span → Prop) (d : Draft) : Prop where
  members : ∀ i ∈ d.members, P i.span
  taken : ∀ t ∈ d.taken, P t.2
  findings : ∀ f ∈ d.findings, f.Sited P

/-- A finding without other places. -/
theorem sited_plain {cause : FindingCause} {span : Span} (hspan : P span)
    (hcause : (⟨cause, span⟩ : Finding).secondaryLabels = []) : Finding.Sited P ⟨cause, span⟩ :=
  ⟨hspan, by rw [hcause]; exact List.forall_mem_nil _⟩

/-- A finding with one other place. -/
theorem sited_pair {cause : FindingCause} {span other : Span} {text : String} (hspan : P span) (hother : P other)
    (hcause : (⟨cause, span⟩ : Finding).secondaryLabels = [(other, text)]) : Finding.Sited P ⟨cause, span⟩ :=
  ⟨hspan, by rw [hcause]; exact List.forall_mem_singleton.mpr hother⟩

namespace Drafting

variable {α β : Type} {V : α → Prop} {W : β → Prop} {x : Drafting α} {f : α → Drafting β}

/-- From a draft all places of which have the property a step makes another one, and its value has `V`. -/
def Sited (P : Span → Prop) (V : α → Prop) (x : Drafting α) : Prop :=
  ∀ d : Draft, d.Sited P → V (x d).1 ∧ (x d).2.Sited P

/-- Anything may be the value. -/
abbrev Any (_ : α) : Prop := True

theorem Sited.bind (hx : Sited P V x) (hf : ∀ a, V a → Sited P W (f a)) : Sited P W (x >>= f) :=
  fun d hd => hf _ (hx d hd).1 _ (hx d hd).2

theorem sited_pure {a : α} (ha : V a) : Sited P V (pure a) := fun _ hd => ⟨ha, hd⟩

theorem sited_any (a : α) : Sited P Any (pure a) := sited_pure trivial

theorem sited_get : Sited P (Draft.Sited P) (get : Drafting Draft) := fun _ hd => ⟨hd, hd⟩

theorem sited_report {cause : FindingCause} {span : Span} (h : Finding.Sited P ⟨cause, span⟩) :
    Sited P Any (report cause span) := fun _ hd =>
  ⟨trivial, hd.members, hd.taken, List.forall_mem_append.mpr ⟨hd.findings, List.forall_mem_singleton.mpr h⟩⟩

/-- A step that finds something and gives nothing. -/
theorem sited_reject {cause : FindingCause} {span : Span} (h : Finding.Sited P ⟨cause, span⟩) :
    Sited P (fun o => ∀ a ∈ o, V a) (reject cause span : Drafting (Option α)) :=
  (sited_report h).bind fun _ _ => sited_pure forall_mem_none

/-- A step that finds something, whatever its value may be. -/
theorem sited_refuse {cause : FindingCause} {span : Span} (h : Finding.Sited P ⟨cause, span⟩) :
    Sited P Any (reject cause span : Drafting (Option α)) :=
  (sited_report h).bind fun _ _ => sited_any none

theorem sited_resolve (name : String) : Sited P Any (resolve name) := sited_get.bind fun _ _ => sited_any _

theorem mem_of_lookup {κ γ : Type} [BEq κ] [LawfulBEq κ] {entries : List (κ × γ)} {k : κ} {v : γ}
    (h : entries.lookup k = some v) : (k, v) ∈ entries := by
  obtain ⟨before, rest, rfl, -⟩ := List.lookup_eq_some_iff.mp h
  simp

theorem sited_claimAll (names : List String) {span : Span} (hspan : P span) :
    Sited P (fun o => ∀ conflict ∈ o, P conflict.2) (claimAll names span) := by
  intro d hd
  unfold claimAll
  rw [run_get_bind]
  cases h : names.findSome? (fun n => (d.taken.lookup n).map fun owner => (n, owner)) with
  | some conflict =>
    obtain ⟨n, -, hn⟩ := List.exists_of_findSome?_eq_some h
    obtain ⟨owner, howner, rfl⟩ := Option.map_eq_some_iff.mp hn
    exact ⟨forall_mem_some (hd.taken _ (mem_of_lookup howner)), hd⟩
  | none =>
    refine ⟨forall_mem_none, hd.members, List.forall_mem_append.mpr ⟨hd.taken, ?_⟩, hd.findings⟩
    intro t ht
    obtain ⟨n, -, rfl⟩ := List.mem_map.mp ht
    exact hspan

theorem sited_claim (name : String) {span : Span} (hspan : P span) :
    Sited P (fun o => ∀ owner ∈ o, P owner) (claim name span) := by
  refine (sited_claimAll [name] hspan).bind fun conflict hconflict => sited_pure ?_
  intro owner howner
  obtain ⟨pair, hpair, rfl⟩ := Option.map_eq_some_iff.mp howner
  exact hconflict pair hpair

theorem sited_addProperty (info : PropertyInfo) (h : P info.span) :
    Sited P (fun r => ∀ earlier, r = .error earlier → P earlier) (addProperty info) := by
  intro d hd
  obtain ⟨earlier, hearlier, hrun⟩ | ⟨-, hrun⟩ := addProperty_cases info d
  · rw [hrun]
    refine ⟨?_, hd⟩
    rintro _ ⟨⟩
    exact hd.members earlier (List.mem_of_find?_eq_some hearlier)
  · rw [hrun]
    exact ⟨nofun, List.forall_mem_append.mpr ⟨hd.members, List.forall_mem_singleton.mpr h⟩, hd.taken, hd.findings⟩

theorem sited_setRole (id : PropertyId) (role : PropertyRole) : Sited P Any (setRole id role) := by
  refine fun d hd => ⟨trivial, fun i hi => ?_, hd.taken, hd.findings⟩
  obtain ⟨j, hj, heq | heq⟩ := mem_setRole hi <;> rw [heq] <;> exact hd.members j hj

theorem sited_forM {γ : Type} {g : γ → Drafting PUnit} : ∀ {xs : List γ}, (∀ x ∈ xs, Sited P Any (g x)) →
    Sited P Any (xs.forM g)
  | [], _ => sited_any _
  | x :: _, h => (h x List.mem_cons_self).bind fun _ _ => sited_forM fun y hy => h y (List.mem_cons_of_mem x hy)

/-! ### Declared and reactive properties -/

variable {m : MemberDecl} {a : Annotation} {c : ClassDecl}

/-- Members and their annotations. -/
abbrev SitedRecords (P : Span → Prop) (records : List (MemberDecl × List Annotation)) : Prop :=
  ∀ r ∈ records, r.1.Sited P ∧ ∀ a ∈ r.2, P a.span

/-- The annotation of a kind. -/
theorem span_of_findKind {kind : AnnotationKind} {annotations : List Annotation} (h : ∀ a ∈ annotations, P a.span)
    (ha : findKind kind annotations = some a) : P a.span := h a (List.mem_of_find?_eq_some ha)

theorem property_sited {p : PropertyDecl} (hm : m.Sited P) (hp : m.kind = .property p) : p.Sited P := by
  have hkind := hm.kind
  rwa [hp] at hkind

theorem method_sited {d : MethodDecl} (hm : m.Sited P) (hd : m.kind = .method d) : d.Sited P := by
  have hkind := hm.kind
  rwa [hd] at hkind

theorem sited_declare (hm : m.Sited P) : Sited P Any (declare m) := by
  unfold declare
  split
  · rename_i p hp
    have hadd := sited_addProperty (P := P)
      ⟨m.name, p.type, p.setter.isSome, .plain, false, accessibility m.modifiers, m.nameSpan⟩ hm.nameSpan
    refine hadd.bind fun result h => ?_
    split
    · rename_i earlier
      exact sited_report (sited_pair hm.nameSpan (h earlier rfl) rfl)
    · exact sited_any _
  · exact sited_any _

theorem sited_mutableProperty (hm : m.Sited P) (ha : P a.span) : Sited P Any (mutableProperty m a) := by
  unfold mutableProperty
  split
  · exact sited_refuse (sited_plain ha rfl)
  · split
    · exact sited_refuse (sited_plain hm.nameSpan rfl)
    · split
      · exact sited_refuse (sited_plain hm.nameSpan rfl)
      · refine sited_get.bind fun d _ => ?_
        dsimp only
        split
        · exact sited_any _
        · split
          · exact sited_any _
          · refine (sited_claimAll _ hm.nameSpan).bind fun conflict h => ?_
            split
            · rename_i name existing
              exact sited_refuse (sited_pair hm.nameSpan (h _ rfl) rfl)
            · exact sited_any _

theorem sited_mutableProperties : ∀ {records : List (MemberDecl × List Annotation)}, SitedRecords P records →
    Sited P Any (mutableProperties records)
  | [], _ => sited_any _
  | (m, annotations) :: rest, h => by
    obtain ⟨⟨hm, hannotations⟩, hrecords⟩ := List.forall_mem_cons.mp h
    have hrest := sited_mutableProperties hrecords
    unfold mutableProperties
    split
    · exact hrest
    · rename_i a ha
      refine (sited_mutableProperty hm (span_of_findKind hannotations ha)).bind fun result _ => ?_
      split
      · exact hrest
      · exact (sited_setRole _ _).bind fun _ _ => hrest.bind fun _ _ => sited_any _

/-! ### Derived values -/

/-- What is found about a body. -/
theorem sited_rejectBody (hm : m.Sited P) (issue : BodyIssue) :
    Sited P (fun o => ∀ a ∈ o, V a) (rejectBody m issue : Drafting (Option α)) :=
  sited_reject (sited_plain hm.nameSpan rfl)

theorem sited_rejectArguments (m : MemberDecl) (ha : P a.span) (issue : ArgumentIssue) :
    Sited P (fun o => ∀ a ∈ o, V a) (rejectArguments m a issue : Drafting (Option α)) :=
  sited_reject (sited_plain ha rfl)

theorem sited_stagedBody (hm : m.Sited P) (body : Expr) : Sited P Any (stagedBody m body) := by
  unfold stagedBody
  split
  · split
    · exact sited_refuse (sited_plain hm.nameSpan rfl)
    · split
      · exact sited_refuse (sited_plain hm.nameSpan rfl)
      · exact sited_any _
  · split
    · exact sited_refuse (sited_plain hm.nameSpan rfl)
    · exact sited_any _

/-- The places of the reads of a derived value. -/
abbrev Target.Sited (P : Span → Prop) (t : Target) : Prop := ∀ r ∈ t.reads, P r.span

theorem sited_propertyTarget {p : PropertyDecl} (hm : m.Sited P) (hp : p.Sited P) (ha : P a.span)
    (cache : CachePolicy) : Sited P (fun o => ∀ t ∈ o, Target.Sited P t) (propertyTarget m p a cache) := by
  unfold propertyTarget
  split
  · exact sited_rejectArguments m ha _
  · split
    · rename_i setter hsetter
      exact sited_reject (sited_pair hm.nameSpan (hp.setter setter hsetter).span rfl)
    · refine (sited_resolve _).bind fun id _ => ?_
      split
      · exact sited_pure forall_mem_none
      · split
        · rename_i body hbody
          obtain ⟨getter, hgetter, hbody⟩ := Option.bind_eq_some_iff.mp hbody
          have hreads := ((hp.getter getter hgetter).body body hbody).reads
          refine (sited_stagedBody hm body).bind fun result _ => ?_
          split
          · exact sited_pure (forall_mem_some hreads)
          · exact sited_pure forall_mem_none
        · split
          · exact sited_reject (sited_plain hm.nameSpan rfl)
          · exact sited_pure (forall_mem_some (List.forall_mem_nil _))

theorem sited_methodTarget {d : MethodDecl} (hm : m.Sited P) (hd : d.Sited P) (ha : P a.span) :
    Sited P (fun o => ∀ t ∈ o, Target.Sited P t) (methodTarget m d a) := by
  unfold methodTarget
  split
  · exact sited_rejectArguments m ha _
  · split
    · exact sited_rejectBody hm _
    · split
      · exact sited_rejectBody hm _
      · refine (sited_claim _ ha).bind fun owner howner => ?_
        split
        · rename_i earlier
          exact sited_reject (sited_pair ha (howner earlier rfl) rfl)
        · refine (sited_addProperty _ ha).bind fun result hresult => ?_
          split
          · rename_i earlier
            exact sited_reject (sited_pair ha (hresult earlier rfl) rfl)
          · refine sited_pure (forall_mem_some ?_)
            intro r hr
            cases hbody : d.body with
            | none =>
              rw [hbody] at hr
              cases hr
            | some body =>
              rw [hbody] at hr
              exact (hd.body body hbody).reads r hr

theorem sited_cacheSlot (hm : m.Sited P) (name : String) (cache : CachePolicy) :
    Sited P Any (cacheSlot m name cache) := by
  unfold cacheSlot
  split
  · exact sited_any _
  · refine (sited_claimAll _ hm.nameSpan).bind fun conflict h => ?_
    split
    · exact sited_refuse (sited_pair hm.nameSpan (h _ rfl) rfl)
    · exact sited_any _

theorem sited_claimFunction (hm : m.Sited P) (name : String) (recompute : Option StagedRecompute) :
    Sited P Any (claimFunction m name recompute) := by
  unfold claimFunction
  split
  · refine (sited_claim _ hm.nameSpan).bind fun existing h => ?_
    split
    · exact (sited_report (sited_pair hm.nameSpan (h _ rfl) rfl)).bind fun _ _ => sited_any _
    · exact sited_any _
  · exact sited_any _

theorem sited_resolveSources (name : String) (ha : P a.span) : ∀ (declared : List String) (sources : List PropertyId),
    Sited P Any (resolveSources name a declared sources)
  | [], _ => sited_any _
  | source :: rest, sources => by
    refine (sited_resolve source).bind fun id _ => ?_
    split
    · exact sited_resolveSources name ha rest _
    · exact (sited_report (sited_plain ha rfl)).bind fun _ _ => sited_resolveSources name ha rest sources

theorem sited_checkReads (name : String) (declared : List String) : ∀ {reads : List Expr.Read},
    (∀ r ∈ reads, P r.span) → Sited P Any (checkReads name declared reads)
  | [], _ => sited_any _
  | read :: rest, h => by
    obtain ⟨hread, hreads⟩ := List.forall_mem_cons.mp h
    have hrest := sited_checkReads name declared hreads
    unfold checkReads
    split
    · exact hrest
    · refine (sited_resolve read.name).bind fun id _ => ?_
      split
      · exact (sited_report (sited_plain hread rfl)).bind fun _ _ => hrest
      · exact hrest

/-- The place of a staged value that there may be. -/
abbrev SitedStaged (P : Span → Prop) (o : Option Staged) : Prop := ∀ s ∈ o, P s.span

theorem sited_stageTarget {t : Target} (hm : m.Sited P) (ha : P a.span) (ht : Target.Sited P t) (cache : CachePolicy)
    (notifies : Bool) : Sited P (SitedStaged P) (stageTarget m a cache notifies t) := by
  unfold stageTarget
  refine (sited_cacheSlot hm _ _).bind fun slot _ => ?_
  split
  · exact sited_pure forall_mem_none
  · refine (sited_claimFunction hm _ _).bind fun free _ => ?_
    split
    · exact sited_pure forall_mem_none
    · refine (sited_resolveSources _ ha _ _).bind fun sources _ => (sited_checkReads _ _ ht).bind fun _ _ => ?_
      exact sited_pure (forall_mem_some hm.nameSpan)

theorem sited_derivedTarget (hm : m.Sited P) (ha : P a.span) (cache : CachePolicy) :
    Sited P (fun o => ∀ t ∈ o, Target.Sited P t) (derivedTarget m a cache) := by
  unfold derivedTarget
  split
  · rename_i p hp
    exact sited_propertyTarget hm (property_sited hm hp) ha cache
  · rename_i d hd
    exact sited_methodTarget hm (method_sited hm hd) ha

theorem sited_stageDerived (hm : m.Sited P) (ha : P a.span) : Sited P (SitedStaged P) (stageDerived m a) := by
  obtain ⟨cache, notifies, ignored, heq⟩ := stageDerived_eq m a
  rw [heq]
  refine (sited_derivedTarget hm ha cache).bind fun target htarget => ?_
  split
  · exact sited_pure forall_mem_none
  · have hstage := sited_stageTarget hm ha (htarget _ rfl) cache notifies
    split
    · exact (sited_report (sited_plain ha rfl)).bind fun _ _ => hstage
    · exact hstage

theorem sited_stageObservable (hm : m.Sited P) (ha : P a.span) : Sited P (SitedStaged P) (stageObservable m a) := by
  unfold stageObservable
  split
  · exact sited_rejectArguments m ha _
  · rename_i p hp
    split
    · rename_i setter hsetter
      exact sited_reject (sited_pair hm.nameSpan ((property_sited hm hp).setter setter hsetter).span rfl)
    · exact sited_reject (sited_plain hm.nameSpan rfl)
    · split
      · exact sited_rejectBody hm _
      · refine (sited_resolve _).bind fun id _ => ?_
        split
        · exact sited_pure forall_mem_none
        · refine (sited_claim _ hm.nameSpan).bind fun existing h => ?_
          split
          · exact sited_reject (sited_pair hm.nameSpan (h _ rfl) rfl)
          · exact sited_pure (forall_mem_some hm.nameSpan)

theorem sited_stageMember {annotations : List Annotation} (hm : m.Sited P) (h : ∀ a ∈ annotations, P a.span) :
    Sited P (SitedStaged P) (stageMember m annotations) := by
  unfold stageMember
  split
  · rename_i a _ ha
    exact sited_rejectArguments m (span_of_findKind h ha) _
  · rename_i a ha _
    exact sited_stageDerived hm (span_of_findKind h ha)
  · rename_i a _ ha
    exact sited_stageObservable hm (span_of_findKind h ha)
  · exact sited_pure forall_mem_none

theorem sited_stageAll : ∀ {records : List (MemberDecl × List Annotation)}, SitedRecords P records →
    Sited P (fun staged => ∀ s ∈ staged, P s.span) (stageAll records)
  | [], _ => sited_pure (List.forall_mem_nil _)
  | (m, annotations) :: rest, h => by
    obtain ⟨⟨hm, hannotations⟩, hrecords⟩ := List.forall_mem_cons.mp h
    have hrest := sited_stageAll hrecords
    unfold stageAll
    refine (sited_stageMember hm hannotations).bind fun result hresult => ?_
    split
    · exact hrest.bind fun staged hstaged => sited_pure (List.forall_mem_cons.mpr ⟨hresult _ rfl, hstaged⟩)
    · exact hrest

/-! ### Announcements -/

theorem span_of_setterSpan? (hc : ∀ m ∈ c.members, m.Sited P) {name : String} {s : Span}
    (h : setterSpan? c name = some s) : P s := by
  obtain ⟨m, hm, h⟩ := Option.bind_eq_some_iff.mp h
  obtain ⟨p, hp, h⟩ := Option.bind_eq_some_iff.mp h
  obtain ⟨setter, hsetter, h⟩ := Option.bind_eq_some_iff.mp h
  cases h
  have hkind : m.kind = .property p := by
    unfold MemberDecl.property? at hp
    split at hp
    · rename_i hkind
      cases hp
      exact hkind
    · cases hp
  exact ((property_sited (hc m (List.mem_of_find?_eq_some hm)) hkind).setter setter hsetter).span

theorem sited_announce (hc : ∀ m ∈ c.members, m.Sited P) (m : MemberDecl) (ha : P a.span) (source : PropertyId)
    {staged : List Staged} (hstaged : ∀ s ∈ staged, P s.span) (target : String) :
    Sited P (fun staged => ∀ s ∈ staged, P s.span) (announce c m a source staged target) := by
  unfold announce
  refine sited_get.bind fun d hd => ?_
  dsimp only
  split
  · exact (sited_report (sited_plain ha rfl)).bind fun _ _ => sited_pure hstaged
  · split
    · split
      · exact (sited_report (sited_plain ha rfl)).bind fun _ _ => sited_pure hstaged
      · split
        · exact sited_pure hstaged
        · refine sited_pure fun s hs => ?_
          obtain ⟨j, hj, heq | heq⟩ := mem_of_mem_modify hs <;> rw [heq] <;> exact hstaged j hj
    · split
      · exact sited_pure hstaged
      · rename_i info hinfo
        have hspan : P info.span := hd.members info (List.mem_of_find?_eq_some hinfo)
        split
        · have hsetter : P ((setterSpan? c target).getD info.span) := by
            cases h : setterSpan? c target with
            | none => exact hspan
            | some s => exact span_of_setterSpan? hc h
          exact (sited_report (sited_pair ha hsetter rfl)).bind fun _ _ => sited_pure hstaged
        · exact sited_pure (List.forall_mem_append.mpr ⟨hstaged, List.forall_mem_singleton.mpr hspan⟩)

theorem sited_foldlM {γ : Type} {g : β → γ → Drafting β} (h : ∀ b x, W b → Sited P W (g b x)) :
    ∀ (xs : List γ) {b : β}, W b → Sited P W (xs.foldlM g b)
  | [], _, hb => sited_pure hb
  | x :: xs, b, hb => by
    rw [List.foldlM_cons]
    exact (h b x hb).bind fun b' hb' => sited_foldlM h xs hb'

theorem sited_mergeAnnouncements (hc : ∀ m ∈ c.members, m.Sited P) (m : MemberDecl) (ha : P a.span)
    {staged : List Staged} (hstaged : ∀ s ∈ staged, P s.span) :
    Sited P (fun staged => ∀ s ∈ staged, P s.span) (mergeAnnouncements c m a staged) := by
  have hreport : Sited P (fun staged => ∀ s ∈ staged, P s.span) (do
      report (.invalidArguments a.kind.text m.name (.propertiesOnly .notifyFor)) a.span
      return staged : Drafting (List Staged)) :=
    (sited_report (sited_plain ha rfl)).bind fun _ _ => sited_pure hstaged
  unfold mergeAnnouncements
  split
  · refine (sited_resolve m.name).bind fun source _ => ?_
    cases source with
    | none => exact hreport
    | some id => exact sited_foldlM (fun staged target h => sited_announce hc m ha _ h target) _ hstaged
  · rw [pure_bind]
    exact hreport

theorem sited_mergeAll (hc : ∀ m ∈ c.members, m.Sited P) : ∀ {records : List (MemberDecl × List Annotation)},
    SitedRecords P records → ∀ {staged : List Staged}, (∀ s ∈ staged, P s.span) →
      Sited P (fun staged => ∀ s ∈ staged, P s.span) (mergeAll c records staged)
  | [], _, _, hstaged => sited_pure hstaged
  | (m, annotations) :: rest, h, staged, hstaged => by
    obtain ⟨⟨-, hannotations⟩, hrecords⟩ := List.forall_mem_cons.mp h
    unfold mergeAll
    split
    · rename_i a ha
      refine (sited_mergeAnnouncements hc m (span_of_findKind hannotations ha) hstaged).bind fun merged hmerged => ?_
      exact sited_mergeAll hc hrecords hmerged
    · exact sited_mergeAll hc hrecords hstaged

/-! ### Cycles -/

theorem sited_cycleFinding {staged : List Staged} (hstaged : ∀ s ∈ staged, P s.span) {cycle : List Nat} {f : Finding}
    (h : Staged.cycleFinding staged cycle = some f) : f.Sited P := by
  unfold Staged.cycleFinding at h
  obtain ⟨first, hfirst, h⟩ := Option.bind_eq_some_iff.mp h
  have hmembers : ∀ s ∈ cycle.filterMap fun i => staged[i]?, P s.span := by
    intro s hs
    obtain ⟨i, -, hi⟩ := List.mem_filterMap.mp hs
    exact hstaged s (List.mem_of_getElem? hi)
  cases h
  refine ⟨hmembers first (List.mem_of_head? hfirst), fun l hl => ?_⟩
  obtain ⟨pair, hpair, rfl⟩ := List.mem_map.mp hl
  obtain ⟨s, hs, hspan⟩ := List.mem_map.mp (List.of_mem_zip hpair).2
  show P pair.2
  rw [← hspan]
  exact hmembers s (List.mem_of_mem_tail hs)

theorem sited_reportCycles {γ : Type} {find : γ → Option Finding} (hfind : ∀ x f, find x = some f → f.Sited P)
    (xs : List γ) : Sited P Any (forIn xs PUnit.unit fun x _ =>
      match find x with
      | some finding => do
        report finding.cause finding.span
        pure (ForInStep.yield PUnit.unit)
      | _ => pure (ForInStep.yield PUnit.unit) : Drafting PUnit) := by
  intro d hd
  have hfindings : ∀ f ∈ d.findings ++ xs.filterMap find, f.Sited P := by
    refine List.forall_mem_append.mpr ⟨hd.findings, fun f hf => ?_⟩
    obtain ⟨x, -, hx⟩ := List.mem_filterMap.mp hf
    exact hfind x f hx
  have hrun := congrArg (fun r => Draft.Sited P r.2) (forIn_report find xs d)
  exact ⟨trivial, hrun.mpr ⟨hd.members, hd.taken, hfindings⟩⟩

theorem sited_setDerivedRoles : ∀ (staged : List Staged) (id : DerivedId), Sited P Any (setDerivedRoles id staged)
  | [], _ => sited_any _
  | _ :: rest, id => (sited_setRole _ _).bind fun _ _ => sited_setDerivedRoles rest (id + 1)

theorem sited_derivedSection (hc : ∀ m ∈ c.members, m.Sited P) {records : List (MemberDecl × List Annotation)}
    (h : SitedRecords P records) : Sited P Any (derivedSection c records) := by
  unfold derivedSection
  refine (sited_stageAll h).bind fun staged hstaged => (sited_mergeAll hc h hstaged).bind fun merged hmerged => ?_
  refine (sited_reportCycles (fun _ _ => sited_cycleFinding hmerged) _).bind fun _ _ => ?_
  exact (sited_setDerivedRoles _ 0).bind fun _ _ => sited_any _

/-! ### Commands and locale bindings -/

theorem sited_bindEnablement (command : String) (ha : P a.span) (name : String) :
    Sited P Any (bindEnablement command a name) := by
  have hrefuse (issue : EnablementIssue) : Sited P Any
      (reject (.invalidEnablement command name issue) a.span : Drafting (Option Enablement)) :=
    sited_refuse (sited_plain ha rfl)
  refine sited_get.bind fun d _ => ?_
  dsimp only
  split
  · split
    · exact hrefuse _
    · split
      · exact hrefuse _
      · exact sited_any _
  · exact hrefuse _

theorem sited_command (hm : m.Sited P) (ha : P a.span) : Sited P Any (command m a) := by
  unfold command
  split
  · exact sited_refuse (sited_plain ha rfl)
  · split
    · exact sited_refuse (sited_plain hm.nameSpan rfl)
    · refine (sited_claim _ hm.nameSpan).bind fun earlier hearlier => ?_
      split
      · exact sited_refuse (sited_pair hm.nameSpan (hearlier _ rfl) rfl)
      · refine (sited_claim _ hm.nameSpan).bind fun existing hexisting => ?_
        split
        · exact sited_refuse (sited_pair hm.nameSpan (hexisting _ rfl) rfl)
        · dsimp only
          split
          · exact (sited_bindEnablement _ ha _).bind fun _ _ => sited_any _
          · exact sited_any _

theorem sited_commands : ∀ {records : List (MemberDecl × List Annotation)}, SitedRecords P records →
    Sited P Any (commands records)
  | [], _ => sited_any _
  | (m, annotations) :: rest, h => by
    obtain ⟨⟨hm, hannotations⟩, hrecords⟩ := List.forall_mem_cons.mp h
    have hrest := sited_commands hrecords
    unfold commands
    split
    · exact hrest
    · rename_i a ha
      refine (sited_command hm (span_of_findKind hannotations ha)).bind fun result _ => ?_
      split
      · exact hrest.bind fun _ _ => sited_any _
      · exact hrest

theorem sited_localeBinding (hm : m.Sited P) (ha : P a.span) : Sited P Any (localeBinding m a) := by
  unfold localeBinding
  split
  · exact sited_refuse (sited_plain ha rfl)
  · split
    · exact sited_refuse (sited_plain hm.nameSpan rfl)
    · split
      · refine (sited_resolve _).bind fun key _ => ?_
        split
        · exact sited_refuse (sited_plain ha rfl)
        · refine (sited_resolve _).bind fun target _ => ?_
          split <;> exact sited_any _
      · exact sited_refuse (sited_plain ha rfl)

theorem sited_localeGroups : ∀ {records : List (MemberDecl × List Annotation)}, SitedRecords P records →
    ∀ groups : List LocaleGroup, Sited P Any (localeGroups records groups)
  | [], _, _ => sited_any _
  | (m, annotations) :: rest, h, groups => by
    obtain ⟨⟨hm, hannotations⟩, hrecords⟩ := List.forall_mem_cons.mp h
    unfold localeGroups
    split
    · exact sited_localeGroups hrecords groups
    · rename_i a ha
      refine (sited_localeBinding hm (span_of_findKind hannotations ha)).bind fun result _ => ?_
      split <;> exact sited_localeGroups hrecords _

end Drafting

/-! ### Annotations -/

namespace Annotation

variable {use : Attribute} {member : String}

theorem sited_splitArgs {shape : Shape} {f : Finding} : ∀ {args : List AttributeArg} {positional : List Constant}
    {named : List (String × Constant)}, (∀ arg ∈ args, P arg.span) →
      splitArgs shape use member args positional named = .error f → f.Sited P
  | [], _, _, _, h => nomatch h
  | ⟨none, value, span⟩ :: rest, positional, named, hargs, h => by
    obtain ⟨hspan, hrest⟩ := List.forall_mem_cons.mp hargs
    rw [splitArgs] at h
    split at h
    · exact sited_splitArgs hrest h
    · cases h
      exact sited_plain hspan rfl
  | ⟨some name, value, span⟩ :: rest, positional, named, hargs, h => by
    obtain ⟨hspan, hrest⟩ := List.forall_mem_cons.mp hargs
    rw [splitArgs] at h
    split at h
    · cases h
      exact sited_plain hspan rfl
    · split at h
      · exact sited_splitArgs hrest h
      · cases h
        exact sited_plain hspan rfl

theorem sited_bind (member : String) (kind : AnnotationKind) {use : Attribute} (huse : use.Sited P) :
    (∀ a, bind kind use member = .ok a → P a.span) ∧ ∀ f, bind kind use member = .error f → f.Sited P := by
  have hok {a : Annotation} (ha : P a.span) : (∀ a', (.ok a : Except Finding Annotation) = .ok a' → P a'.span) ∧
      ∀ f, (.ok a : Except Finding Annotation) = .error f → f.Sited P := ⟨by rintro _ ⟨⟩; exact ha, by rintro _ ⟨⟩⟩
  have herror {f : Finding} (hf : f.Sited P) : (∀ a, (.error f : Except Finding Annotation) = .ok a → P a.span) ∧
      ∀ f', (.error f : Except Finding Annotation) = .error f' → f'.Sited P := ⟨by rintro _ ⟨⟩, by rintro _ ⟨⟩; exact hf⟩
  unfold bind
  cases hsplit : splitArgs kind.shape use member use.args [] [] with
  | error f => exact herror (sited_splitArgs huse.args hsplit)
  | ok parts =>
    simp only [Bind.bind, Except.bind]
    split
    · split
      · exact herror (sited_plain huse.span rfl)
      · split
        · exact hok huse.span
        · exact herror (sited_plain huse.span rfl)
    · split
      · exact hok huse.span
      · exact herror (sited_plain huse.span rfl)

theorem sited_ofAttributes : ∀ {uses : List Attribute} {seen : List (AnnotationKind × Span)},
    (∀ use ∈ uses, use.Sited P) → (∀ e ∈ seen, P e.2) →
      (∀ as ∈ (ofAttributes member uses seen).1, ∀ a ∈ as, P a.span) ∧
        ∀ f ∈ (ofAttributes member uses seen).2, f.Sited P
  | [], _, _, _ => ⟨forall_mem_some (List.forall_mem_nil _), List.forall_mem_nil _⟩
  | use :: rest, seen, huses, hseen => by
    obtain ⟨huse, hrest⟩ := List.forall_mem_cons.mp huses
    rw [ofAttributes]
    split
    · exact sited_ofAttributes hrest hseen
    · rename_i kind _
      split
      · rename_i first hfirst
        obtain ⟨hannotations, hfindings⟩ := sited_ofAttributes hrest hseen
        refine ⟨hannotations, List.forall_mem_cons.mpr ⟨?_, hfindings⟩⟩
        exact sited_pair huse.span (hseen _ (Drafting.mem_of_lookup hfirst)) rfl
      · have hbind := sited_bind member kind huse
        split
        · rename_i bound hbound
          have hmore : ∀ e ∈ seen ++ [(kind, use.span)], P e.2 :=
            List.forall_mem_append.mpr ⟨hseen, List.forall_mem_singleton.mpr huse.span⟩
          obtain ⟨hannotations, hfindings⟩ := sited_ofAttributes hrest hmore
          refine ⟨fun as has => ?_, hfindings⟩
          obtain ⟨annotations, hsome, rfl⟩ := Option.map_eq_some_iff.mp has
          exact List.forall_mem_cons.mpr ⟨hbind.1 bound hbound, hannotations annotations hsome⟩
        · rename_i finding hfinding
          exact ⟨forall_mem_none, List.forall_mem_singleton.mpr (hbind.2 finding hfinding)⟩

theorem sited_ofMember {m : MemberDecl} (hm : m.Sited P) :
    (∀ a ∈ (ofMember m).1, P a.span) ∧ ∀ f ∈ (ofMember m).2, f.Sited P := by
  obtain ⟨hannotations, hfindings⟩ : (∀ as ∈ (ofAttributes m.name m.attributes []).1, ∀ a ∈ as, P a.span) ∧
      ∀ f ∈ (ofAttributes m.name m.attributes []).2, f.Sited P :=
    sited_ofAttributes hm.attributes (List.forall_mem_nil _)
  refine ⟨fun a ha => ?_, hfindings⟩
  change a ∈ (ofAttributes m.name m.attributes []).1.getD [] at ha
  cases h : (ofAttributes m.name m.attributes []).1 with
  | none =>
    rw [h] at ha
    cases ha
  | some as =>
    rw [h] at ha
    exact hannotations as h a ha

end Annotation

/-! ### Classes -/

theorem sited_annotatedMembers {c : ClassDecl} (hc : ∀ m ∈ c.members, m.Sited P) :
    Drafting.SitedRecords P (annotatedMembers c).1 ∧ ∀ f ∈ (annotatedMembers c).2, f.Sited P := by
  constructor
  · intro r hr
    obtain ⟨e, he, rfl⟩ := List.mem_map.mp hr
    obtain ⟨m, hm, rfl⟩ := List.mem_map.mp he
    exact ⟨hc m hm, ( Annotation.sited_ofMember (hc m hm)).1⟩
  · intro f hf
    obtain ⟨e, he, hf⟩ := List.mem_flatMap.mp hf
    obtain ⟨m, hm, rfl⟩ := List.mem_map.mp he
    exact ( Annotation.sited_ofMember (hc m hm)).2 f hf

theorem Drafting.sited_classModel (s : DeclarationSet) {c : ClassDecl} (hc : c.Sited P) :
    Sited P (fun model => P model.span) (classModel s c) := by
  obtain ⟨hrecords, hfindings⟩ := sited_annotatedMembers hc.members
  unfold classModel
  refine (sited_forM fun m hm => sited_declare (hc.members m hm)).bind fun _ _ => ?_
  refine Sited.bind (V := Any) (fun d hd => ⟨trivial, hd.members, hd.taken, ?_⟩) fun _ _ => ?_
  · exact List.forall_mem_append.mpr ⟨hd.findings, hfindings⟩
  · refine (sited_mutableProperties hrecords).bind fun mutableProperties _ => ?_
    refine (sited_derivedSection hc.members hrecords).bind fun section_ _ => ?_
    refine (sited_commands hrecords).bind fun commands _ => (sited_localeGroups hrecords []).bind fun groups _ => ?_
    exact sited_get.bind fun d _ => sited_pure hc.nameSpan

namespace DeclarationSet

theorem sited_analyzeClass (s : DeclarationSet) {c : ClassDecl} (hc : c.Sited P) :
    (∀ model ∈ (s.analyzeClass c).1, P model.span) ∧ ∀ f ∈ (s.analyzeClass c).2, f.Sited P := by
  unfold analyzeClass
  split
  · exact ⟨forall_mem_none, List.forall_mem_nil _⟩
  · split
    · exact ⟨forall_mem_none, List.forall_mem_singleton.mpr (sited_plain hc.nameSpan rfl)⟩
    · have hdraft : Draft.Sited P ⟨[], declaredNames c, []⟩ := by
        refine ⟨List.forall_mem_nil _, fun t ht => ?_, List.forall_mem_nil _⟩
        obtain ⟨m, hm, rfl⟩ := List.mem_map.mp ht
        exact (hc.members m hm).nameSpan
      obtain ⟨hmodel, hfindings⟩ := Drafting.sited_classModel s hc _ hdraft
      exact ⟨forall_mem_some hmodel, hfindings.findings⟩

/-- What is found in a file has its places, and so have the models of its classes. -/
theorem sited_analyze {s : DeclarationSet} (h : ∀ c ∈ s.file.classes, c.Sited P) :
    (∀ model ∈ s.analyze.models, P model.span) ∧ ∀ f ∈ s.analyze.findings, f.Sited P := by
  constructor
  · intro model hmodel
    obtain ⟨result, hresult, hsome⟩ := List.mem_filterMap.mp hmodel
    obtain ⟨c, hc, rfl⟩ := List.mem_map.mp hresult
    exact (s.sited_analyzeClass (h c hc)).1 model hsome
  · intro f hf
    obtain ⟨result, hresult, hf⟩ := List.mem_flatMap.mp hf
    obtain ⟨c, hc, rfl⟩ := List.mem_map.mp hresult
    exact (s.sited_analyzeClass (h c hc)).2 f hf

end DeclarationSet

end Reactive
