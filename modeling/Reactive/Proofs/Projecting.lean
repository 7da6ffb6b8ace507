import Reactive.Proofs.Circles
import Reactive.Proofs.Ledger
import Reactive.Proofs.Protocol

/-!
# Reactive.Proofs.Projecting — a projection that reads the instance is rejected before it is lowered

Two recursions say whether the body of a projection makes do with its parameter: `Expr.instanceRead?`, by which the
analysis rejects a member, and the lowering in a scope without an instance, by which a whole module would fail.

* `Build.errs_expression`: where nothing is read of an instance that is not there, lowering fails for other reasons only.
* `Build.instanceRead?_of_lowered`: an expression that is lowered without an instance reads none.
* `StagedRecompute.Checked`: the analysis keeps such projections only (`Drafting.yields_stageAll_checked`), and blames
  the member of any other (`Drafting.yields_stageAll_blamed`).
* `PatchModule.errs_ofModel`: a module whose functions read no instance does not fail for that reason.
* `projection_checking_agrees`: all of it together.
-/

namespace Reactive

/-! ### Errors of one kind, from wherever a computation starts -/

namespace Stateful

variable {ε σ α β : Type} {E : ε → Prop} {x : EStateM ε σ α}

/-- Wherever a computation starts, it stops with an error of a kind, if it stops. -/
def Errs (E : ε → Prop) (x : EStateM ε σ α) : Prop := ∀ s, Meets E x s fun _ _ => True

theorem Errs.bind {f : α → EStateM ε σ β} (hx : Errs E x) (hf : ∀ a, Errs E (f a)) : Errs E (x >>= f) :=
  fun s => (hx s).bind fun a s' _ _ => hf a s'

theorem errs_throw {e : ε} (h : E e) : Errs E (throw e : EStateM ε σ α) := fun _ => h

theorem errs_forM {f : α → EStateM ε σ PUnit} : ∀ {xs : List α}, (∀ a ∈ xs, Errs E (f a)) → Errs E (xs.forM f)
  | [], _ => fun _ => trivial
  | a :: _, h => (h a List.mem_cons_self).bind fun _ => errs_forM fun b hb => h b (List.mem_cons_of_mem _ hb)

end Stateful

open Stateful

/-- The error says something else than that the instance is read where there is none. -/
def CompileError.SparesInstance (e : CompileError) : Prop := ∀ member, e ≠ .unsupported member .instanceRead

/-! ### What is read in a scope -/

namespace Expr

/-- The first access to the instance in what is called. -/
def calleeRead? (param : String) : Expr → Option String
  | name n _ => if n == param then none else some n
  | e => instanceRead? param e

theorem instanceRead?_call (param : String) (callee : Expr) (args : List Expr) (s : Span) :
    (call callee args s).instanceRead? param = (callee.calleeRead? param).or (firstInstanceRead? param args) := by
  cases callee <;> rfl

end Expr

namespace Scope

variable {scope : Scope} {param : String}

theorem param?_detached (n : String) : (detached [param]).param? n = if n = param then some 0 else none := by
  by_cases h : n = param
  · subst h
    simp [param?, detached, List.idxOf?]
  · simp [param?, detached, List.idxOf?, h, List.findIdx?_cons, Ne.symm h]

/-- The scope has an instance, or none is read but through its parameter. -/
def Grounds (scope : Scope) (read? : String → Option String) : Prop :=
  scope.hasThis = true ∨ ∃ param, scope = .detached [param] ∧ read? param = none

theorem Grounds.imp {read? other? : String → Option String} (h : scope.Grounds read?)
    (himp : ∀ param, scope = .detached [param] → read? param = none → other? param = none) : scope.Grounds other? :=
  h.imp_right fun ⟨param, hscope, hread⟩ => ⟨param, hscope, himp param hscope hread⟩

theorem Grounds.or {first? rest? : String → Option String} (h : scope.Grounds fun p => (first? p).or (rest? p)) :
    scope.Grounds first? ∧ scope.Grounds rest? :=
  ⟨h.imp fun _ _ hnone => (Option.or_eq_none_iff.mp hnone).1, h.imp fun _ _ hnone => (Option.or_eq_none_iff.mp hnone).2⟩

/-- A name that is neither a parameter nor one of host helpers is read from an instance. -/
theorem Grounds.hasThis {n : String} {s : Span} (h : scope.Grounds fun p => (Expr.name n s).instanceRead? p)
    (hparam : scope.param? n = none) (hhost : Expr.hostReceivers.contains n = false) : scope.hasThis = true := by
  obtain h | ⟨param, rfl, hread⟩ := h
  · exact h
  · rw [param?_detached] at hparam
    have hne : n ≠ param := fun heq => by simp [heq] at hparam
    have hno : Expr.isHost n = false := hhost
    simp [Expr.instanceRead?, hne, hno] at hread

/-- The object of a member that is no host helper is read like any expression. -/
theorem Grounds.object {object : Expr} {n : String} {s : Span}
    (h : scope.Grounds fun p => (Expr.member object n s).instanceRead? p) (hhost : scope.host? object = none) :
    scope.Grounds fun p => object.instanceRead? p := by
  refine h.imp ?_
  rintro param rfl hread
  cases object with
  | name r s' =>
    by_cases hr : r = param
    · simp [Expr.instanceRead?, hr]
    · -- Not being the parameter, the name is not one of host helpers.
      have hno : Expr.isHost r = false := by
        by_contra hyes
        rw [Bool.not_eq_false] at hyes
        simp only [host?, param?_detached, if_neg hr, Option.isNone_none, Bool.true_and] at hhost
        rw [if_pos (show Expr.hostReceivers.contains r = true from hyes)] at hhost
        cases hhost
      simpa [Expr.instanceRead?, hno] using hread
  | _ => exact hread

end Scope

/-! ### Lowering -/

namespace Build

variable {scope : Scope}

theorem errs_emit (i : Instruction) : Errs CompileError.SparesInstance (emit i) := fun _ => trivial

theorem errs_unsupported {α : Type} {reason : Unsupported} (h : reason ≠ .instanceRead) :
    Errs CompileError.SparesInstance (unsupported reason : Build α) := by
  rintro b member heq
  cases heq
  exact h rfl

theorem errs_loadThis (h : scope.hasThis = true) : Errs CompileError.SparesInstance (loadThis scope) := by
  unfold loadThis
  rw [if_pos h]
  exact errs_emit _

theorem errs_loadName {n : String} {s : Span} (h : scope.Grounds fun p => (Expr.name n s).instanceRead? p) :
    Errs CompileError.SparesInstance (loadName scope n) := by
  unfold loadName
  split
  · exact errs_emit _
  · rename_i hparam
    split
    · exact errs_unsupported fun h => by cases h
    · rename_i hhost
      exact (errs_loadThis (h.hasThis hparam (Bool.eq_false_iff.mpr hhost))).bind fun _ => errs_emit _

mutual

/-- Where nothing is read of an instance that is not there, lowering fails for other reasons only. -/
theorem errs_expression : ∀ e : Expr, (scope.Grounds fun p => e.instanceRead? p) →
    Errs CompileError.SparesInstance (expression scope e)
  | .literal v _, _ => errs_emit _
  | .name n _, h => by
    rw [expression]
    exact errs_loadName h
  | .this _, h => by
    rw [expression]
    obtain h | ⟨param, -, hread⟩ := h
    · exact errs_loadThis h
    · cases hread
  | .member object n _, h => by
    rw [expression]
    split
    · exact errs_emit _
    · rename_i hhost
      exact (errs_expression object (h.object hhost)).bind fun _ => errs_emit _
  | .call callee args _, h => by
    simp only [Expr.instanceRead?_call] at h
    obtain ⟨hcallee, hargs⟩ := h.or
    rw [expression]
    split
    · exact (errs_receiver callee hcallee).bind fun _ => (errs_arguments args hargs).bind fun _ => errs_emit _
    · exact errs_unsupported fun h => by cases h
  | .unary op e _, h => (errs_expression e h).bind fun _ => errs_emit _
  | .binary op l r s, h => by
    obtain ⟨hl, hr⟩ := h.or
    have hleft := errs_expression l hl
    have hright := errs_expression r hr
    cases hop : StrictOp.ofBinary? op with
    | some strict =>
      have hsteps : expression scope (.binary op l r s) =
          (expression scope l >>= fun _ => expression scope r >>= fun _ => emit (.binary strict)) := by
        cases op <;> cases hop <;> rfl
      rw [hsteps]
      exact hleft.bind fun _ => hright.bind fun _ => errs_emit _
    | none =>
      cases op <;> cases hop <;> rw [expression]
      · refine Errs.bind (fun _ => trivial) fun short => Errs.bind (fun _ => trivial) fun done => hleft.bind fun _ => ?_
        exact Errs.bind (fun _ => trivial) fun _ => hright.bind fun _ _ => trivial
      · refine Errs.bind (fun _ => trivial) fun short => Errs.bind (fun _ => trivial) fun done => hleft.bind fun _ => ?_
        exact Errs.bind (fun _ => trivial) fun _ => hright.bind fun _ _ => trivial
      · refine Errs.bind (fun _ => trivial) fun done => hleft.bind fun _ => ?_
        exact Errs.bind (fun _ => trivial) fun _ => hright.bind fun _ _ => trivial
  | .conditional c t e _, h => by
    obtain ⟨hct, he⟩ := h.or
    obtain ⟨hc, ht⟩ := hct.or
    rw [expression]
    refine Errs.bind (fun _ => trivial) fun otherwise => Errs.bind (fun _ => trivial) fun done => ?_
    refine (errs_expression c hc).bind fun _ => Errs.bind (fun _ => trivial) fun _ => ?_
    refine (errs_expression t ht).bind fun _ => Errs.bind (fun _ => trivial) fun _ => ?_
    exact Errs.bind (fun _ => trivial) fun _ => (errs_expression e he).bind fun _ _ => trivial
  | .lambda _ _ _ _, _ => errs_unsupported nofun

/-- The receiver of a call reads what is called. -/
theorem errs_receiver : ∀ e : Expr, (scope.Grounds fun p => e.calleeRead? p) →
    Errs CompileError.SparesInstance (receiver scope e)
  | .name n _, h => by
    rw [receiver]
    split
    · rename_i hparam
      refine (errs_loadThis ?_).bind fun _ _ => trivial
      obtain h | ⟨param, rfl, hread⟩ := h
      · exact h
      · have hparam := Option.isNone_iff_eq_none.mp hparam
        rw [Scope.param?_detached] at hparam
        have hne : n ≠ param := fun heq => by simp [heq] at hparam
        simp [Expr.calleeRead?, hne] at hread
    · exact errs_unsupported fun h => by cases h
  | .member object n _, h => by
    rw [receiver]
    split
    · exact fun _ => trivial
    · rename_i hhost
      exact (errs_expression object (h.object hhost)).bind fun _ _ => trivial
  | .literal _ _, _ | .this _, _ | .call _ _ _, _ | .unary _ _ _, _ | .binary _ _ _ _, _ | .conditional _ _ _ _, _
  | .lambda _ _ _ _, _ => errs_unsupported nofun

/-- Arguments read what each of them reads. -/
theorem errs_arguments : ∀ es : List Expr, (scope.Grounds fun p => Expr.firstInstanceRead? p es) →
    Errs CompileError.SparesInstance (arguments scope es)
  | [], _ => fun _ => trivial
  | e :: es, h => by
    rw [arguments]
    exact (errs_expression e h.or.1).bind fun _ => errs_arguments es h.or.2

end

/-! ### Lowering without an instance -/

variable {param : String} {b b' : MethodBuilder} {u : Unit}

theorem loadThis_detached_ne_ok {params : List String} : loadThis (.detached params) b ≠ .ok u b' := unsupported_ne_ok

/-- A name that is lowered without an instance is the parameter. -/
theorem eq_of_loadName_detached {n : String} (h : loadName (.detached [param]) n b = .ok u b') : n = param := by
  by_contra hne
  unfold loadName at h
  rw [Scope.param?_detached, if_neg hne] at h
  dsimp only at h
  split at h
  · exact unsupported_ne_ok h
  · obtain ⟨_, b₁, h₁, -⟩ := bind_eq_ok.mp h
    exact loadThis_detached_ne_ok h₁

theorem instanceRead?_of_host {object : Expr} {host : String} (n : String) (s : Span)
    (h : (Scope.detached [param]).host? object = some host) : (Expr.member object n s).instanceRead? param = none := by
  cases object with
  | name r s' =>
    by_cases hr : Expr.isHost r = true
    · simp [Expr.instanceRead?, hr]
    · have hno : Expr.hostReceivers.contains r = false := Bool.eq_false_iff.mpr hr
      simp only [Scope.host?, hno, Bool.and_false, Bool.false_eq_true, if_false] at h
      cases h
  | _ => cases h

theorem instanceRead?_member_of_object {object : Expr} (n : String) (s : Span) (h : object.instanceRead? param = none) :
    (Expr.member object n s).instanceRead? param = none := by
  cases object with
  | name r s' =>
    unfold Expr.instanceRead?
    split
    · rfl
    · exact h
  | _ => exact h

mutual

/-- An expression that is lowered without an instance reads none. -/
theorem instanceRead?_of_lowered : ∀ (e : Expr) {b b' : MethodBuilder} {u : Unit},
    expression (.detached [param]) e b = .ok u b' → e.instanceRead? param = none
  | .literal _ _, _, _, _, _ => rfl
  | .name n _, _, _, _, h => by
    rw [expression] at h
    simp [Expr.instanceRead?, eq_of_loadName_detached h]
  | .this _, _, _, _, h => absurd h loadThis_detached_ne_ok
  | .member object n s, _, _, _, h => by
    cases hhost : (Scope.detached [param]).host? object with
    | some host => exact instanceRead?_of_host n s hhost
    | none =>
      obtain ⟨b₁, h₁, -⟩ := member_eq_ok hhost h
      exact instanceRead?_member_of_object n s (instanceRead?_of_lowered object h₁)
  | .call callee args s, _, _, _, h => by
    obtain ⟨-, invoke, b₁, b₂, h₁, h₂, -⟩ := call_eq_ok h
    rw [Expr.instanceRead?_call, calleeRead?_of_lowered callee h₁, firstInstanceRead?_of_lowered args h₂]
    rfl
  | .unary op e _, b, _, _, h => by
    obtain ⟨_, b₁, h₁, -⟩ := bind_eq_ok.mp (show (expression _ e >>= _) b = _ from h)
    exact instanceRead?_of_lowered e h₁
  | .binary op l r s, b, b', u, h => by
    have hboth : ∃ c₁ c₂ d₁ d₂, expression (.detached [param]) l c₁ = .ok () d₁ ∧
        expression (.detached [param]) r c₂ = .ok () d₂ := by
      cases hop : StrictOp.ofBinary? op with
      | some strict =>
        obtain ⟨b₁, b₂, h₁, h₂, -⟩ := strict_eq_ok hop h
        exact ⟨_, _, _, _, h₁, h₂⟩
      | none =>
        cases op <;> cases hop
        · obtain ⟨b₁, b₂, hd⟩ := and_eq_ok h
          exact ⟨_, _, _, _, hd.left, hd.right⟩
        · obtain ⟨b₁, b₂, hd⟩ := or_eq_ok h
          exact ⟨_, _, _, _, hd.left, hd.right⟩
        · obtain ⟨b₁, b₂, h₁, h₂, -⟩ := coalesce_eq_ok h
          exact ⟨_, _, _, _, h₁, h₂⟩
    obtain ⟨_, _, _, _, hl, hr⟩ := hboth
    rw [Expr.instanceRead?, instanceRead?_of_lowered l hl, instanceRead?_of_lowered r hr]
    rfl
  | .conditional c t e s, _, _, _, h => by
    obtain ⟨b₁, b₂, b₃, hd⟩ := conditional_eq_ok h
    rw [Expr.instanceRead?, instanceRead?_of_lowered c hd.condition, instanceRead?_of_lowered t hd.thenBranch,
      instanceRead?_of_lowered e hd.elseBranch]
    rfl
  | .lambda _ _ _ _, _, _, _, _ => rfl

/-- What is called without an instance is not a name of one. -/
theorem calleeRead?_of_lowered : ∀ (e : Expr) {b b' : MethodBuilder} {invoke : UInt8 → Instruction},
    receiver (.detached [param]) e b = .ok invoke b' → e.calleeRead? param = none
  | .name n _, _, _, _, h => by
    rw [receiver] at h
    split at h
    · obtain ⟨_, b₁, h₁, -⟩ := bind_eq_ok.mp h
      exact absurd h₁ loadThis_detached_ne_ok
    · exact absurd h unsupported_ne_ok
  | .member object n s, _, _, _, h => by
    cases hhost : (Scope.detached [param]).host? object with
    | some host => exact instanceRead?_of_host n s hhost
    | none =>
      exact instanceRead?_member_of_object n s (instanceRead?_of_lowered object (receiver_member_eq_ok hhost h).1)
  | .literal _ _, _, _, _, h | .this _, _, _, _, h | .call _ _ _, _, _, _, h | .unary _ _ _, _, _, _, h
  | .binary _ _ _ _, _, _, _, h | .conditional _ _ _ _, _, _, _, h | .lambda _ _ _ _, _, _, _, h =>
    absurd h unsupported_ne_ok

theorem firstInstanceRead?_of_lowered : ∀ (es : List Expr) {b b' : MethodBuilder} {u : Unit},
    arguments (.detached [param]) es b = .ok u b' → Expr.firstInstanceRead? param es = none
  | [], _, _, _, _ => rfl
  | e :: es, _, _, _, h => by
    obtain ⟨b₁, h₁, h₂⟩ := arguments_cons_eq_ok h
    rw [Expr.firstInstanceRead?, instanceRead?_of_lowered e h₁, firstInstanceRead?_of_lowered es h₂]
    rfl

end

end Build

/-! ### What the analysis keeps -/

/-- A projection that is hoisted reads no instance, and has no lambda in it. -/
def StagedRecompute.Checked : StagedRecompute → Prop
  | .projection param body _ => body.containsLambda = false ∧ body.instanceRead? param = none
  | _ => True

/-- What a staged value is computed from is checked. -/
def Staged.Checked (s : Staged) : Prop := ∀ r, s.recompute = some r → r.Checked

/-- The member is a derived property whose getter projects the instance. -/
structure MemberDecl.Projects (m : MemberDecl) (annotations : List Annotation) (param : String) (e : Expr) : Prop where
  annotated : (findKind .derived annotations).isSome
  getter : ∃ p body, m.kind = .property p ∧ p.getterBody? = some body ∧ body.staticProjection? = some (param, e)

/-- The finding says why no value is derived from the member. -/
def Finding.Blames (f : Finding) (member : String) : Prop :=
  (∃ issue, f.cause = .unsupportedBody member issue) ∨ (∃ setter, f.cause = .derivedHasSetter member setter) ∨
    ∃ use issue, f.cause = .invalidArguments use member issue

theorem Finding.Blames.isWarning {f : Finding} {member : String} (h : f.Blames member) : f.isWarning = false := by
  obtain ⟨cause, span⟩ := f
  obtain ⟨issue, rfl⟩ | ⟨setter, rfl⟩ | ⟨use, issue, rfl⟩ := h <;> rfl

/-- The member has been found to be wrong. -/
def Draft.Blames (d : Draft) (member : String) : Prop := ∃ f ∈ d.findings, f.Blames member

theorem Draft.Later.blames {d d' : Draft} {member : String} (h : d.Later d') (hblames : d.Blames member) :
    d'.Blames member := by
  obtain ⟨f, hf, hfound⟩ := hblames
  exact ⟨f, h.findings.subset hf, hfound⟩

namespace Drafting

variable {α : Type} {m : MemberDecl} {annotations : List Annotation} {a : Annotation} {param read : String} {e : Expr}

theorem blames_report {cause : FindingCause} {span : Span} {member : String}
    (h : Finding.Blames ⟨cause, span⟩ member) (d : Draft) : (report cause span d).2.Blames member :=
  ⟨_, List.mem_append_right _ List.mem_cons_self, h⟩

/-- A member that is rejected is not derived, and is found to be wrong. -/
theorem yields_rejectBody_blamed (issue : BodyIssue) (d : Draft) :
    Yields (rejectBody m issue : Drafting (Option α)) d fun r d' => r = none ∧ d'.Blames m.name :=
  ⟨rfl, blames_report (Or.inl ⟨issue, rfl⟩) d⟩

theorem yields_rejectArguments_blamed (issue : ArgumentIssue) (d : Draft) :
    Yields (rejectArguments m a issue : Drafting (Option α)) d fun r d' => r = none ∧ d'.Blames m.name :=
  ⟨rfl, blames_report (Or.inr (Or.inr ⟨_, issue, rfl⟩)) d⟩

theorem yields_stagedBody_checked (m : MemberDecl) (body : Expr) (d : Draft) :
    Yields (stagedBody m body) d fun r _ => ∀ s, r = some s → s.Checked := by
  unfold stagedBody
  split
  · split
    · exact yields_reject
    · rename_i hlambda
      split
      · exact yields_reject
      · rename_i hread
        rintro s ⟨⟩
        exact ⟨Bool.eq_false_iff.mpr hlambda, hread⟩
  · split
    · exact yields_reject
    · rintro s ⟨⟩
      trivial

theorem yields_stagedBody_blamed {body : Expr} (hprojects : body.staticProjection? = some (param, e))
    (hread : e.instanceRead? param = some read) (d : Draft) :
    Yields (stagedBody m body) d fun r d' => r = none ∧ d'.Blames m.name := by
  unfold stagedBody
  rw [hprojects]
  dsimp only
  split
  · exact yields_rejectBody_blamed _ d
  · rw [hread]
    exact yields_rejectBody_blamed _ d

/-! #### Checked values -/

theorem yields_derivedTarget_checked (m : MemberDecl) (a : Annotation) (cache : CachePolicy) (d : Draft) :
    Yields (derivedTarget m a cache) d fun r _ => ∀ t, r = some t → ∀ s, t.recompute = some s → s.Checked := by
  unfold derivedTarget
  split
  · unfold propertyTarget
    split
    · exact yields_reject
    · split
      · exact yields_reject
      · refine (yields_resolve m.name d).bind fun id d₁ _ => ?_
        split
        · exact yields_none
        · split
          · refine (yields_stagedBody_checked m _ d₁).bind fun result d₂ hresult => ?_
            split
            · rintro t ⟨⟩ s ⟨⟩
              exact hresult _ rfl
            · exact yields_none
          · split
            · exact yields_reject
            · rintro t ⟨⟩ s ⟨⟩
  · unfold methodTarget
    split
    · exact yields_reject
    · split
      · exact yields_reject
      · split
        · exact yields_reject
        · refine Yields.bind (Q := fun _ _ => True) trivial fun owner d₁ _ => ?_
          split
          · exact yields_reject
          · refine Yields.bind (Q := fun _ _ => True) trivial fun result d₂ _ => ?_
            split
            · exact yields_reject
            · rintro t ⟨⟩ s ⟨⟩
              trivial

theorem yields_stageTarget_checked (m : MemberDecl) (a : Annotation) (cache : CachePolicy) (notifies : Bool) {t : Target}
    (ht : ∀ r, t.recompute = some r → r.Checked) (d : Draft) :
    Yields (stageTarget m a cache notifies t) d fun r _ => ∀ s, r = some s → s.Checked := by
  unfold stageTarget
  refine Yields.bind (Q := fun _ _ => True) trivial fun slot d₁ _ => ?_
  split
  · exact yields_none
  · refine Yields.bind (Q := fun _ _ => True) trivial fun free d₂ _ => ?_
    split
    · exact yields_none
    · refine Yields.bind (Q := fun _ _ => True) trivial fun ids d₃ _ => ?_
      refine Yields.bind (Q := fun _ _ => True) trivial fun _ d₄ _ => ?_
      rintro s ⟨⟩
      exact ht

theorem yields_stageMember_checked (m : MemberDecl) (annotations : List Annotation) (d : Draft) :
    Yields (stageMember m annotations) d fun r _ => ∀ s, r = some s → s.Checked := by
  unfold stageMember
  split
  · exact yields_reject
  · rename_i a _ _
    obtain ⟨cache, notifies, ignored, heq⟩ := stageDerived_eq m a
    rw [heq]
    refine (yields_derivedTarget_checked m a cache d).bind fun target d₁ htarget => ?_
    split
    · exact yields_none
    · have ht := htarget _ rfl
      split
      · exact Yields.bind (Q := fun _ _ => True) trivial fun _ d₂ _ => yields_stageTarget_checked m a cache notifies ht d₂
      · exact yields_stageTarget_checked m a cache notifies ht d₁
  · unfold stageObservable
    split
    · exact yields_reject
    · split
      · exact yields_reject
      · exact yields_reject
      · split
        · exact yields_reject
        · refine (yields_resolve m.name d).bind fun id d₁ _ => ?_
          split
          · exact yields_none
          · refine Yields.bind (Q := fun _ _ => True) trivial fun owner d₂ _ => ?_
            split
            · exact yields_reject
            · -- A helper is computed in place.
              rintro s ⟨⟩ r ⟨⟩
              trivial
  · exact yields_none

theorem yields_stageAll_checked : ∀ (records : List (MemberDecl × List Annotation)) (d : Draft),
    Yields (stageAll records) d fun staged _ => ∀ s ∈ staged, s.Checked
  | [], _ => nofun
  | (m, annotations) :: rest, d => by
    unfold stageAll
    refine (yields_stageMember_checked m annotations d).bind fun result d₁ hresult => ?_
    split
    · refine (yields_stageAll_checked rest d₁).bind fun staged d₂ hstaged => ?_
      exact List.forall_mem_cons.mpr ⟨hresult _ rfl, hstaged⟩
    · exact yields_stageAll_checked rest d₁

/-- Announcements change no computation. -/
theorem yields_stagedSection_checked (c : ClassDecl) (records : List (MemberDecl × List Annotation)) (d : Draft) :
    Yields (stagedSection c records) d fun staged _ => ∀ s ∈ staged, s.Checked := by
  refine (yields_stageAll_checked records d).bind fun staged d₁ hstaged => ?_
  refine yields_mergeAll (P := fun staged _ => ∀ s ∈ staged, s.Checked) (fun _ _ _ h _ => h) c ?_ records staged d₁ hstaged
  intro m a source staged target d _ hchecked
  refine (yields_announce c m a source staged target d).imp fun staged' d' h => ?_
  obtain ⟨-, rfl | ⟨index, s, -, -, -, rfl⟩ | ⟨id, info, -, -, -, -, rfl⟩⟩ := h
  · exact hchecked
  · intro t ht
    obtain ⟨t', ht', heq⟩ := mem_of_mem_modify ht
    have hold := hchecked t' ht'
    obtain rfl | rfl := heq <;> exact hold
  · intro t ht
    obtain ht | ht := List.mem_append.mp ht
    · exact hchecked t ht
    · obtain rfl := List.mem_singleton.mp ht
      exact nofun

/-! #### Members that are found to be wrong -/

/-- A derived property that reads the instance in its projection is not staged. -/
theorem yields_stageMember_blamed (h : m.Projects annotations param e) (hread : e.instanceRead? param = some read)
    {d : Draft} (hname : m.name ∈ d.names) :
    Yields (stageMember m annotations) d fun r d' => r = none ∧ d'.Blames m.name := by
  obtain ⟨ha, p, body, hkind, hbody, hprojects⟩ := h
  obtain ⟨a, ha⟩ := Option.isSome_iff_exists.mp ha
  have htarget (cache : CachePolicy) :
      Yields (derivedTarget m a cache) d fun r d' => r = none ∧ d'.Blames m.name := by
    unfold derivedTarget
    rw [hkind]
    dsimp only
    unfold propertyTarget
    split
    · exact yields_rejectArguments_blamed _ d
    · split
      · exact ⟨rfl, blames_report (Or.inr (Or.inl ⟨_, rfl⟩)) d⟩
      · refine (yields_resolve m.name d).bind ?_
        rintro id d ⟨rfl, hid⟩
        split
        · exact absurd hname (Draft.resolve?_eq_none_iff.mp hid)
        · rw [hbody]
          refine (yields_stagedBody_blamed hprojects hread d).bind ?_
          rintro _ d₁ ⟨rfl, hblames⟩
          exact ⟨rfl, hblames⟩
  unfold stageMember
  rw [ha]
  split
  · exact yields_rejectArguments_blamed _ d
  · rename_i a' heq _
    cases heq
    obtain ⟨cache, notifies, ignored, hsteps⟩ := stageDerived_eq m a
    rw [hsteps]
    refine (htarget cache).bind ?_
    rintro _ d₁ ⟨rfl, hblames⟩
    exact ⟨rfl, hblames⟩
  · rename_i heq _
    cases heq
  · rename_i heq _
    cases heq

theorem yields_stageAll_blamed : ∀ (records : List (MemberDecl × List Annotation)) (d : Draft),
    (∀ r ∈ records, ∀ p, r.1.kind = .property p → r.1.name ∈ d.names) →
      Yields (stageAll records) d fun _ d' => ∀ r ∈ records, ∀ param e read, r.1.Projects r.2 param e →
        e.instanceRead? param = some read → d'.Blames r.1.name
  | [], _, _ => nofun
  | (m, annotations) :: rest, d, hdeclared => by
    obtain ⟨hm, hrest⟩ := List.forall_mem_cons.mp hdeclared
    have htail (d₁ : Draft) (h₁ : d.Later d₁) : Yields (stageAll rest) d₁ fun _ d' =>
        (∀ r ∈ rest, ∀ param e read, r.1.Projects r.2 param e → e.instanceRead? param = some read →
          d'.Blames r.1.name) ∧ d₁.Later d' :=
      (yields_stageAll_blamed rest d₁ fun r hr p hp => h₁.names_subset (hrest r hr p hp)).and_later (adds_stageAll rest)
    unfold stageAll
    refine Yields.bind (Q := fun _ d₁ => d.Later d₁ ∧ ∀ param e read, m.Projects annotations param e →
        e.instanceRead? param = some read → d₁.Blames m.name)
      ⟨(adds_stageMember m annotations d).toLater, fun param e read h hread => ?_⟩ fun result d₁ h₁ => ?_
    · obtain ⟨p, body, hkind, -⟩ := h.getter
      exact (yields_stageMember_blamed h hread (hm p hkind)).2
    · obtain ⟨hlater, hhead⟩ := h₁
      have hall (d₂ : Draft) (h₂ : d₁.Later d₂) (hrest : ∀ r ∈ rest, ∀ param e read, r.1.Projects r.2 param e →
          e.instanceRead? param = some read → d₂.Blames r.1.name) : ∀ r ∈ (m, annotations) :: rest, ∀ param e read,
          r.1.Projects r.2 param e → e.instanceRead? param = some read → d₂.Blames r.1.name :=
        List.forall_mem_cons.mpr ⟨fun param e read h hread => h₂.blames (hhead param e read h hread), hrest⟩
      split
      · exact (htail d₁ hlater).bind fun staged d₂ h₂ => hall d₂ h₂.2 h₂.1
      · exact (htail d₁ hlater).imp fun staged d₂ h₂ => hall d₂ h₂.2 h₂.1

/-! #### Whole classes -/

/-- The functions of a model are checked, and members whose projections are not have been found to be wrong. -/
theorem yields_classModel_checked (s : DeclarationSet) (c : ClassDecl) :
    Yields (classModel s c) ⟨[], declaredNames c, []⟩ fun model d =>
      (∀ f ∈ model.statics, f.body.containsLambda = false ∧ f.body.instanceRead? f.param = none) ∧
        ∀ m ∈ c.members, ∀ param e read, m.Projects ( Annotation.ofMember m).1 param e →
          e.instanceRead? param = some read → d.Blames m.name := by
  rw [classModel_eq]
  refine (yields_properties_takes c).bind fun ps d₁ h₁ => ?_
  obtain ⟨-, -, hfiles, -⟩ := h₁
  have hdeclared : ∀ r ∈ (annotatedMembers c).1, ∀ p, r.1.kind = .property p → r.1.name ∈ d₁.names := by
    intro r hr p hp
    obtain ⟨i, hi, -⟩ := hfiles r.1 (records_annotatedMembers c r hr).1 p hp
    exact MemberTable.name_of_find? hi ▸ List.mem_map_of_mem (List.mem_of_find?_eq_some hi)
  have hchecked := yields_stagedSection_checked c (annotatedMembers c).1 d₁
  have hblamed : Yields (stagedSection c (annotatedMembers c).1) d₁ fun _ d' => ∀ r ∈ (annotatedMembers c).1,
      ∀ param e read, r.1.Projects r.2 param e → e.instanceRead? param = some read → d'.Blames r.1.name := by
    refine (yields_stageAll_blamed (annotatedMembers c).1 d₁ hdeclared).bind fun staged d₂ h₂ => ?_
    refine Yields.imp (P := fun _ d' => d₂.Later d') ((notes_mergeAll c _ staged).yields d₂) ?_
    exact fun _ d' hlater r hr param e read h hread => hlater.blames (h₂ r hr param e read h hread)
  refine (yields_derivedSection c (annotatedMembers c).1 d₁).bind ?_
  rintro section_ d₃ ⟨rfl, h₃, -⟩
  refine ((notes_commands _).yields d₃).bind fun commands d₄ h₄ => ?_
  refine ((notes_localeGroups _ []).yields d₄).bind fun groups d₅ h₅ => ?_
  obtain ⟨ds, fs, hsection, -, -, hwritten⟩ :=
    DerivedSection.ofStaged_eq (Staged.acyclic (stagedSection c (annotatedMembers c).1 d₁).1)
  rw [hsection]
  refine ⟨fun f hf => ?_, fun m hm param e read h hread => ?_⟩
  · obtain ⟨t, ht, function, hrecompute⟩ := hwritten f hf
    exact hchecked t ((Staged.acyclic_sublist _).subset ht) _ hrecompute
  · exact ((h₃.toLater.trans h₄).trans h₅).blames (hblamed _ (mem_annotatedMembers hm) param e read h hread)

end Drafting

/-! ### What is generated -/

namespace Build

variable {hooks params : List String}

theorem errs_operand (value : Operand) : Errs CompileError.SparesInstance (operand params value) := by
  cases value with
  | expression body => exact errs_expression body (Or.inl rfl)
  | argument | slot _ | application _ | method _ | bool _ | helperValue _ _ => exact fun _ => trivial

mutual

/-- In a method there is always an instance. -/
theorem errs_statement : ∀ s : Statement, Errs CompileError.SparesInstance (statement hooks params s)
  | .returnIfUnchanged _ | .captureOld _ | .raiseChanging _ | .raiseChanged _ | .storeValue _ | .returnCommand _ _
  | .registerLocale _ _ _ => fun _ => trivial
  | .callHook hook => by
    rw [statement]
    split <;> exact fun _ => trivial
  | .callMethod method passesValue => by
    cases passesValue <;> exact fun _ => trivial
  | .setIfChanged slot value property => by
    rw [statement]
    exact Errs.bind (fun _ => trivial) fun unchanged => (errs_operand value).bind fun _ _ => trivial
  | .store slot value => by
    rw [statement]
    exact (errs_operand value).bind fun _ _ => trivial
  | .ifUnset flag body => by
    rw [statement]
    refine Errs.bind (fun _ => trivial) fun done => Errs.bind (fun _ => trivial) fun _ => ?_
    exact Errs.bind (fun _ => trivial) fun _ => (errs_statements body).bind fun _ _ => trivial
  | .ret value => by
    rw [statement]
    exact (errs_operand value).bind fun _ _ => trivial
  | .addLocaleProperty object key target retain => by
    rw [statement]
    refine Errs.bind (fun _ => trivial) fun b => ?_
    split
    · exact fun _ => trivial
    · exact errs_throw fun _ h => by cases h

theorem errs_statements : ∀ ss : List Statement, Errs CompileError.SparesInstance (statements hooks params ss)
  | [] => fun _ => trivial
  | s :: rest => by
    rw [statements]
    exact (errs_statement s).bind fun _ => errs_statements rest

end

end Build

namespace Assembly

theorem errs_mapM_resolve {labels : List (Option Nat)} {e : CompileError} : ∀ {is : List Instruction},
    is.mapM (MethodBuilder.resolve labels) = .error e → e.SparesInstance
  | [], h => by cases h
  | i :: is, h => by
    rw [List.mapM_cons] at h
    cases hi : MethodBuilder.resolve labels i with
    | error e' =>
      rw [hi] at h
      cases h
      unfold MethodBuilder.resolve at hi
      split at hi
      · cases hi
      · split at hi <;> cases hi
        exact nofun
    | ok r =>
      rw [hi] at h
      cases his : is.mapM (MethodBuilder.resolve labels) with
      | error e' =>
        rw [his] at h
        cases h
        exact errs_mapM_resolve his
      | ok rs =>
        rw [his] at h
        cases h

/-- A method that is not built has a label without a place. -/
theorem errs_build {b : MethodBuilder} {e : CompileError} (h : b.build = .error e) : e.SparesInstance := by
  unfold MethodBuilder.build at h
  cases hcode : b.code.mapM (MethodBuilder.resolve b.labels) with
  | error e' =>
    rw [hcode] at h
    cases h
    exact errs_mapM_resolve hcode
  | ok code =>
    rw [hcode] at h
    cases h

theorem errs_ofBody {name param : String} {body : Expr} {e : CompileError} (hread : body.instanceRead? param = none)
    (h : CompiledMethod.ofBody name (.detached [param]) body = .error e) : e.SparesInstance := by
  unfold CompiledMethod.ofBody at h
  split at h
  · exact errs_build h
  · rename_i e' b' hrun
    cases h
    exact (Build.errs_expression body (Or.inr ⟨param, rfl, hread⟩) _).of_error hrun

/-- A piece of a class fails for other reasons, unless it is a function that reads the instance. -/
theorem errs_add : ∀ f : Fragment, (∀ decl, f = .function decl → decl.body.instanceRead? decl.param = none) →
    Errs CompileError.SparesInstance (add f)
  | .beginClass _, _ | .field _, _ | .redirect _ _, _ => fun _ => trivial
  | .hook decl, _ => by
    rw [add]
    split <;> exact fun _ => trivial
  | .property signature, _ => by
    rw [add]
    split <;> exact fun _ => trivial
  | .function decl, h => by
    rw [add]
    split
    · exact fun _ => trivial
    · rename_i e he
      exact errs_throw (errs_ofBody (h decl rfl) he)
  | .beginMethod signature, _ => by
    rw [add, beginMethod]
    refine Errs.bind (fun _ => trivial) fun a => ?_
    split
    · exact errs_throw fun _ h => by cases h
    · exact fun _ => trivial
  | .statement s, _ => by
    rw [add, statement]
    refine Errs.bind (fun _ => trivial) fun a => ?_
    split
    · exact errs_throw fun _ h => by cases h
    · split
      · exact fun _ => trivial
      · rename_i e b hrun
        exact Errs.bind (fun _ => trivial) fun _ => errs_throw ((Build.errs_statement s _).of_error hrun)
  | .endMethod, _ => by
    rw [add, endMethod]
    refine Errs.bind (fun _ => trivial) fun a => ?_
    split
    · exact errs_throw fun _ h => by cases h
    · refine Errs.bind (fun _ => trivial) fun _ => ?_
      split
      · exact fun _ => trivial
      · rename_i e he
        exact errs_throw (errs_build he)

theorem errs_finish : Errs CompileError.SparesInstance finish := by
  unfold finish
  refine Errs.bind (fun _ => trivial) fun a => ?_
  split
  · exact errs_throw fun _ h => by cases h
  · exact fun _ => trivial

end Assembly

/-- The functions among the pieces of a class are those of its model. -/
theorem ClassModel.mem_statics_of_fragment {m : ClassModel} {decl : StaticFunction} (h : .function decl ∈ m.fragments) :
    ∃ f ∈ m.statics, f.toStaticFunction = decl := by
  obtain h | h := List.mem_cons.mp h
  · cases h
  · obtain ⟨member, hmember, hpiece⟩ := List.mem_flatMap.mp h
    rw [generatedMembers_eq, List.mem_append] at hmember
    obtain hmember | hmember := hmember
    · obtain ⟨_, rfl⟩ | ⟨f, hf, rfl⟩ | ⟨_, _, _, _, rfl⟩ := mem_declarations hmember
      · cases List.mem_singleton.mp hpiece
      · cases List.mem_singleton.mp hpiece
        exact ⟨f, hf, rfl⟩
      · cases List.mem_singleton.mp hpiece
    · obtain (⟨_, rfl, -⟩ | ⟨_, rfl⟩) | ⟨_, _, rfl⟩ | ⟨_, body, rfl, -⟩ := mem_accessors hmember
      · cases List.mem_singleton.mp hpiece
      · cases List.mem_singleton.mp hpiece
      · cases List.mem_singleton.mp hpiece
      · simp [GeneratedMember.fragments] at hpiece

/-- A module whose functions read no instance does not fail for reading one. -/
theorem PatchModule.errs_ofModel {m : ClassModel} (h : ∀ f ∈ m.statics, f.body.instanceRead? f.param = none)
    {e : CompileError} (he : PatchModule.ofModel m = .error e) : e.SparesInstance := by
  have hall : Errs CompileError.SparesInstance (do m.fragments.forM Assembly.add; Assembly.finish) := by
    refine (errs_forM fun piece hpiece => Assembly.errs_add piece ?_).bind fun _ => Assembly.errs_finish
    rintro decl rfl
    obtain ⟨f, hf, rfl⟩ := ClassModel.mem_statics_of_fragment hpiece
    exact h f hf
  unfold PatchModule.ofModel at he
  split at he
  · cases he
  · rename_i e' a hrun
    cases he
    exact (hall _).of_error hrun

/-- The analysis and the lowering agree on what a projection may read.  An expression that makes do with the parameter,
whatever that is called, is never refused for reading the instance when it is lowered without one; an expression that
does not is never lowered.  So what a projection reads never makes a module fail: the functions of a model read no
instance, and a member whose projection does has been found to be wrong. -/
theorem projection_checking_agrees (param : String) (e : Expr) :
    (e.instanceRead? param = none → ∀ b member b',
      Build.expression (.detached [param]) e b ≠ .error (.unsupported member .instanceRead) b') ∧
    (∀ read, e.instanceRead? param = some read → ∀ b, ∃ error b',
      Build.expression (.detached [param]) e b = .error error b') ∧
    ∀ (s : DeclarationSet) (c : ClassDecl) (model : ClassModel), (s.analyzeClass c).1 = some model →
      (∀ m ∈ c.members, ∀ read, m.Projects ( Annotation.ofMember m).1 param e → e.instanceRead? param = some read →
        ∃ f ∈ (s.analyzeClass c).2, f.isWarning = false ∧ f.Blames m.name) ∧
      (∀ f ∈ model.statics, f.body.containsLambda = false ∧ f.body.instanceRead? f.param = none) ∧
      ∀ member, PatchModule.ofModel model ≠ .error (.unsupported member .instanceRead) := by
  refine ⟨fun hread b member b' h => ?_, fun read hread b => ?_, fun s c model hmodel => ?_⟩
  · exact (Build.errs_expression e (Or.inr ⟨param, rfl, hread⟩) b).of_error h member rfl
  · cases h : Build.expression (.detached [param]) e b with
    | ok u b' =>
      rw [Build.instanceRead?_of_lowered e h] at hread
      cases hread
    | error error b' => exact ⟨error, b', rfl⟩
  · obtain ⟨d, hfindings, hstatics, hblamed⟩ := (Drafting.yields_classModel_checked s c).of_analyzeClass hmodel
    refine ⟨fun m hm read hprojects hread => ?_, hstatics, fun member h => ?_⟩
    · obtain ⟨f, hf, hblames⟩ := hblamed m hm param e read hprojects hread
      exact ⟨f, hfindings ▸ hf, hblames.isWarning, hblames⟩
    · exact PatchModule.errs_ofModel (fun f hf => (hstatics f hf).2) h member rfl

/-- The projection of the instance to `e`. -/
def projection (param : String) (e : Expr) : Expr :=
  .call (.member (.this .none) "To" .none) [.lambda true param e .none] .none

/-- Twice the rate, with a parameter that has the name of host helpers. -/
def twiceRate : Expr := .binary .multiply (.member (.name "Math" .none) "Rate" .none) (.literal (.int 2) .none) .none

/-- The rate and the fee, which is not read through the parameter. -/
def rateAndFee : Expr := .binary .add (.member (.name "x" .none) "Rate" .none) (.name "Fee" .none) .none

/-- A till has a rate, twice the rate, and a total for which its fee is not read as it should be. -/
def till : ClassDecl where
  name := "Till"
  typeParams := []
  modifiers := [.partial_]
  bases := [⟨"IReactiveObject", [], false⟩]
  members :=
    [⟨"Rate", [⟨"Reactive", [], .none⟩], [],
        .property ⟨⟨"int", [], false⟩, some ⟨none, .none⟩, some ⟨none, .none⟩, none⟩, .none, .none⟩,
      derivedFrom "Twice" ["Rate"] (projection "Math" twiceRate),
      derivedFrom "Total" ["Rate"] (projection "x" rateAndFee)]
  nameSpan := .none
  span := .none

/-- The file that declares a till and nothing else. -/
def tillFile : DeclarationSet := ⟨"", "", ⟨[], none, [till]⟩, default⟩

/-- The model of a till. -/
def tillModel : ClassModel := (tillFile.analyzeClass till).1.get (by decide +kernel)

theorem projection_checking_agrees_till :
    (twiceRate.instanceRead? "Math" = none ∧ ∀ b member b',
      Build.expression (.detached ["Math"]) twiceRate b ≠ .error (.unsupported member .instanceRead) b') ∧
    (rateAndFee.instanceRead? "x" = some "Fee" ∧ ∀ b, ∃ error b',
      Build.expression (.detached ["x"]) rateAndFee b = .error error b') ∧
    (tillFile.analyzeClass till).1 = some tillModel ∧ (tillModel.statics.map fun f => f.name) = [Naming.projection "Twice"] ∧
    (∃ f ∈ (tillFile.analyzeClass till).2, f.isWarning = false ∧ f.Blames "Total") ∧
      ∀ member, PatchModule.ofModel tillModel ≠ .error (.unsupported member .instanceRead) := by
  have hmodel : (tillFile.analyzeClass till).1 = some tillModel := (Option.some_get _).symm
  have hfee : rateAndFee.instanceRead? "x" = some "Fee" := by decide +kernel
  have hprojects : MemberDecl.Projects (derivedFrom "Total" ["Rate"] (projection "x" rateAndFee))
      ( Annotation.ofMember (derivedFrom "Total" ["Rate"] (projection "x" rateAndFee))).1 "x" rateAndFee :=
    ⟨by decide +kernel, _, _, rfl, rfl, rfl⟩
  obtain ⟨hblamed, -, hmodule⟩ := (projection_checking_agrees "x" rateAndFee).2.2 _ _ _ hmodel
  exact ⟨⟨by decide +kernel, (projection_checking_agrees "Math" twiceRate).1 (by decide +kernel)⟩,
    ⟨hfee, (projection_checking_agrees "x" rateAndFee).2.1 _ hfee⟩, hmodel, by decide +kernel,
    hblamed _ (List.mem_of_mem_getLast? (Option.mem_def.mpr rfl)) _ hprojects hfee, hmodule⟩

end Reactive
