import Mathlib.Tactic.Common
import Reactive.Proofs.Statements

/-!
# Reactive.Proofs.Labels — every jump of a method finds its label

A method is built only if every label that is jumped to has a place by then, and a locale object can be used only once
it has a local.  Neither ever goes wrong: an expression stops its method only because it has no instructions.

* `MethodBuilder.Sound`: jumps go to labels that are there, and no label is open but those that are still to be bound.
  A sound method without open labels can be built (`Sound.build`).
* `Build.sound_expression`: lowering an expression keeps a method sound, or finds it unsupported.
* `Statement.RegisteredAll`: locale objects are registered before they are used; the lowering of such statements keeps a
  method sound, too (`Build.sound_statements`).
-/

namespace Reactive

open Stateful MethodBuilder

/-- The error says that an expression has no instructions. -/
def CompileError.IsUnsupported (e : CompileError) : Prop := ∃ member reason, e = .unsupported member reason

namespace MethodBuilder

variable {b : MethodBuilder} {pending : List Nat}

/-- A stage of a method of whose labels at most the pending ones are still open, with jumps to its labels only. -/
structure Sound (b : MethodBuilder) (pending : List Nat) : Prop where
  inside : ∀ i ∈ b.code, ∀ t, i.target? = some t → t.toNat < b.labels.length
  pending : ∀ label, b.Open label → label ∈ pending

/-! ### Stages -/

theorem sound_start (name : String) (paramCount : UInt16) : (start name paramCount).Sound [] := ⟨nofun, nofun⟩

theorem Sound.push {i : Instruction} (h : b.Sound pending) (hi : i.target? = none) : (b.push i).Sound pending where
  inside := by
    intro j hj t ht
    rcases List.mem_append.mp hj with hj | hj
    · exact h.inside j hj t ht
    · obtain rfl := List.mem_singleton.mp hj
      rw [hi] at ht
      cases ht
  pending := h.pending

/-- A jump goes to a label that is there; its number is not larger as a machine word. -/
theorem Sound.pushJump {jump : UInt64 → Instruction} (h : b.Sound pending) (label : Nat) (hjump : IsJump jump)
    (hlabel : label < b.labels.length) : (b.pushJump jump label).Sound pending where
  inside := by
    intro i hi t ht
    rcases List.mem_append.mp hi with hi | hi
    · exact h.inside i hi t ht
    · obtain rfl := List.mem_singleton.mp hi
      rw [(hjump _ 0).1] at ht
      cases ht
      exact Nat.lt_of_le_of_lt (Nat.mod_le _ _) hlabel
  pending := h.pending

/-- A new label is behind those that are there. -/
theorem lt_newLabel (b : MethodBuilder) : b.labels.length < b.newLabel.2.labels.length := by
  rw [length_newLabel]
  exact Nat.lt_succ_self _

theorem lt_newLabel_newLabel (b : MethodBuilder) : b.labels.length < b.newLabel.2.newLabel.2.labels.length :=
  Nat.lt_trans b.lt_newLabel b.newLabel.2.lt_newLabel

theorem Sound.newLabel (h : b.Sound pending) : b.newLabel.2.Sound (b.labels.length :: pending) where
  inside := by
    intro i hi t ht
    have := h.inside i hi t ht
    rw [length_newLabel]
    omega
  pending := by
    intro label hopen
    rcases Nat.lt_trichotomy label b.labels.length with hlt | rfl | hgt
    · refine List.mem_cons_of_mem _ (h.pending label ?_)
      exact (List.getElem?_append_left hlt).symm.trans hopen
    · exact List.mem_cons_self
    · have := (List.getElem?_eq_some_iff.mp hopen).1
      rw [length_newLabel] at this
      omega

/-- A label that is bound is pending no more. -/
theorem Sound.bind (h : b.Sound pending) (label : Nat) (fewer : List Nat)
    (hfewer : ∀ other ∈ pending, other = label ∨ other ∈ fewer) : (b.bind label).Sound fewer where
  inside := by
    intro i hi t ht
    rw [length_bind]
    exact h.inside i hi t ht
  pending := by
    intro other hopen
    have hne : label ≠ other := by
      rintro rfl
      have hat := List.getElem?_eq_some_iff.mp hopen
      obtain ⟨hlt, hat⟩ := hat
      simp [MethodBuilder.bind] at hat
    have hother := h.pending other ((bind_open_of_ne hne).mp hopen)
    exact (hfewer other hother).resolve_left (Ne.symm hne)

theorem Sound.allocate (h : b.Sound pending) (name : String) : (b.allocate name).2.Sound pending := by
  obtain ⟨i, -, hallocate⟩ | ⟨-, hallocate⟩ := allocate_cases b name
  · rw [hallocate]
    exact h
  · rw [hallocate]
    exact ⟨h.inside, h.pending⟩

theorem mem_locals_allocate (b : MethodBuilder) (name : String) : name ∈ (b.allocate name).2.locals := by
  obtain ⟨i, hi, hallocate⟩ | ⟨-, hallocate⟩ := allocate_cases b name
  · rw [hallocate]
    obtain ⟨n, hn, -⟩ := Option.map_eq_some_iff.mp hi
    obtain ⟨hlt, hat⟩ := List.findIdx?_eq_some_iff_getElem.mp hn
    exact (show b.locals[n] = name by simpa using hat.1) ▸ List.getElem_mem hlt
  · rw [hallocate]
    exact List.mem_append_right _ (List.mem_singleton.mpr rfl)

theorem exists_local? {name : String} (h : name ∈ b.locals) : ∃ i, b.local? name = some i := by
  cases hlocal : b.local? name with
  | some i => exact ⟨i, rfl⟩
  | none => exact absurd h (List.idxOf?_eq_none_iff.mp (Option.map_eq_none_iff.mp hlocal))

/-! ### Building -/

theorem mapM_resolve_of_forall {labels : List (Option Nat)} : ∀ {is : List Instruction},
    (∀ i ∈ is, ∃ r, resolve labels i = .ok r) → ∃ rs, is.mapM (resolve labels) = .ok rs
  | [], _ => ⟨[], rfl⟩
  | i :: is, h => by
    obtain ⟨r, hr⟩ := h i List.mem_cons_self
    obtain ⟨rs, hrs⟩ := mapM_resolve_of_forall fun j hj => h j (List.mem_cons_of_mem _ hj)
    refine ⟨r :: rs, ?_⟩
    rw [List.mapM_cons, hr, hrs]
    rfl

/-- A sound method whose labels are all bound can be built. -/
theorem Sound.build (h : b.Sound []) : ∃ method, b.build = .ok method := by
  have hresolve : ∀ i ∈ b.code, ∃ r, resolve b.labels i = .ok r := by
    intro i hi
    unfold resolve
    cases ht : i.target? with
    | none => exact ⟨i, rfl⟩
    | some t =>
      dsimp only
      cases hlabel : b.labels[t.toNat]? with
      | none => exact absurd (h.inside i hi t ht) (Nat.not_lt.mpr (List.getElem?_eq_none_iff.mp hlabel))
      | some place? =>
        cases place? with
        | none => exact absurd (h.pending _ hlabel) List.not_mem_nil
        | some place => exact ⟨_, rfl⟩
  obtain ⟨code, hcode⟩ := mapM_resolve_of_forall hresolve
  refine ⟨⟨b.name, b.paramCount, UInt16.ofNat b.locals.length, code⟩, ?_⟩
  unfold MethodBuilder.build
  rw [hcode]
  rfl

/-- The instruction that returns nothing, which ends a method that has no other end. -/
theorem Sound.finished (h : b.Sound pending) : (if b.endsInReturn then b else b.push .retVoid).Sound pending := by
  split
  · exact h
  · exact h.push rfl

end MethodBuilder

namespace Build

variable {scope : Scope} {b : MethodBuilder} {pending : List Nat}

/-! ### Expressions -/

theorem meets_unsupported {α : Type} {reason : Unsupported} {P : α → MethodBuilder → Prop} :
    Meets CompileError.IsUnsupported (unsupported reason) b P := ⟨_, _, rfl⟩

theorem sound_loadThis (h : b.Sound pending) :
    Meets CompileError.IsUnsupported (loadThis scope) b fun _ b' => b'.Sound pending := by
  unfold loadThis
  split
  · exact h.push rfl
  · exact meets_unsupported

theorem sound_loadName (name : String) (h : b.Sound pending) :
    Meets CompileError.IsUnsupported (loadName scope name) b fun _ b' => b'.Sound pending := by
  unfold loadName
  split
  · exact h.push rfl
  · split
    · exact meets_unsupported
    · exact (sound_loadThis h).bind fun _ _ _ h' => h'.push rfl

/-- The label is there as long as the method only grows. -/
theorem lt_labels {b₁ b₂ : MethodBuilder} {n label : Nat} (h : b₁.Grows n b₂) (hlabel : label < b₁.labels.length) :
    label < b₂.labels.length := Nat.lt_of_lt_of_le hlabel h.labels.length_le

/-- The left operand of `&&` or `||`, and what follows it. -/
theorem sound_deciding {jump : UInt64 → Instruction} {decided : Bool} {l r : Expr} (hjump : IsJump jump)
    (hl : ∀ {pending} {b : MethodBuilder}, b.Sound pending →
      Meets CompileError.IsUnsupported (expression scope l) b fun _ b' => b'.Sound pending)
    (hr : ∀ {pending} {b : MethodBuilder}, b.Sound pending →
      Meets CompileError.IsUnsupported (expression scope r) b fun _ b' => b'.Sound pending) (h : b.Sound pending) :
    Meets CompileError.IsUnsupported (do
      expression scope l
      emitJump jump b.labels.length
      expression scope r
      emitJump .jump b.newLabel.2.labels.length
      bind b.labels.length
      emit (.pushBool decided)
      bind b.newLabel.2.labels.length) b.newLabel.2.newLabel.2 fun _ b' => b'.Sound pending := by
  refine (hl h.newLabel.newLabel).bind fun _ b₁ hrun₁ h₁ => ?_
  have hgrows₁ := grows_expression l hrun₁
  have hshort : b.labels.length < b₁.labels.length := lt_labels hgrows₁ b.lt_newLabel_newLabel
  have hdone : b.newLabel.2.labels.length < b₁.labels.length := lt_labels hgrows₁ b.newLabel.2.lt_newLabel
  show Meets _ (expression scope r >>= _) (b₁.pushJump jump b.labels.length) _
  refine (hr (h₁.pushJump _ hjump hshort)).bind fun _ b₂ hrun₂ h₂ => ?_
  have hgrows₂ := grows_expression r hrun₂
  have hjump₂ := h₂.pushJump _ isJump_jump (lt_labels hgrows₂ hdone)
  have hbound : ((b₂.pushJump .jump b.newLabel.2.labels.length).bind b.labels.length).Sound
      (b.newLabel.2.labels.length :: pending) := by
    refine hjump₂.bind _ _ fun other hother => ?_
    simp only [List.mem_cons] at hother ⊢
    tauto
  exact (hbound.push (i := .pushBool decided) rfl).bind _ _ fun other hother => List.mem_cons.mp hother

mutual

/-- Lowering an expression keeps a method sound, or finds the expression unsupported. -/
theorem sound_expression : ∀ (e : Expr) {pending : List Nat} {b : MethodBuilder}, b.Sound pending →
    Meets CompileError.IsUnsupported (expression scope e) b fun _ b' => b'.Sound pending
  | .literal v _, _, _, h => by
    rw [expression]
    exact h.push (by cases v <;> rfl)
  | .name n _, _, _, h => by
    rw [expression]
    exact sound_loadName n h
  | .this _, _, _, h => by
    rw [expression]
    exact sound_loadThis h
  | .member object n _, _, _, h => by
    rw [expression]
    split
    · exact h.push rfl
    · exact (sound_expression object h).bind fun _ _ _ h₁ => h₁.push rfl
  | .call callee args _, _, _, h => by
    rw [expression]
    split
    · refine (sound_receiver callee h).bind fun invoke b₁ _ ⟨h₁, hinvoke⟩ => ?_
      exact (sound_arguments args h₁).bind fun _ _ _ h₂ => h₂.push (hinvoke _)
    · exact meets_unsupported
  | .unary op e _, _, _, h => by
    rw [expression]
    exact (sound_expression e h).bind fun _ _ _ h₁ => h₁.push rfl
  | .binary op l r s, pending, b, h => by
    cases hop : StrictOp.ofBinary? op with
    | some strict =>
      have hsteps : expression scope (.binary op l r s) =
          (expression scope l >>= fun _ => expression scope r >>= fun _ => emit (.binary strict)) := by
        cases op <;> cases hop <;> rfl
      rw [hsteps]
      refine (sound_expression l h).bind fun _ b₁ _ h₁ => ?_
      exact (sound_expression r h₁).bind fun _ _ _ h₂ => h₂.push rfl
    | none =>
      cases op <;> cases hop
      · exact sound_deciding isJump_jumpIfFalse (sound_expression l) (sound_expression r) h
      · exact sound_deciding isJump_jumpIfTrue (sound_expression l) (sound_expression r) h
      · show Meets _ (expression scope l >>= _) b.newLabel.2 _
        refine (sound_expression l h.newLabel).bind fun _ b₁ hrun₁ h₁ => ?_
        have hdone : b.labels.length < b₁.labels.length := lt_labels (grows_expression l hrun₁) b.lt_newLabel
        show Meets _ (expression scope r >>= _) (b₁.pushJump .jumpIfNotNull b.labels.length) _
        refine (sound_expression r (h₁.pushJump _ isJump_jumpIfNotNull hdone)).bind fun _ b₂ _ h₂ => ?_
        exact h₂.bind _ _ fun other hother => List.mem_cons.mp hother
  | .conditional c t e s, pending, b, h => by
    show Meets _ (expression scope c >>= _) b.newLabel.2.newLabel.2 _
    refine (sound_expression c h.newLabel.newLabel).bind fun _ b₁ hrun₁ h₁ => ?_
    have hgrows₁ := grows_expression c hrun₁
    have hotherwise : b.labels.length < b₁.labels.length := lt_labels hgrows₁ b.lt_newLabel_newLabel
    have hdone : b.newLabel.2.labels.length < b₁.labels.length := lt_labels hgrows₁ b.newLabel.2.lt_newLabel
    show Meets _ (expression scope t >>= _) (b₁.pushJump .jumpIfFalse b.labels.length) _
    refine (sound_expression t (h₁.pushJump _ isJump_jumpIfFalse hotherwise)).bind fun _ b₂ hrun₂ h₂ => ?_
    have hjump := h₂.pushJump _ isJump_jump (lt_labels (grows_expression t hrun₂) hdone)
    have hbound : ((b₂.pushJump .jump b.newLabel.2.labels.length).bind b.labels.length).Sound
        (b.newLabel.2.labels.length :: pending) := by
      refine hjump.bind _ _ fun other hother => ?_
      simp only [List.mem_cons] at hother ⊢
      tauto
    show Meets _ (expression scope e >>= _) ((b₂.pushJump .jump b.newLabel.2.labels.length).bind b.labels.length) _
    refine (sound_expression e hbound).bind fun _ b₃ _ h₃ => ?_
    exact h₃.bind _ _ fun other hother => List.mem_cons.mp hother
  | .lambda _ _ _ _, _, _, _ => meets_unsupported

/-- Lowering the receiver of a call keeps a method sound, and the call that it gives is no jump. -/
theorem sound_receiver : ∀ (e : Expr) {pending : List Nat} {b : MethodBuilder}, b.Sound pending →
    Meets CompileError.IsUnsupported (receiver scope e) b fun invoke b' =>
      b'.Sound pending ∧ ∀ argc, (invoke argc).target? = none
  | .name n _, _, _, h => by
    rw [receiver]
    split
    · exact (sound_loadThis h).bind fun _ _ _ h₁ => ⟨h₁, fun _ => rfl⟩
    · exact meets_unsupported
  | .member object n _, _, _, h => by
    rw [receiver]
    split
    · exact ⟨h, fun _ => rfl⟩
    · exact (sound_expression object h).bind fun _ _ _ h₁ => ⟨h₁, fun _ => rfl⟩
  | .literal _ _, _, _, _ | .this _, _, _, _ | .call _ _ _, _, _, _ | .unary _ _ _, _, _, _
  | .binary _ _ _ _, _, _, _ | .conditional _ _ _ _, _, _, _ | .lambda _ _ _ _, _, _, _ => meets_unsupported

/-- Lowering arguments keeps a method sound, or finds one unsupported. -/
theorem sound_arguments : ∀ (es : List Expr) {pending : List Nat} {b : MethodBuilder}, b.Sound pending →
    Meets CompileError.IsUnsupported (arguments scope es) b fun _ b' => b'.Sound pending
  | [], _, _, h => by
    rw [arguments]
    exact h
  | e :: es, _, _, h => by
    rw [arguments]
    exact (sound_expression e h).bind fun _ _ _ h₁ => sound_arguments es h₁

end

/-! ### Operands -/

variable {hooks params : List String}

theorem sound_operand (value : Operand) (h : b.Sound pending) :
    Meets CompileError.IsUnsupported (operand params value) b fun _ b' => b'.Sound pending := by
  cases value with
  | argument | slot _ | bool _ => exact h.push rfl
  | application _ | method _ => exact (h.push (i := .loadThis) rfl).push rfl
  | expression body => exact sound_expression body h
  | helperValue slot type =>
    have h₁ := (h.newLabel.newLabel.push (i := .loadField slot) rfl).pushJump b.labels.length
      isJump_jumpIfNotNull b.lt_newLabel_newLabel
    have h₂ := (h₁.push (i := .pushDefault type.text) rfl).pushJump b.newLabel.2.labels.length
      isJump_jump b.newLabel.2.lt_newLabel
    have h₃ := h₂.bind b.labels.length (b.newLabel.2.labels.length :: pending) (by simp; tauto)
    exact (h₃.push (i := .getProperty "Value") rfl).bind _ _ fun other hother => List.mem_cons.mp hother

end Build

namespace Statement

/-! ### Locale objects -/

/-- The locale objects that a statement registers. -/
def registers : Statement → List String
  | .registerLocale _ _ object => [object]
  | _ => []

mutual

/-- A statement uses registered locale objects only, those being `known` that are registered before it. -/
def Registered (known : List String) : Statement → Prop
  | .addLocaleProperty object _ _ _ => object ∈ known
  | .ifUnset _ body => RegisteredAll known body
  | _ => True

/-- Each of the statements uses locale objects only that are registered before it. -/
def RegisteredAll (known : List String) : List Statement → Prop
  | [] => True
  | s :: rest => s.Registered known ∧ RegisteredAll (s.registers ++ known) rest

end

/-- Statements that need no locale object at all. -/
theorem registeredAll_of_forall : ∀ {ss : List Statement} {known : List String},
    (∀ s ∈ ss, ∀ known, s.Registered known) → RegisteredAll known ss
  | [], _, _ => by
    rw [RegisteredAll]
    trivial
  | s :: ss, known, h => by
    rw [RegisteredAll]
    exact ⟨h s List.mem_cons_self known, registeredAll_of_forall fun t ht => h t (List.mem_cons_of_mem _ ht)⟩

/-- Statements behind others that leave the known objects known. -/
theorem registeredAll_append : ∀ {ss ts : List Statement} {known : List String}, RegisteredAll known ss →
    (∀ more, RegisteredAll (more ++ known) ts) → RegisteredAll known (ss ++ ts)
  | [], _, _, _, h => h []
  | s :: ss, ts, known, hss, hts => by
    rw [RegisteredAll] at hss
    rw [List.cons_append, RegisteredAll]
    refine ⟨hss.1, registeredAll_append hss.2 fun more => ?_⟩
    rw [← List.append_assoc]
    exact hts _

end Statement

namespace Build

variable {b : MethodBuilder} {pending : List Nat} {hooks params : List String}

/-! ### Statements -/

mutual

/-- Lowering a statement keeps a method sound, or finds an expression of it unsupported. -/
theorem sound_statement : ∀ (s : Statement) {pending : List Nat} {b : MethodBuilder} {known : List String},
    b.Sound pending → (∀ object ∈ known, object ∈ b.locals) → s.Registered known →
      Meets CompileError.IsUnsupported (statement hooks params s) b fun _ b' =>
        b'.Sound pending ∧ ∀ object ∈ s.registers, object ∈ b'.locals
  | .returnIfUnchanged slot, pending, b, _, h, _, _ => by
    refine ⟨?_, nofun⟩
    have h₁ := ((h.newLabel.push (i := .loadField slot) rfl).push (i := .loadArg 0) rfl).push (i := .binary .eq) rfl
    have h₂ := h₁.pushJump b.labels.length isJump_jumpIfFalse b.lt_newLabel
    exact (h₂.push (i := .retVoid) rfl).bind _ _ fun other hother => List.mem_cons.mp hother
  | .captureOld slot, _, _, _, h, _, _ =>
    ⟨((h.allocate "oldValue").push (i := .loadField slot) rfl).push rfl, nofun⟩
  | .raiseChanging _, _, _, _, h, _, _ | .raiseChanged _, _, _, _, h, _, _ => ⟨h.push rfl, nofun⟩
  | .callHook hook, _, _, _, h, _, _ => by
    rw [statement]
    split
    · exact ⟨(((h.allocate "oldValue").push (i := .loadLocal _) rfl).push (i := .loadArg 0) rfl).push rfl, nofun⟩
    · exact ⟨h, nofun⟩
  | .storeValue slot, _, _, _, h, _, _ => ⟨(h.push (i := .loadArg 0) rfl).push rfl, nofun⟩
  | .callMethod method passesValue, _, _, _, h, _, _ => by
    cases passesValue
    · exact ⟨((h.push (i := .loadThis) rfl).push (i := .callMethod method 0) rfl).push rfl, nofun⟩
    · exact ⟨(((h.push (i := .loadThis) rfl).push (i := .loadArg 0) rfl).push (i := .callMethod method 1) rfl).push rfl,
        nofun⟩
  | .setIfChanged slot value property, pending, b, _, h, _, _ => by
    show Meets _ (operand params value >>= _) b.newLabel.2 _
    refine (sound_operand value h.newLabel).bind fun _ b₁ hrun₁ h₁ => ⟨?_, nofun⟩
    have hunchanged : b.labels.length < (b₁.allocate "newValue").2.labels.length := by
      rw [labels_allocate]
      exact lt_labels (grows_operand hrun₁) b.lt_newLabel
    have h₂ := (((h₁.allocate "newValue").push (i := .storeLocal (b₁.allocate "newValue").1) rfl).push
      (i := .loadField slot) rfl).push (i := .loadLocal (b₁.allocate "newValue").1) rfl
    have h₃ := (h₂.push (i := .binary .eq) rfl).pushJump _ isJump_jumpIfTrue hunchanged
    have h₄ := (h₃.push (i := .raiseChanging property) rfl).push (i := .loadLocal (b₁.allocate "newValue").1) rfl
    have h₅ := (h₄.push (i := .storeField slot) rfl).push (i := .raiseChanged property) rfl
    exact h₅.bind _ _ fun other hother => List.mem_cons.mp hother
  | .store slot value, _, _, _, h, _, _ => by
    rw [statement]
    exact (sound_operand value h).bind fun _ _ _ h₁ => ⟨h₁.push rfl, nofun⟩
  | .ifUnset flag body, pending, b, known, h, hknown, hregistered => by
    rw [Statement.Registered] at hregistered
    have h₁ := (h.newLabel.push (i := .loadField flag) rfl).pushJump b.labels.length isJump_jumpIfTrue
      b.lt_newLabel
    show Meets _ (statements hooks params body >>= _)
      ((b.newLabel.2.push (.loadField flag)).pushJump .jumpIfTrue b.labels.length) _
    refine (sound_statements body h₁ hknown hregistered).bind fun _ b₂ _ h₂ => ⟨?_, nofun⟩
    exact h₂.bind _ _ fun other hother => List.mem_cons.mp hother
  | .ret value, _, _, _, h, _, _ => by
    rw [statement]
    exact (sound_operand value h).bind fun _ _ _ h₁ => ⟨h₁.push rfl, nofun⟩
  | .returnCommand slot factory, pending, b, _, h, _, _ => by
    refine ⟨?_, nofun⟩
    have h₁ := (h.newLabel.push (i := .loadField slot) rfl).pushJump b.labels.length isJump_jumpIfNotNull
      b.lt_newLabel
    have h₂ := ((h₁.push (i := .newCommand ⟨factory.method, factory.argumentType.isSome, factory.isAsync,
      factory.enablement⟩) rfl).push (i := .dup) rfl).push (i := .storeField slot) rfl
    have h₃ := h₂.bind b.labels.length pending fun other hother => List.mem_cons.mp hother
    exact h₃.push rfl
  | .registerLocale registry grouping object, pending, b, _, h, _, _ => by
    refine ⟨((h.allocate object).push (i := .registerLocale registry grouping) rfl).push rfl, fun other hother => ?_⟩
    obtain rfl := List.mem_singleton.mp hother
    exact mem_locals_allocate b other
  | .addLocaleProperty object key target retain, pending, b, known, h, hknown, hregistered => by
    rw [Statement.Registered] at hregistered
    obtain ⟨i, hi⟩ := exists_local? (hknown object hregistered)
    rw [statement]
    show Meets _ (match b.local? object with
      | some registration => do
        emit (.loadLocal registration)
        emit (.addLocaleProperty key target retain)
      | none => throw (.internal (.localeBeforeRegistration object))) b _
    rw [hi]
    exact ⟨(h.push (i := .loadLocal i) rfl).push rfl, nofun⟩

/-- Lowering statements keeps a method sound, or finds an expression of them unsupported. -/
theorem sound_statements : ∀ (ss : List Statement) {pending : List Nat} {b : MethodBuilder} {known : List String},
    b.Sound pending → (∀ object ∈ known, object ∈ b.locals) → Statement.RegisteredAll known ss →
      Meets CompileError.IsUnsupported (statements hooks params ss) b fun _ b' => b'.Sound pending
  | [], _, _, _, h, _, _ => by
    rw [statements]
    exact h
  | s :: rest, _, b, known, h, hknown, hregistered => by
    rw [Statement.RegisteredAll] at hregistered
    rw [statements]
    refine (sound_statement s h hknown hregistered.1).bind fun _ b₁ hrun₁ ⟨h₁, hregisters⟩ => ?_
    refine sound_statements rest h₁ (fun object hobject => ?_) hregistered.2
    rcases List.mem_append.mp hobject with hobject | hobject
    · exact hregisters object hobject
    · exact (grows_statement s hrun₁).locals.subset (hknown object hobject)

end

end Build

end Reactive
