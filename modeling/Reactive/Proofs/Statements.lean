import Mathlib.Tactic.Common
import Reactive.Patch.Assembly
import Reactive.Proofs.Interpretation
import Reactive.Proofs.Lowering

/-!
# Reactive.Proofs.Statements — instructions do what their statements do

`Build.statement` against `Run.interpret`.

* Growth: the lowering of statements only adds, and counts its locals (`grows_statement`).
* `localsOf`: the locals of a frame, from what is kept under names.
* Simulation: wherever the instructions of statements stand in a built method, from the first of them on the method does
  what the interpretation of the statements does, and stands behind the last one unless it has returned
  (`performs_statements`).
-/

namespace Reactive

open Stateful MethodBuilder

mutual

/-- The number of times that a statement asks for a local. -/
def Statement.localCount : Statement → Nat
  | .captureOld _ | .callHook _ | .setIfChanged .. | .registerLocale .. => 1
  | .ifUnset _ body => localCountAll body
  | _ => 0

/-- The number of times that statements ask for a local. -/
def Statement.localCountAll : List Statement → Nat
  | [] => 0
  | s :: rest => s.localCount + localCountAll rest

end

namespace Build

variable {hooks params : List String} {b b' : MethodBuilder} {u : Unit}

/-! ### What the lowering of statements consists of -/

/-- The instructions of the value of an observable helper. -/
theorem helperValue_eq_ok {slot : String} {type : TypeRef}
    (h : operand params (.helperValue slot type) b = .ok u b') :
    b' = ((((((b.newLabel.2.newLabel.2.push (.loadField slot)).pushJump .jumpIfNotNull b.labels.length).push
      (.pushDefault type.text)).pushJump .jump b.newLabel.2.labels.length).bind b.labels.length).push
      (.getProperty "Value")).bind b.newLabel.2.labels.length := by
  cases h
  rfl

theorem returnIfUnchanged_eq_ok {slot : String}
    (h : statement hooks params (.returnIfUnchanged slot) b = .ok u b') :
    b' = (((((b.newLabel.2.push (.loadField slot)).push (.loadArg 0)).push (.binary .eq)).pushJump .jumpIfFalse
      b.labels.length).push .retVoid).bind b.labels.length := by
  cases h
  rfl

theorem returnCommand_eq_ok {slot : String} {factory : CommandFactory}
    (h : statement hooks params (.returnCommand slot factory) b = .ok u b') :
    b' = ((((((b.newLabel.2.push (.loadField slot)).pushJump .jumpIfNotNull b.labels.length).push
      (.newCommand ⟨factory.method, factory.argumentType.isSome, factory.isAsync, factory.enablement⟩)).push
      .dup).push (.storeField slot)).bind b.labels.length).push .ret := by
  cases h
  rfl

theorem callHook_eq_ok {hook : String} (h : statement hooks params (.callHook hook) b = .ok u b') :
    (hooks.contains hook = true ∧ b' = ((((b.allocate "oldValue").2.push
        (.loadLocal (b.allocate "oldValue").1)).push (.loadArg 0)).push (.callHook hook 2))) ∨
      (hooks.contains hook = false ∧ b' = b) := by
  rw [statement] at h
  cases hc : hooks.contains hook with
  | true =>
    rw [hc, if_pos rfl] at h
    cases h
    exact Or.inl ⟨rfl, rfl⟩
  | false =>
    rw [hc, if_neg (by simp)] at h
    cases h
    exact Or.inr ⟨rfl, rfl⟩

theorem setIfChanged_eq_ok {slot property : String} {value : Operand}
    (h : statement hooks params (.setIfChanged slot value property) b = .ok u b') :
    ∃ b₁, operand params value b.newLabel.2 = .ok () b₁ ∧
      b' = ((((((((((b₁.allocate "newValue").2.push (.storeLocal (b₁.allocate "newValue").1)).push
        (.loadField slot)).push (.loadLocal (b₁.allocate "newValue").1)).push (.binary .eq)).pushJump .jumpIfTrue
        b.labels.length).push (.raiseChanging property)).push (.loadLocal (b₁.allocate "newValue").1)).push
        (.storeField slot)).push (.raiseChanged property)).bind b.labels.length := by
  obtain ⟨_, b₁, h₁, h⟩ := bind_eq_ok.mp (show (operand params value >>= _) b.newLabel.2 = _ from h)
  refine ⟨b₁, h₁, ?_⟩
  cases h
  rfl

theorem store_eq_ok {slot : String} {value : Operand} (h : statement hooks params (.store slot value) b = .ok u b') :
    ∃ b₁, operand params value b = .ok () b₁ ∧ b' = b₁.push (.storeField slot) := by
  obtain ⟨_, b₁, h₁, h⟩ := bind_eq_ok.mp (show (operand params value >>= _) b = _ from h)
  exact ⟨b₁, h₁, (emit_eq_ok.mp h).symm⟩

theorem ret_eq_ok {value : Operand} (h : statement hooks params (.ret value) b = .ok u b') :
    ∃ b₁, operand params value b = .ok () b₁ ∧ b' = b₁.push .ret := by
  obtain ⟨_, b₁, h₁, h⟩ := bind_eq_ok.mp (show (operand params value >>= _) b = _ from h)
  exact ⟨b₁, h₁, (emit_eq_ok.mp h).symm⟩

theorem ifUnset_eq_ok {flag : String} {body : List Statement}
    (h : statement hooks params (.ifUnset flag body) b = .ok u b') :
    ∃ b₁, statements hooks params body
        ((b.newLabel.2.push (.loadField flag)).pushJump .jumpIfTrue b.labels.length) = .ok () b₁ ∧
      b' = b₁.bind b.labels.length := by
  obtain ⟨_, b₁, h₁, h⟩ := bind_eq_ok.mp
    (show (statements hooks params body >>= _)
      ((b.newLabel.2.push (.loadField flag)).pushJump .jumpIfTrue b.labels.length) = _ from h)
  refine ⟨b₁, h₁, ?_⟩
  cases h
  rfl

theorem addLocaleProperty_eq_ok {object key target : String} {retain : Bool}
    (h : statement hooks params (.addLocaleProperty object key target retain) b = .ok u b') :
    ∃ i, b.local? object = some i ∧ b' = (b.push (.loadLocal i)).push (.addLocaleProperty key target retain) := by
  rw [statement] at h
  obtain ⟨b₀, b₁, h₀, h⟩ := bind_eq_ok.mp h
  obtain ⟨rfl, rfl⟩ := get_eq_ok.mp h₀
  cases hi : b.local? object with
  | some i =>
    rw [hi] at h
    refine ⟨i, rfl, ?_⟩
    cases h
    rfl
  | none =>
    rw [hi] at h
    cases h

theorem statements_cons_eq_ok {s : Statement} {rest : List Statement}
    (h : statements hooks params (s :: rest) b = .ok u b') :
    ∃ b₁, statement hooks params s b = .ok () b₁ ∧ statements hooks params rest b₁ = .ok () b' := by
  obtain ⟨_, b₁, h₁, h₂⟩ := bind_eq_ok.mp (show (statement hooks params s >>= _) b = _ from h)
  exact ⟨b₁, h₁, h₂⟩

/-! ### Lowering only adds -/

/-- A new label may be bound behind a piece that pays for it. -/
theorem grows_bind_newLabel {b₁ : MethodBuilder} {n : Nat} (h : b.newLabel.2.Grows n b₁)
    (hpaid : b₁.labels.length + b.code.length ≤ b.labels.length + b₁.code.length) :
    b.Grows n (b₁.bind b.labels.length) where
  name := h.name
  paramCount := h.paramCount
  code := h.code
  labels := labels_prefix_bind ((labels_prefix_newLabel b).trans h.labels) (Nat.le_refl _)
  locals := h.locals
  nodup := h.nodup
  few := h.few
  paid := by rwa [length_bind, code_bind]

theorem grows_operand {value : Operand} (h : operand params value b = .ok u b') : b.Grows 0 b' := by
  cases value with
  | expression body => exact grows_expression body h
  | helperValue slot type =>
    have hlabels : b.labels <+: b.newLabel.2.newLabel.2.labels :=
      (labels_prefix_newLabel b).trans (labels_prefix_newLabel b.newLabel.2)
    have hgrows := ((grows_push b.newLabel.2.newLabel.2 (.loadField slot)).trans
      (grows_pushJump _ .jumpIfNotNull b.labels.length)).trans ((grows_push _ (.pushDefault type.text)).trans
      (grows_pushJump _ .jump b.newLabel.2.labels.length))
    rw [helperValue_eq_ok h]
    refine ⟨hgrows.name, hgrows.paramCount, hgrows.code.trans (List.prefix_append _ _), ?_, hgrows.locals,
      hgrows.nodup, hgrows.few, ?_⟩
    · exact labels_prefix_bind (labels_prefix_bind hlabels (Nat.le_refl _)) (by simp)
    · simp only [length_bind, labels_push, labels_pushJump, length_newLabel, code_bind, length_push, length_pushJump,
        code_newLabel]
      omega
  | application function =>
    cases h
    exact (grows_push b .loadThis).trans (grows_push _ _)
  | method name =>
    cases h
    exact (grows_push b .loadThis).trans (grows_push _ _)
  | argument | slot _ | bool _ =>
    cases h
    exact grows_push b _

mutual

/-- Lowering a statement only adds. -/
theorem grows_statement : ∀ (s : Statement) {b b' : MethodBuilder} {u : Unit},
    statement hooks params s b = .ok u b' → b.Grows s.localCount b'
  | .returnIfUnchanged slot, b, b', u, h => by
    rw [returnIfUnchanged_eq_ok h]
    refine grows_bind_newLabel ((((((grows_push _ (.loadField slot)).trans (grows_push _ (.loadArg 0))).trans
      (grows_push _ (.binary .eq))).trans (grows_pushJump _ .jumpIfFalse _)).trans (grows_push _ .retVoid))) ?_
    simp
    omega
  | .captureOld slot, b, b', u, h => by
    cases h
    exact ((grows_allocate b "oldValue").trans (grows_push _ _)).trans (grows_push _ _)
  | .raiseChanging property, b, b', u, h => by
    cases h
    exact grows_push b _
  | .raiseChanged property, b, b', u, h => by
    cases h
    exact grows_push b _
  | .callHook hook, b, b', u, h => by
    obtain ⟨-, rfl⟩ | ⟨-, rfl⟩ := callHook_eq_ok h
    · exact (((grows_allocate b "oldValue").trans (grows_push _ _)).trans (grows_push _ _)).trans (grows_push _ _)
    · exact (Grows.refl _).mono (Nat.zero_le _)
  | .storeValue slot, b, b', u, h => by
    cases h
    exact (grows_push b (.loadArg 0)).trans (grows_push _ _)
  | .callMethod method passesValue, b, b', u, h => by
    cases passesValue
    · cases h
      exact ((grows_push b .loadThis).trans (grows_push _ _)).trans (grows_push _ _)
    · cases h
      exact (((grows_push b .loadThis).trans (grows_push _ _)).trans (grows_push _ _)).trans (grows_push _ _)
  | .setIfChanged slot value property, b, b', u, h => by
    obtain ⟨b₁, h₁, rfl⟩ := setIfChanged_eq_ok h
    have hvalue := grows_operand h₁
    have hpaid := hvalue.paid
    refine grows_bind_newLabel (((((((((((hvalue.trans (grows_allocate b₁ "newValue")).trans
      (grows_push _ _)).trans (grows_push _ _)).trans (grows_push _ _)).trans (grows_push _ _)).trans
      (grows_pushJump _ .jumpIfTrue _)).trans (grows_push _ _)).trans (grows_push _ _)).trans
      (grows_push _ _)).trans (grows_push _ _)).mono (Nat.le_refl 1)) ?_
    have hcode := (grows_allocate b₁ "newValue").position_le
    simp [position] at hpaid hcode ⊢
    omega
  | .store slot value, b, b', u, h => by
    obtain ⟨b₁, h₁, rfl⟩ := store_eq_ok h
    exact (grows_operand h₁).trans (grows_push _ _)
  | .ifUnset flag body, b, b', u, h => by
    obtain ⟨b₁, h₁, rfl⟩ := ifUnset_eq_ok h
    have hbody := grows_statements body h₁
    have hpaid := hbody.paid
    refine grows_bind_newLabel ((((grows_push _ (.loadField flag)).trans (grows_pushJump _ .jumpIfTrue _)).trans
      hbody).mono (by rw [Statement.localCount]; omega)) ?_
    simp at hpaid ⊢
    omega
  | .ret value, b, b', u, h => by
    obtain ⟨b₁, h₁, rfl⟩ := ret_eq_ok h
    exact (grows_operand h₁).trans (grows_push _ _)
  | .returnCommand slot factory, b, b', u, h => by
    rw [returnCommand_eq_ok h]
    refine Grows.trans (n := 0) (grows_bind_newLabel (((((grows_push _ (.loadField slot)).trans
      (grows_pushJump _ .jumpIfNotNull _)).trans (grows_push _ (.newCommand _))).trans (grows_push _ .dup)).trans
      (grows_push _ (.storeField slot))) ?_) (grows_push _ .ret)
    simp
    omega
  | .registerLocale registry grouping object, b, b', u, h => by
    cases h
    exact ((grows_allocate b object).trans (grows_push _ _)).trans (grows_push _ _)
  | .addLocaleProperty object key target retain, b, b', u, h => by
    obtain ⟨i, -, rfl⟩ := addLocaleProperty_eq_ok h
    exact (grows_push b _).trans (grows_push _ _)

/-- Lowering statements only adds. -/
theorem grows_statements : ∀ (ss : List Statement) {b b' : MethodBuilder} {u : Unit},
    statements hooks params ss b = .ok u b' → b.Grows (Statement.localCountAll ss) b'
  | [], b, _, _, h => by
    cases h
    exact .refl b
  | s :: rest, _, _, _, h => by
    obtain ⟨b₁, h₁, h₂⟩ := statements_cons_eq_ok h
    exact (grows_statement s h₁).trans (grows_statements rest h₂)

end

end Build

namespace Run

open Build

variable {enter : Enter} {a : Activation} {built b b' : MethodBuilder} {hooks params : List String}

/-! ### Locals of a frame -/

/-- The locals of a frame in a built method, from what is kept under names. -/
def localsOf (built : MethodBuilder) (names : Table Value) : List Value := built.locals.map names.kept

theorem kept_put (names : Table Value) (name other : String) (v : Value) :
    (names.put name v).kept other = if other = name then v else names.kept other := by
  unfold Table.kept
  split
  · rename_i h
    rw [h, Table.find?_put_self]
    rfl
  · rename_i h
    rw [Table.find?_put_of_ne _ _ h]

theorem set_localsOf {i : UInt16} {name : String} (hnodup : built.locals.Nodup) (hi : built.IsLocal i name)
    (names : Table Value) (v : Value) : (localsOf built names).set i.toNat v = localsOf built (names.put name v) := by
  obtain ⟨hlt, hat⟩ := List.getElem?_eq_some_iff.mp hi
  refine List.ext_getElem (by simp [localsOf]) fun j hj hj' => ?_
  simp only [localsOf, List.length_map] at hj'
  simp only [localsOf, List.getElem_set, List.getElem_map, kept_put]
  by_cases hij : i.toNat = j
  · subst hij
    rw [if_pos rfl, if_pos hat]
  · rw [if_neg hij, if_neg]
    intro hname
    exact hij ((List.getElem_inj hnodup).mp (hat.trans hname.symm))

theorem simulates_storeLocal {i : UInt16} {name : String} (hbuilt : Built built a.method)
    (hext : (b.push (.storeLocal i)).Extends built) (hnodup : built.locals.Nodup) (hi : built.IsLocal i name)
    (v : Value) (stack : List Value) (names : Table Value) :
    Simulates enter a ⟨b.position, v :: stack, localsOf built names⟩ (pure ())
      (fun _ => .go ⟨(b.push (.storeLocal i)).position, stack, localsOf built (names.put name v)⟩) := by
  have hlt : i.toNat < (localsOf built names).length := by
    rw [localsOf, List.length_map]
    exact (List.getElem?_eq_some_iff.mp hi).1
  rw [position_push]
  refine Simulates.instruction (k := fun _ => ⟨b.position + 1, stack, localsOf built (names.put name v)⟩)
    (fetched hbuilt.build hext rfl) ?_ fun _ => Nat.lt_succ_self _
  rw [step_storeLocal enter a _ stack _ v hlt, set_localsOf hnodup hi]
  rfl

theorem simulates_loadLocal (enter : Enter) {i : UInt16} {name : String} (hbuilt : Built built a.method)
    (hext : (b.push (.loadLocal i)).Extends built) (hi : built.IsLocal i name) (stack : List Value)
    (names : Table Value) :
    Simulates enter a ⟨b.position, stack, localsOf built names⟩ (pure (names.kept name))
      (fun v => .go ⟨(b.push (.loadLocal i)).position, v :: stack, localsOf built names⟩) := by
  have hat : (localsOf built names)[i.toNat]? = some (names.kept name) := by
    rw [localsOf, List.getElem?_map, show built.locals[i.toNat]? = some name from hi]
    rfl
  refine simulates_push (k := fun v => v :: stack) hbuilt hext rfl ?_
  rw [step_loadLocal enter a _ stack _ (names.kept name) hat]
  rfl

/-! ### Operands -/

theorem computes_helperValue {slot : String} {type : TypeRef} (hbuilt : Built built a.method)
    (h : operand params (.helperValue slot type) b = .ok () b') :
    Computes enter a built b b' (operandValue enter a params (.helperValue slot type)) := by
  intro hext stack locals
  have hlast := helperValue_eq_ok h
  have hne : b.labels.length ≠ b.newLabel.2.labels.length := by simp
  set b₂ := b.newLabel.2.newLabel.2.push (.loadField slot) with hb₂
  set b₃ := b₂.pushJump .jumpIfNotNull b.labels.length with hb₃
  set b₄ := b₃.push (.pushDefault type.text) with hb₄
  set b₅ := b₄.pushJump .jump b.newLabel.2.labels.length with hb₅
  set b₆ := b₅.bind b.labels.length with hb₆
  set b₇ := b₆.push (.getProperty "Value") with hb₇
  have hopen : b₅.Open b.labels.length := getElem?_of_leading (labels_prefix_newLabel _) (open_newLabel b)
  have hopen' : b₇.Open b.newLabel.2.labels.length :=
    (bind_open_of_ne hne).mpr (show b₅.Open _ from open_newLabel b.newLabel.2)
  have h₇ : b₇.Extends built := (hlast ▸ extends_bind hopen').trans hext
  have h₆ : b₆.Extends built := (grows_push b₆ _).extends.trans h₇
  have h₅ : b₅.Extends built := (extends_bind hopen).trans h₆
  have h₄ : b₄.Extends built := (grows_pushJump b₄ _ _).extends.trans h₅
  have h₃ : b₃.Extends built := (grows_push b₃ _).extends.trans h₄
  have h₂ : b₂.Extends built := (grows_pushJump b₂ _ _).extends.trans h₃
  have hpresent : built.Bound b.labels.length b₆.position := h₆.bound _ _ (bound_bind hopen)
  have hdone : built.Bound b.newLabel.2.labels.length b'.position := hext.bound _ _ (hlast ▸ bound_bind hopen')
  have hpos : b'.position = b₇.position := by rw [hlast]; rfl
  refine (simulates_push (b := b.newLabel.2.newLabel.2) hbuilt h₂ rfl (step_loadField ..)).seq fun v => ?_
  refine (simulates_notNull hbuilt h₃ h₆ hpresent (by simp [hb₆, hb₅, hb₄, hb₃]; omega)).before ?_
  by_cases hv : v = .null
  · rw [if_pos hv, if_pos hv]
    have hdefault : Simulates enter a ⟨b₃.position, stack, locals⟩ (pure (Value.defaultOf type.text))
        (fun w => .go ⟨b₄.position, w :: stack, locals⟩) := simulates_push hbuilt h₄ rfl rfl
    refine hdefault.follow fun w m => ?_
    refine reaches_jump hbuilt h₅ hext hdone ?_ _ _ m
    simp only [hpos, hb₇, hb₆, hb₅, length_newLabel, position_push, position_bind, position_pushJump]
    omega
  · rw [if_neg hv, if_neg hv, hpos]
    exact simulates_push hbuilt h₇ rfl (step_getProperty ..)

/-- The instructions of an operand compute its value. -/
theorem computes_operand {value : Operand} (hbuilt : Built built a.method) (hparams : params.length < UInt16.size)
    (h : operand params value b = .ok () b') : Computes enter a built b b' (operandValue enter a params value) := by
  cases value with
  | expression body => exact computes_expression hbuilt (toNat_param (show (Scope.ofInstance params).params.length < _ from hparams)) body h
  | helperValue slot type => exact computes_helperValue hbuilt h
  | argument =>
    obtain rfl := emit_eq_ok.mp h
    exact fun hext stack locals => simulates_push hbuilt hext rfl (step_loadArg ..)
  | slot name =>
    obtain rfl := emit_eq_ok.mp h
    exact fun hext stack locals => simulates_push hbuilt hext rfl (step_loadField ..)
  | bool d =>
    obtain rfl := emit_eq_ok.mp h
    exact fun hext stack locals => simulates_push (x := pure (Value.bool d)) hbuilt hext rfl rfl
  | application function =>
    cases h
    intro hext stack locals
    have hthis := simulates_loadThis enter hbuilt ((grows_push (b.push .loadThis) _).extends.trans hext) stack locals
    exact hthis.before (simulates_push (b := b.push .loadThis) hbuilt hext rfl rfl)
  | method name =>
    cases h
    intro hext stack locals
    have hthis := simulates_loadThis enter hbuilt ((grows_push (b.push .loadThis) _).extends.trans hext) stack locals
    exact hthis.before (simulates_push (b := b.push .loadThis) hbuilt hext rfl
      (step_callMethod enter a _ stack locals _ name [] rfl))

/-! ### Statements -/

/-- Where the instructions of a statement lead to in a built method, its operands being used up. -/
def flow (built b' : MethodBuilder) : Flow → Outcome
  | .next names => .go ⟨b'.position, [], localsOf built names⟩
  | .returned v => .returned v

/-- The instructions of a statement, wherever they stand in a built method, do what `x` does with what is kept. -/
def Performs (enter : Enter) (a : Activation) (built b b' : MethodBuilder) (x : Table Value → Run Flow) : Prop :=
  b'.Extends built → ∀ names, Simulates enter a ⟨b.position, [], localsOf built names⟩ (x names) (flow built b')

theorem simulates_equal (hbuilt : Built built a.method) (hext : (b.push (.binary .eq)).Extends built)
    (v w : Value) (stack locals : List Value) :
    Simulates enter a ⟨b.position, w :: v :: stack, locals⟩ (pure (v.equals w))
      (fun e => .go ⟨(b.push (.binary .eq)).position, .bool e :: stack, locals⟩) :=
  simulates_push (k := fun e => .bool e :: stack) hbuilt hext rfl rfl

theorem performs_returnIfUnchanged {slot : String} (hbuilt : Built built a.method)
    (h : statement hooks params (.returnIfUnchanged slot) b = .ok () b') :
    Performs enter a built b b'
      fun names => interpret enter a (hooks.contains ·) params names (.returnIfUnchanged slot) := by
  intro hext names
  have hlast := returnIfUnchanged_eq_ok h
  set b₂ := b.newLabel.2.push (.loadField slot) with hb₂
  set b₃ := b₂.push (.loadArg 0) with hb₃
  set b₄ := b₃.push (.binary .eq) with hb₄
  set b₅ := b₄.pushJump .jumpIfFalse b.labels.length with hb₅
  set b₆ := b₅.push .retVoid with hb₆
  have hopen : b₆.Open b.labels.length := open_newLabel b
  have h₆ : b₆.Extends built := (hlast ▸ extends_bind hopen).trans hext
  have h₅ : b₅.Extends built := (grows_push b₅ _).extends.trans h₆
  have h₄ : b₄.Extends built := (grows_pushJump b₄ _ _).extends.trans h₅
  have h₃ : b₃.Extends built := (grows_push b₃ _).extends.trans h₄
  have h₂ : b₂.Extends built := (grows_push b₂ _).extends.trans h₃
  have hchanged : built.Bound b.labels.length b'.position := hext.bound _ _ (hlast ▸ bound_bind hopen)
  have hlt : b₄.position < b'.position := by
    have h₄₅ : b₅.position = b₄.position + 1 := position_pushJump ..
    have h₅₆ : b₆.position = b₅.position + 1 := position_push ..
    rw [hlast, position_bind]
    omega
  simp only [interpret]
  refine (simulates_push (b := b.newLabel.2) hbuilt h₂ rfl (step_loadField ..)).seq fun current => ?_
  refine (simulates_push hbuilt h₃ rfl (step_loadArg ..)).seq fun value => ?_
  refine (simulates_equal hbuilt h₄ current value [] _).before ?_
  refine Simulates.before (v := current.equals value) (simulates_test (v := .bool (current.equals value)) hbuilt
    isJump_jumpIfFalse (jumpIfFalse_tests _ _ _) h₅ hext hchanged hlt) ?_
  cases current.equals value with
  | true =>
    rw [← position_pushJump b₄ .jumpIfFalse b.labels.length]
    exact .return_ (fetched hbuilt.build h₆ rfl) rfl _ rfl
  | false => exact .pure_go _ _ rfl

theorem performs_setIfChanged {slot property : String} {value : Operand} (hbuilt : Built built a.method)
    (hnumbered : built.Numbered) (hparams : params.length < UInt16.size)
    (h : statement hooks params (.setIfChanged slot value property) b = .ok () b') :
    Performs enter a built b b'
      fun names => interpret enter a (hooks.contains ·) params names (.setIfChanged slot value property) := by
  intro hext names
  obtain ⟨b₁, hvalue, hlast⟩ := setIfChanged_eq_ok h
  have hgrows := grows_operand hvalue
  set b₂ := (b₁.allocate "newValue").2 with hb₂
  set i := (b₁.allocate "newValue").1
  set b₃ := b₂.push (.storeLocal i) with hb₃
  set b₄ := b₃.push (.loadField slot) with hb₄
  set b₅ := b₄.push (.loadLocal i) with hb₅
  set b₆ := b₅.push (.binary .eq) with hb₆
  set b₇ := b₆.pushJump .jumpIfTrue b.labels.length with hb₇
  set b₈ := b₇.push (.raiseChanging property) with hb₈
  set b₉ := b₈.push (.loadLocal i) with hb₉
  set b₁₀ := b₉.push (.storeField slot) with hb₁₀
  set b₁₁ := b₁₀.push (.raiseChanged property) with hb₁₁
  have hhead : b₁.Grows 1 b₇ := (((((grows_allocate b₁ _).trans (grows_push b₂ _)).trans (grows_push b₃ _)).trans
    (grows_push b₄ _)).trans (grows_push b₅ _)).trans (grows_pushJump b₆ _ _)
  have htail : b₇.Grows 0 b₁₁ := (((grows_push b₇ _).trans (grows_push b₈ _)).trans (grows_push b₉ _)).trans
    (grows_push b₁₀ _)
  have hopen : b₁₁.Open b.labels.length := htail.open_ (hhead.open_ (hgrows.open_ (open_newLabel b)))
  have h₁₁ : b₁₁.Extends built := (hlast ▸ extends_bind hopen).trans hext
  have h₁₀ : b₁₀.Extends built := (grows_push b₁₀ _).extends.trans h₁₁
  have h₉ : b₉.Extends built := (grows_push b₉ _).extends.trans h₁₀
  have h₈ : b₈.Extends built := (grows_push b₈ _).extends.trans h₉
  have h₇ : b₇.Extends built := (grows_push b₇ _).extends.trans h₈
  have h₆ : b₆.Extends built := (grows_pushJump b₆ _ _).extends.trans h₇
  have h₅ : b₅.Extends built := (grows_push b₅ _).extends.trans h₆
  have h₄ : b₄.Extends built := (grows_push b₄ _).extends.trans h₅
  have h₃ : b₃.Extends built := (grows_push b₃ _).extends.trans h₄
  have h₂ : b₂.Extends built := (grows_push b₂ _).extends.trans h₃
  have h₁ : b₁.Extends built := (grows_allocate b₁ _).extends.trans h₂
  have hlocal : built.IsLocal i "newValue" := isLocal_allocate h₂ hnumbered.few
  have hunchanged : built.Bound b.labels.length b'.position := hext.bound _ _ (hlast ▸ bound_bind hopen)
  have hlt : b₆.position < b'.position := by
    have h₆₇ : b₇.position = b₆.position + 1 := position_pushJump ..
    have h₇₁₁ := htail.position_le
    rw [hlast, position_bind]
    omega
  have hpos₂ : b₂.position = b₁.position := position_allocate ..
  simp only [interpret]
  refine (computes_operand (b := b.newLabel.2) hbuilt hparams hvalue h₁ [] _).seq fun fresh => ?_
  rw [← hpos₂]
  refine (simulates_storeLocal hbuilt h₃ hnumbered.nodup hlocal fresh [] names).before ?_
  refine (simulates_push hbuilt h₄ rfl (step_loadField ..)).seq fun current => ?_
  have hfresh : (names.put "newValue" fresh).kept "newValue" = fresh := by rw [kept_put, if_pos rfl]
  have hload := simulates_loadLocal enter hbuilt h₅ hlocal [current] (names.put "newValue" fresh)
  rw [hfresh] at hload
  refine hload.before ((simulates_equal hbuilt h₆ current fresh [] _).before ?_)
  refine Simulates.before (v := current.equals fresh) (simulates_test (v := .bool (current.equals fresh)) hbuilt
    isJump_jumpIfTrue (jumpIfTrue_tests _ _ _) h₇ hext hunchanged hlt) ?_
  cases current.equals fresh with
  | true => exact .pure_go _ _ rfl
  | false =>
    simp only [if_neg Bool.false_ne_true]
    rw [← position_pushJump b₆ .jumpIfTrue b.labels.length]
    refine (simulates_push (k := fun _ => []) hbuilt h₈ rfl rfl).seq fun _ => ?_
    have hload' := simulates_loadLocal enter hbuilt h₉ hlocal [] (names.put "newValue" fresh)
    rw [hfresh] at hload'
    refine hload'.before ?_
    refine (simulates_push (k := fun _ => []) hbuilt h₁₀ rfl (step_storeField ..)).seq fun _ => ?_
    refine (simulates_push (k := fun _ => []) hbuilt h₁₁ rfl rfl).seq fun _ => .pure_go _ _ ?_
    rw [flow, hlast, position_bind]

theorem performs_returnCommand {slot : String} {factory : CommandFactory} (hbuilt : Built built a.method)
    (h : statement hooks params (.returnCommand slot factory) b = .ok () b') :
    Performs enter a built b b'
      fun names => interpret enter a (hooks.contains ·) params names (.returnCommand slot factory) := by
  intro hext names
  have hlast := returnCommand_eq_ok h
  set spec : CommandSpec := ⟨factory.method, factory.argumentType.isSome, factory.isAsync, factory.enablement⟩
  set b₂ := b.newLabel.2.push (.loadField slot) with hb₂
  set b₃ := b₂.pushJump .jumpIfNotNull b.labels.length with hb₃
  set b₄ := b₃.push (.newCommand spec) with hb₄
  set b₅ := b₄.push .dup with hb₅
  set b₆ := b₅.push (.storeField slot) with hb₆
  set b₇ := b₆.bind b.labels.length with hb₇
  have hopen : b₆.Open b.labels.length := open_newLabel b
  have h₇ : b₇.Extends built := (hlast ▸ (grows_push b₇ .ret).extends).trans hext
  have h₆ : b₆.Extends built := (extends_bind hopen).trans h₇
  have h₅ : b₅.Extends built := (grows_push b₅ _).extends.trans h₆
  have h₄ : b₄.Extends built := (grows_push b₄ _).extends.trans h₅
  have h₃ : b₃.Extends built := (grows_push b₃ _).extends.trans h₄
  have h₂ : b₂.Extends built := (grows_pushJump b₂ _ _).extends.trans h₃
  have hready : built.Bound b.labels.length b₇.position := h₇.bound _ _ (bound_bind hopen)
  have hlt : b₂.position < b₇.position := by
    have h₂₃ : b₃.position = b₂.position + 1 := position_pushJump ..
    have h₃₆ : b₃.position ≤ b₆.position :=
      (((grows_push b₃ _).trans (grows_push b₄ _)).trans (grows_push b₅ _)).position_le
    rw [hb₇, position_bind]
    omega
  have hret (v : Value) (locals : List Value) (o : Flow → Outcome) (ho : o (.returned v) = .returned v) :
      Simulates enter a ⟨b₇.position, [v], locals⟩ (pure (Flow.returned v)) o :=
    .return_ (fetched hbuilt.build (hlast ▸ hext) rfl) rfl _ ho
  simp only [interpret]
  refine (simulates_push (b := b.newLabel.2) hbuilt h₂ rfl (step_loadField ..)).seq fun current => ?_
  refine (simulates_notNull hbuilt h₃ h₇ hready hlt).before ?_
  by_cases hnull : current = .null
  · rw [if_pos hnull, if_pos hnull]
    refine (simulates_push (k := fun id => [.command id]) hbuilt h₄ rfl rfl).seq fun id => ?_
    have hdup := simulates_dup enter hbuilt h₅ (.command id) [] (localsOf built names)
    refine hdup.before ?_
    refine (simulates_push (k := fun _ => [Value.command id]) hbuilt h₆ rfl (step_storeField ..)).seq fun _ => ?_
    exact hret _ _ _ rfl
  · rw [if_neg hnull, if_neg hnull]
    exact hret _ _ _ rfl

theorem performs_callMethod {method : String} {passesValue : Bool} (hbuilt : Built built a.method)
    (h : statement hooks params (.callMethod method passesValue) b = .ok () b') :
    Performs enter a built b b'
      fun names => interpret enter a (hooks.contains ·) params names (.callMethod method passesValue) := by
  intro hext names
  simp only [interpret, discard_bind]
  cases passesValue with
  | false =>
    cases h
    have h₂ := (grows_push _ .pop).extends.trans hext
    have hthis := simulates_loadThis enter hbuilt ((grows_push (b.push .loadThis) _).extends.trans h₂) []
      (localsOf built names)
    refine hthis.before ?_
    refine (simulates_push (b := b.push .loadThis) hbuilt h₂ rfl
      (step_callMethod enter a _ [] _ (.object a.receiver) method [] rfl)).seq fun v => ?_
    have hpop := simulates_pop enter hbuilt hext v [] (localsOf built names)
    exact hpop.before (.pure_go _ _ rfl)
  | true =>
    cases h
    have h₃ := (grows_push _ .pop).extends.trans hext
    have h₂ := (grows_push ((b.push .loadThis).push (.loadArg 0)) (.callMethod method 1)).extends.trans h₃
    have hthis := simulates_loadThis enter hbuilt ((grows_push (b.push .loadThis) _).extends.trans h₂) []
      (localsOf built names)
    refine hthis.before ?_
    simp only [if_true, bind_assoc, pure_bind]
    refine (simulates_push (b := b.push .loadThis) hbuilt h₂ rfl (step_loadArg ..)).seq fun value => ?_
    refine (simulates_push (b := (b.push .loadThis).push (.loadArg 0)) hbuilt h₃ rfl
      (step_callMethod enter a _ [] _ (.object a.receiver) method [value] rfl)).seq fun v => ?_
    have hpop := simulates_pop enter hbuilt hext v [] (localsOf built names)
    exact hpop.before (.pure_go _ _ rfl)

theorem performs_callHook {hook : String} (hbuilt : Built built a.method) (hnumbered : built.Numbered)
    (h : statement hooks params (.callHook hook) b = .ok () b') :
    Performs enter a built b b' fun names => interpret enter a (hooks.contains ·) params names (.callHook hook) := by
  intro hext names
  obtain ⟨hc, hlast⟩ | ⟨hc, rfl⟩ := callHook_eq_ok h
  · simp only [interpret]
    rw [if_pos hc]
    set b₁ := (b.allocate "oldValue").2 with hb₁
    set i := (b.allocate "oldValue").1
    set b₂ := b₁.push (.loadLocal i) with hb₂
    set b₃ := b₂.push (.loadArg 0) with hb₃
    rw [hlast] at hext ⊢
    have h₃ : b₃.Extends built := (grows_push b₃ _).extends.trans hext
    have h₂ : b₂.Extends built := (grows_push b₂ _).extends.trans h₃
    have hlocal : built.IsLocal i "oldValue" :=
      isLocal_allocate ((grows_push b₁ _).extends.trans h₂) hnumbered.few
    have hpos : b₁.position = b.position := position_allocate ..
    rw [← hpos]
    refine (simulates_loadLocal enter hbuilt h₂ hlocal [] names).before ?_
    refine (simulates_push hbuilt h₃ rfl (step_loadArg ..)).seq fun value => ?_
    exact (simulates_push (k := fun _ => []) hbuilt hext rfl (step_callHook ..)).seq fun _ => .pure_go _ _ rfl
  · simp only [interpret_callHook_undeclared hc]
    exact .pure_go _ _ rfl

/-- Statements that are performed after a statement, unless it returns. -/
theorem Performs.seq {b₁ : MethodBuilder} {x y : Table Value → Run Flow} (hx : Performs enter a built b b₁ x)
    (hy : Performs enter a built b₁ b' y) (hext₁ : b₁.Extends b') :
    Performs enter a built b b' fun names => x names >>= fun flow => flow.follow y := by
  intro hext names
  refine (hx (hext₁.trans hext) names).bind ?_ ?_
  · rintro (names' | v) f' - ⟨⟩
    exact hy hext names'
  · rintro (names' | v) w ⟨⟩
    exact ⟨_, rfl, rfl⟩

mutual

/-- The instructions of a statement do what the statement does. -/
theorem performs_statement (hbuilt : Built built a.method) (hnumbered : built.Numbered)
    (hparams : params.length < UInt16.size) : ∀ (s : Statement) {b b' : MethodBuilder},
      statement hooks params s b = .ok () b' →
        Performs enter a built b b' fun names => interpret enter a (hooks.contains ·) params names s
  | .returnIfUnchanged slot, _, _, h => performs_returnIfUnchanged hbuilt h
  | .captureOld slot, b, b', h => by
    cases h
    intro hext names
    simp only [interpret]
    have h₂ := (grows_push _ _).extends.trans hext
    have h₁ := (grows_push _ _).extends.trans h₂
    refine Simulates.seq (by
      rw [← position_allocate b "oldValue"]
      exact simulates_push hbuilt h₂ rfl (step_loadField ..)) fun current => ?_
    exact (simulates_storeLocal hbuilt hext hnumbered.nodup (isLocal_allocate h₁ hnumbered.few) current [] names).before
      (.pure_go _ _ rfl)
  | .raiseChanging property, b, b', h => by
    cases h
    intro hext names
    simp only [interpret]
    exact (simulates_push (k := fun _ => []) hbuilt hext rfl rfl).seq fun _ => .pure_go _ _ rfl
  | .raiseChanged property, b, b', h => by
    cases h
    intro hext names
    simp only [interpret]
    exact (simulates_push (k := fun _ => []) hbuilt hext rfl rfl).seq fun _ => .pure_go _ _ rfl
  | .callHook hook, _, _, h => performs_callHook hbuilt hnumbered h
  | .storeValue slot, b, b', h => by
    cases h
    intro hext names
    simp only [interpret]
    refine (simulates_push hbuilt ((grows_push _ _).extends.trans hext) rfl (step_loadArg ..)).seq fun value => ?_
    exact (simulates_push (b := b.push (.loadArg 0)) (k := fun _ => []) hbuilt hext rfl (step_storeField ..)).seq
      fun _ => .pure_go _ _ rfl
  | .callMethod method passesValue, _, _, h => performs_callMethod hbuilt h
  | .setIfChanged slot value property, _, _, h => performs_setIfChanged hbuilt hnumbered hparams h
  | .store slot value, b, b', h => by
    obtain ⟨b₁, h₁, rfl⟩ := store_eq_ok h
    intro hext names
    simp only [interpret]
    refine (computes_operand hbuilt hparams h₁ ((grows_push _ _).extends.trans hext) [] _).seq fun fresh => ?_
    exact (simulates_push (k := fun _ => []) hbuilt hext rfl (step_storeField ..)).seq fun _ => .pure_go _ _ rfl
  | .ifUnset flag body, b, b', h => by
    obtain ⟨b₁, hbody, rfl⟩ := ifUnset_eq_ok h
    intro hext names
    simp only [interpret]
    have hgrows := grows_statements body hbody
    have hopen : b₁.Open b.labels.length := hgrows.open_ (open_newLabel b)
    have h₁ : b₁.Extends built := (extends_bind hopen).trans hext
    have h₃ := hgrows.extends.trans h₁
    have h₂ := (grows_pushJump (b.newLabel.2.push (.loadField flag)) .jumpIfTrue b.labels.length).extends.trans h₃
    have hdone : built.Bound b.labels.length b₁.position := hext.bound _ _ (bound_bind hopen)
    have hlt := hgrows.position_le
    rw [position_pushJump] at hlt
    refine (simulates_push (b := b.newLabel.2) hbuilt h₂ rfl (step_loadField ..)).seq fun v => ?_
    have htest : Simulates enter a _ (truth v) _ :=
      simulates_test hbuilt isJump_jumpIfTrue (jumpIfTrue_tests v [] (localsOf built names)) h₃ h₁ hdone hlt
    refine htest.bind (fun d f' _ hf => ?_) (fun _ _ hf => nomatch hf)
    cases hf
    cases d with
    | true => exact .pure_go _ _ rfl
    | false =>
      simp only [if_neg Bool.false_ne_true]
      rw [← position_pushJump _ .jumpIfTrue b.labels.length]
      exact performs_statements hbuilt hnumbered hparams body hbody h₁ names
  | .ret value, b, b', h => by
    obtain ⟨b₁, h₁, rfl⟩ := ret_eq_ok h
    intro hext names
    simp only [interpret]
    refine (computes_operand hbuilt hparams h₁ ((grows_push _ _).extends.trans hext) [] _).seq fun v => ?_
    exact .return_ (fetched hbuilt.build hext rfl) rfl _ rfl
  | .returnCommand slot factory, _, _, h => performs_returnCommand hbuilt h
  | .registerLocale registry grouping object, b, b', h => by
    cases h
    intro hext names
    simp only [interpret]
    have h₂ := (grows_push _ _).extends.trans hext
    have h₁ := (grows_push _ _).extends.trans h₂
    refine Simulates.seq (by
      rw [← position_allocate b object]
      exact simulates_push (k := fun id => [.locale id]) hbuilt h₂ rfl rfl) fun id => ?_
    exact (simulates_storeLocal hbuilt hext hnumbered.nodup (isLocal_allocate h₁ hnumbered.few) _ [] names).before
      (.pure_go _ _ rfl)
  | .addLocaleProperty object key target retain, b, b', h => by
    obtain ⟨i, hi, rfl⟩ := addLocaleProperty_eq_ok h
    intro hext names
    simp only [interpret]
    have h₁ := (grows_push (b.push (.loadLocal i)) _).extends.trans hext
    have hlocal : built.IsLocal i object := .of_local? hi ((grows_push b _).extends.trans h₁) hnumbered.few
    refine (simulates_loadLocal enter hbuilt h₁ hlocal [] names).before ?_
    cases hv : names.kept object with
    | locale id =>
      exact (simulates_push (b := b.push (.loadLocal i)) (k := fun _ => []) hbuilt hext rfl rfl).seq
        fun _ => .pure_go _ _ rfl
    | _ => exact .fail_ (fetched hbuilt.build hext rfl) rfl

/-- The instructions of statements do what the statements do. -/
theorem performs_statements (hbuilt : Built built a.method) (hnumbered : built.Numbered)
    (hparams : params.length < UInt16.size) : ∀ (ss : List Statement) {b b' : MethodBuilder},
      statements hooks params ss b = .ok () b' →
        Performs enter a built b b' fun names => interpretAll enter a (hooks.contains ·) params names ss
  | [], b, _, h => by
    cases h
    exact fun _ names => .pure_go _ _ rfl
  | s :: rest, b, b', h => by
    obtain ⟨b₁, h₁, h₂⟩ := statements_cons_eq_ok h
    simp only [interpretAll]
    exact (performs_statement hbuilt hnumbered hparams s h₁).seq
      (performs_statements hbuilt hnumbered hparams rest h₂) (grows_statements rest h₂).extends

end

end Run

end Reactive
