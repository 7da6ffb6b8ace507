import Reactive.Proofs.Emitting

/-!
# Reactive.Proofs.References — what compiled code refers to in its class

A method that is called on a receiver is looked up in the class of the receiver, so it is no reference; fields, change
hooks, hoisted functions and what a command is made of are looked up in the class that the code belongs to.

* `Instruction.references`: what an instruction refers to.
* `Statement.references`: what a statement refers to, the methods that it calls on the instance included.
* `CompiledMethod.references_ofStatements`: compiled statements refer to nothing else than the statements do;
  `references_ofBody`: a compiled expression refers to nothing.
-/

namespace Reactive

open Stateful

/-- What code refers to in its class. -/
inductive Reference
  | field (name : String)
  | method (name : String)
  | function (name : String)
  /-- A property that says whether a command may run. -/
  | gate (property : String)
deriving DecidableEq, Repr

/-- What an instruction refers to. -/
def Instruction.references : Instruction → List Reference
  | loadField name | storeField name => [.field name]
  | callHook name _ => [.method name]
  | callStatic name => [.function name]
  | newCommand spec => .method spec.method :: (spec.canExecute.map .gate).toList
  | _ => []

@[simp] theorem Instruction.references_withTarget {i : Instruction} {t : UInt64} :
    (i.withTarget t).references = i.references := by cases i <;> rfl

theorem Instruction.references_of_evaluates {i : Instruction} (h : i.evaluates = true) : i.references = [] := by
  cases i <;> first | rfl | cases h

/-- What the instructions of a method refer to. -/
def CompiledMethod.references (m : CompiledMethod) : List Reference := m.code.flatMap Instruction.references

/-- What an operand refers to. -/
def Operand.references : Operand → List Reference
  | .slot name | .helperValue name _ => [.field name]
  | .application function => [.function function]
  | .method name => [.method name]
  | .argument | .expression _ | .bool _ => []

@[simp] theorem Operand.references_slot (name : String) : (slot name).references = [.field name] := rfl

@[simp] theorem Operand.references_bool (b : Bool) : (bool b).references = [] := rfl

@[simp] theorem Operand.references_helperValue (name : String) (type : TypeRef) :
    (helperValue name type).references = [.field name] := rfl

mutual

/-- What a statement refers to, where the class implements some hooks. -/
def Statement.references (implemented : String → Bool) : Statement → List Reference
  | .returnIfUnchanged slot | .captureOld slot | .storeValue slot => [.field slot]
  | .callHook hook => if implemented hook then [.method hook] else []
  | .callMethod method _ => [.method method]
  | .setIfChanged slot value _ | .store slot value => .field slot :: value.references
  | .ifUnset flag body => .field flag :: Statement.referencesAll implemented body
  | .ret value => value.references
  | .returnCommand slot factory =>
    .field slot :: .method factory.method :: (factory.enablement.map .gate).toList
  | .raiseChanging _ | .raiseChanged _ | .registerLocale .. | .addLocaleProperty .. => []

/-- What statements refer to. -/
def Statement.referencesAll (implemented : String → Bool) : List Statement → List Reference
  | [] => []
  | s :: rest => Statement.references implemented s ++ Statement.referencesAll implemented rest

end

theorem Statement.mem_referencesAll {implemented : String → Bool} {r : Reference} {body : List Statement} :
    r ∈ referencesAll implemented body ↔ ∃ s ∈ body, r ∈ s.references implemented := by
  induction body with
  | nil => simp [referencesAll]
  | cons s rest ih => simp [referencesAll, ih]

namespace MethodBuilder

variable {σ : Reference → Prop} {b : MethodBuilder}

/-- What the instructions so far refer to is there. -/
def Linked (σ : Reference → Prop) (b : MethodBuilder) : Prop := ∀ i ∈ b.code, ∀ r ∈ i.references, σ r

theorem linked_start (name : String) (paramCount : UInt16) : (start name paramCount).Linked σ := nofun

@[simp] theorem linked_push {i : Instruction} : (b.push i).Linked σ ↔ b.Linked σ ∧ ∀ r ∈ i.references, σ r := by
  simp [Linked, push, or_imp, forall_and]

@[simp] theorem linked_newLabel : b.newLabel.2.Linked σ ↔ b.Linked σ := Iff.rfl

@[simp] theorem linked_bind {label : Nat} : (b.bind label).Linked σ ↔ b.Linked σ := Iff.rfl

@[simp] theorem linked_allocate {name : String} : (b.allocate name).2.Linked σ ↔ b.Linked σ := by
  obtain ⟨i, -, h⟩ | ⟨-, h⟩ := allocate_cases b name
  · rw [h]
  · rw [h]
    rfl

theorem references_jump {jump : UInt64 → Instruction} (hjump : IsJump jump) (t : UInt64) : (jump t).references = [] := by
  have htarget := (hjump t t).1
  generalize jump t = i at htarget
  cases i <;> first | rfl | cases htarget

theorem linked_pushJump {jump : UInt64 → Instruction} (hjump : IsJump jump) {label : Nat} :
    (b.pushJump jump label).Linked σ ↔ b.Linked σ := by
  rw [pushJump, linked_push, references_jump hjump]
  simp

/-- What the instructions of a built method refer to is there. -/
theorem Linked.build {m : CompiledMethod} (h : b.Linked σ) (hbuild : b.build = .ok m) : ∀ r ∈ m.references, σ r := by
  intro r hr
  obtain ⟨i, hi, hr⟩ := List.mem_flatMap.mp hr
  have hlinked : b.Consists fun i => ∀ r ∈ i.references, σ r := h
  exact hlinked.build hbuild (fun i t hi => by rwa [Instruction.references_withTarget]) i hi r hr

end MethodBuilder

namespace Build

open MethodBuilder

variable {σ : Reference → Prop} {scope : Scope} {hooks params : List String} {b b' : MethodBuilder} {u : Unit}

/-! ### Expressions -/

/-- An expression refers to nothing. -/
theorem linked_expression (e : Expr) (h : expression scope e b = .ok u b') (hb : b.Linked σ) : b'.Linked σ := by
  refine consists_expression (Q := fun i => ∀ r ∈ i.references, σ r) (fun i hi r hr => ?_) e h hb
  rw [Instruction.references_of_evaluates hi] at hr
  cases hr

/-! ### Statements -/

theorem linked_operand {value : Operand} (h : operand params value b = .ok u b') (hb : b.Linked σ)
    (hvalue : ∀ r ∈ value.references, σ r) : b'.Linked σ := by
  cases value with
  | expression body => exact linked_expression body h hb
  | helperValue slot type =>
    rw [helperValue_eq_ok h]
    simpa [linked_pushJump isJump_jump, linked_pushJump isJump_jumpIfNotNull, Instruction.references, hb] using
      hvalue _ List.mem_cons_self
  | slot name | application function =>
    cases h
    simpa [Instruction.references, hb] using hvalue _ List.mem_cons_self
  | argument | method _ | bool _ =>
    cases h
    simpa [Instruction.references] using hb

mutual

/-- The instructions of a statement refer to nothing else than the statement. -/
theorem linked_statement : ∀ (s : Statement) {b b' : MethodBuilder} {u : Unit}, statement hooks params s b = .ok u b' →
    b.Linked σ → (∀ r ∈ s.references hooks.contains, σ r) → b'.Linked σ
  | .returnIfUnchanged slot, b, b', u, h, hb, hs => by
    rw [returnIfUnchanged_eq_ok h]
    simpa [linked_pushJump isJump_jumpIfFalse, Instruction.references, hb] using hs _ List.mem_cons_self
  | .captureOld slot, b, b', u, h, hb, hs => by
    cases h
    show (((b.allocate "oldValue").2.push (.loadField slot)).push (.storeLocal (b.allocate "oldValue").1)).Linked σ
    simpa [Instruction.references, hb] using hs _ List.mem_cons_self
  | .raiseChanging _, b, b', u, h, hb, _ | .raiseChanged _, b, b', u, h, hb, _ => by
    cases h
    simpa [Instruction.references] using hb
  | .callHook hook, b, b', u, h, hb, hs => by
    obtain ⟨hcontains, rfl⟩ | ⟨-, rfl⟩ := callHook_eq_ok h
    · rw [Statement.references, if_pos hcontains] at hs
      simpa [Instruction.references, hb] using hs _ List.mem_cons_self
    · exact hb
  | .storeValue slot, b, b', u, h, hb, hs => by
    cases h
    simpa [Instruction.references, hb] using hs _ List.mem_cons_self
  | .callMethod method passesValue, b, b', u, h, hb, _ => by
    cases passesValue <;> cases h <;> simpa [Instruction.references] using hb
  | .setIfChanged slot value property, b, b', u, h, hb, hs => by
    obtain ⟨b₁, h₁, rfl⟩ := setIfChanged_eq_ok h
    have hvalue := linked_operand h₁ hb fun r hr => hs r (List.mem_cons_of_mem _ hr)
    simpa [linked_pushJump isJump_jumpIfTrue, Instruction.references, hvalue] using hs _ List.mem_cons_self
  | .store slot value, b, b', u, h, hb, hs => by
    obtain ⟨b₁, h₁, rfl⟩ := store_eq_ok h
    have hvalue := linked_operand h₁ hb fun r hr => hs r (List.mem_cons_of_mem _ hr)
    simpa [Instruction.references, hvalue] using hs _ List.mem_cons_self
  | .ifUnset flag body, b, b', u, h, hb, hs => by
    obtain ⟨b₁, h₁, rfl⟩ := ifUnset_eq_ok h
    refine linked_bind.mpr (linked_statements body h₁ ?_ fun r hr => hs r (List.mem_cons_of_mem _ hr))
    simpa [linked_pushJump isJump_jumpIfTrue, Instruction.references, hb] using hs _ List.mem_cons_self
  | .ret value, b, b', u, h, hb, hs => by
    obtain ⟨b₁, h₁, rfl⟩ := ret_eq_ok h
    simpa [Instruction.references] using linked_operand h₁ hb hs
  | .returnCommand slot factory, b, b', u, h, hb, hs => by
    rw [returnCommand_eq_ok h]
    have hspec : ∀ r ∈ (Instruction.newCommand
        ⟨factory.method, factory.argumentType.isSome, factory.isAsync, factory.enablement⟩).references, σ r :=
      fun r hr => hs r (List.mem_cons_of_mem _ hr)
    have hslot := hs _ List.mem_cons_self
    simp only [linked_push, linked_bind, linked_pushJump isJump_jumpIfNotNull, linked_newLabel]
    simpa [Instruction.references, hb, hslot] using hspec
  | .registerLocale registry grouping object, b, b', u, h, hb, _ => by
    cases h
    show (((b.allocate object).2.push (.registerLocale registry grouping)).push
      (.storeLocal (b.allocate object).1)).Linked σ
    simpa [Instruction.references] using hb
  | .addLocaleProperty .., b, b', u, h, hb, _ => by
    obtain ⟨i, -, rfl⟩ := addLocaleProperty_eq_ok h
    simpa [Instruction.references] using hb

/-- The instructions of statements refer to nothing else than the statements. -/
theorem linked_statements : ∀ (ss : List Statement) {b b' : MethodBuilder} {u : Unit},
    statements hooks params ss b = .ok u b' → b.Linked σ → (∀ r ∈ Statement.referencesAll hooks.contains ss, σ r) →
      b'.Linked σ
  | [], b, _, _, h, hb, _ => by
    cases h
    exact hb
  | s :: rest, _, _, _, h, hb, hs => by
    obtain ⟨b₁, h₁, h₂⟩ := statements_cons_eq_ok h
    exact linked_statements rest h₂ (linked_statement s h₁ hb fun r hr => hs r (List.mem_append_left _ hr))
      fun r hr => hs r (List.mem_append_right _ hr)

end

end Build

namespace CompiledMethod

open MethodBuilder

/-- A compiled expression refers to nothing. -/
theorem references_ofBody {name : String} {scope : Scope} {body : Expr} {m : CompiledMethod}
    (h : ofBody name scope body = .ok m) : m.references = [] := by
  obtain ⟨b, hbody, hbuild⟩ := ofBody_eq_ok h
  have hlinked : b.Linked fun _ => False := Build.linked_expression body hbody (linked_start _ _)
  exact List.eq_nil_iff_forall_not_mem.mpr
    ((linked_push.mpr ⟨hlinked, fun _ hr => absurd hr List.not_mem_nil⟩ : (b.push .ret).Linked _).build hbuild)

/-- Compiled statements refer to nothing else than the statements. -/
theorem references_ofStatements {hooks : List String} {signature : MethodSignature} {body : List Statement}
    {m : CompiledMethod} (h : ofStatements hooks signature body = .ok m) :
    m.references ⊆ Statement.referencesAll hooks.contains body := by
  obtain ⟨b, hbody, hbuild⟩ := ofStatements_eq_ok h
  have hlinked : b.Linked (· ∈ Statement.referencesAll hooks.contains body) :=
    Build.linked_statements body hbody (linked_start _ _) fun _ hr => hr
  intro r hr
  split at hbuild
  · exact hlinked.build hbuild r hr
  · exact (linked_push.mpr ⟨hlinked, fun _ hr => absurd hr List.not_mem_nil⟩ : (b.push .retVoid).Linked _).build
      hbuild r hr

end CompiledMethod

end Reactive
