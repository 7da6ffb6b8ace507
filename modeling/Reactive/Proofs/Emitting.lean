import Reactive.Proofs.Heights
import Reactive.Proofs.Loading

/-!
# Reactive.Proofs.Emitting — which instructions code is compiled to

* `Instruction.evaluates`: what expressions are compiled to (`Build.consists_expression`).
* `Instruction.registers`: what locale objects are registered by; no other statement is compiled to it
  (`Build.consists_statements`).
-/

namespace Reactive

open Stateful

namespace Instruction

/-- Expressions are compiled to such instructions. -/
def evaluates : Instruction → Bool
  | pushNull | pushBool _ | pushInt _ | pushFloat _ | pushString _ | loadThis | loadArg _ | getProperty _ | callMethod ..
  | callHost .. | unary _ | binary _ | jump _ | jumpIfFalse _ | jumpIfTrue _ | jumpIfNotNull _ => true
  | _ => false

/-- The instruction registers a locale object or adds a binding to one. -/
def registers : Instruction → Bool
  | registerLocale .. | addLocaleProperty .. => true
  | _ => false

/-- The instruction neither registers anything nor returns. -/
def goesOn (i : Instruction) : Bool := !i.registers && !i.isReturn

theorem goesOn_of_evaluates {i : Instruction} (h : i.evaluates = true) : i.goesOn = true := by
  cases i <;> first | rfl | cases h

theorem registers_of_goesOn {i : Instruction} (h : i.goesOn = true) : i.registers = false := by
  cases i <;> first | rfl | cases h

theorem isReturn_of_goesOn {i : Instruction} (h : i.goesOn = true) : i.isReturn = false := by
  cases i <;> first | rfl | cases h

@[simp] theorem registers_withTarget {i : Instruction} {t : UInt64} : (i.withTarget t).registers = i.registers := by
  cases i <;> rfl

@[simp] theorem goesOn_withTarget {i : Instruction} {t : UInt64} : (i.withTarget t).goesOn = i.goesOn := by
  cases i <;> rfl

end Instruction

namespace MethodBuilder

variable {b : MethodBuilder} {Q R : Instruction → Prop}

/-- All instructions so far have a property. -/
def Consists (Q : Instruction → Prop) (b : MethodBuilder) : Prop := ∀ i ∈ b.code, Q i

theorem consists_start (name : String) (paramCount : UInt16) : (start name paramCount).Consists Q := nofun

theorem Consists.imp (h : b.Consists Q) (hQR : ∀ i, Q i → R i) : b.Consists R := fun i hi => hQR i (h i hi)

@[simp] theorem consists_push {i : Instruction} : (b.push i).Consists Q ↔ b.Consists Q ∧ Q i := by
  simp [Consists, push, or_imp, forall_and]

@[simp] theorem consists_pushJump {jump : UInt64 → Instruction} {label : Nat} :
    (b.pushJump jump label).Consists Q ↔ b.Consists Q ∧ Q (jump (UInt64.ofNat label)) := consists_push

@[simp] theorem consists_newLabel : b.newLabel.2.Consists Q ↔ b.Consists Q := Iff.rfl

@[simp] theorem consists_bind {label : Nat} : (b.bind label).Consists Q ↔ b.Consists Q := Iff.rfl

@[simp] theorem consists_allocate {name : String} : (b.allocate name).2.Consists Q ↔ b.Consists Q := by
  obtain ⟨i, -, h⟩ | ⟨-, h⟩ := allocate_cases b name
  · rw [h]
  · rw [h]
    rfl

/-- All instructions of a built method have a property that does not depend on where a jump goes. -/
theorem Consists.build {m : CompiledMethod} (h : b.Consists Q) (hbuild : b.build = .ok m)
    (hQ : ∀ i t, Q i → Q (i.withTarget t)) : ∀ i ∈ m.code, Q i := by
  intro j hj
  obtain ⟨p, hp⟩ := List.mem_iff_getElem?.mp hj
  obtain ⟨i, hi, hresolve⟩ := fetched_of_build hbuild hp
  obtain ⟨-, rfl⟩ | ⟨t, place, -, -, rfl⟩ := resolve_eq_ok hresolve
  · exact h _ (List.mem_of_getElem? hi)
  · exact hQ i _ (h i (List.mem_of_getElem? hi))

end MethodBuilder

namespace Build

open MethodBuilder

variable {Q : Instruction → Prop} {scope : Scope} {hooks params : List String} {b b' : MethodBuilder} {u : Unit}

/-! ### Expressions -/

mutual

/-- An expression is compiled to instructions that evaluate it. -/
theorem consists_expression (hQ : ∀ i, i.evaluates = true → Q i) : ∀ (e : Expr) {b b' : MethodBuilder} {u : Unit},
    expression scope e b = .ok u b' → b.Consists Q → b'.Consists Q
  | .literal v _, b, _, _, h, hb => by
    obtain rfl := emit_eq_ok.mp h
    refine consists_push.mpr ⟨hb, hQ _ ?_⟩
    cases v <;> rfl
  | .name n _, b, _, _, h, hb => by
    obtain ⟨i, -, rfl⟩ | ⟨-, -, rfl⟩ := loadName_eq_ok h
    · exact consists_push.mpr ⟨hb, hQ _ rfl⟩
    · exact consists_push.mpr ⟨consists_push.mpr ⟨hb, hQ _ rfl⟩, hQ _ rfl⟩
  | .this _, b, _, _, h, hb => by
    obtain ⟨-, rfl⟩ := loadThis_eq_ok.mp h
    exact consists_push.mpr ⟨hb, hQ _ rfl⟩
  | .member object n s, b, _, _, h, hb => by
    cases hhost : scope.host? object with
    | some host =>
      rw [host_member_eq_ok hhost h]
      exact consists_push.mpr ⟨hb, hQ _ rfl⟩
    | none =>
      obtain ⟨b₁, h₁, rfl⟩ := member_eq_ok hhost h
      exact consists_push.mpr ⟨consists_expression hQ object h₁ hb, hQ _ rfl⟩
  | .call callee args _, b, _, _, h, hb => by
    obtain ⟨-, invoke, b₁, b₂, h₁, h₂, rfl⟩ := call_eq_ok h
    obtain ⟨hcallee, hinvoke⟩ := consists_receiver hQ callee h₁ hb
    exact consists_push.mpr ⟨consists_arguments hQ args h₂ hcallee, hQ _ (hinvoke _)⟩
  | .unary op e _, b, b', u, h, hb => by
    obtain ⟨_, b₁, h₁, h⟩ := bind_eq_ok.mp (show (expression scope e >>= _) b = _ from h)
    obtain rfl := emit_eq_ok.mp h
    exact consists_push.mpr ⟨consists_expression hQ e h₁ hb, hQ _ rfl⟩
  | .binary op l r s, b, b', u, h, hb => by
    cases hop : StrictOp.ofBinary? op with
    | some strict =>
      obtain ⟨b₁, b₂, h₁, h₂, rfl⟩ := strict_eq_ok hop h
      exact consists_push.mpr ⟨consists_expression hQ r h₂ (consists_expression hQ l h₁ hb), hQ _ rfl⟩
    | none =>
      cases op <;> cases hop
      · obtain ⟨b₁, b₂, hd⟩ := and_eq_ok h
        have hl := consists_expression hQ l hd.left hb
        have hr := consists_expression hQ r hd.right (consists_pushJump.mpr ⟨hl, hQ _ rfl⟩)
        rw [hd.last]
        exact consists_push.mpr ⟨consists_pushJump.mpr ⟨hr, hQ _ rfl⟩, hQ _ rfl⟩
      · obtain ⟨b₁, b₂, hd⟩ := or_eq_ok h
        have hl := consists_expression hQ l hd.left hb
        have hr := consists_expression hQ r hd.right (consists_pushJump.mpr ⟨hl, hQ _ rfl⟩)
        rw [hd.last]
        exact consists_push.mpr ⟨consists_pushJump.mpr ⟨hr, hQ _ rfl⟩, hQ _ rfl⟩
      · obtain ⟨b₁, b₂, h₁, h₂, rfl⟩ := coalesce_eq_ok h
        have hl := consists_expression hQ l h₁ hb
        exact consists_bind.mpr (consists_expression hQ r h₂ (consists_pushJump.mpr ⟨hl, hQ _ rfl⟩))
  | .conditional c t e _, b, b', u, h, hb => by
    obtain ⟨b₁, b₂, b₃, hd⟩ := conditional_eq_ok h
    have hc := consists_expression hQ c hd.condition hb
    have ht := consists_expression hQ t hd.thenBranch (consists_pushJump.mpr ⟨hc, hQ _ rfl⟩)
    have he := consists_expression hQ e hd.elseBranch (consists_pushJump.mpr ⟨ht, hQ _ rfl⟩)
    rw [hd.last]
    exact he
  | .lambda _ _ _ _, _, _, _, h, _ => absurd h unsupported_ne_ok

/-- So are the receiver of a call and the call. -/
theorem consists_receiver (hQ : ∀ i, i.evaluates = true → Q i) : ∀ (e : Expr) {b b' : MethodBuilder}
    {invoke : UInt8 → Instruction}, receiver scope e b = .ok invoke b' → b.Consists Q →
      b'.Consists Q ∧ ∀ argc, (invoke argc).evaluates = true
  | .name n _, b, _, _, h, hb => by
    obtain ⟨-, rfl, rfl⟩ := receiver_name_eq_ok h
    exact ⟨consists_push.mpr ⟨hb, hQ _ rfl⟩, fun _ => rfl⟩
  | .member object n s, b, _, _, h, hb => by
    cases hhost : scope.host? object with
    | some host =>
      obtain ⟨rfl, rfl⟩ := receiver_host_eq_ok hhost h
      exact ⟨hb, fun _ => rfl⟩
    | none =>
      obtain ⟨hobject, rfl⟩ := receiver_member_eq_ok hhost h
      exact ⟨consists_expression hQ object hobject hb, fun _ => rfl⟩
  | .literal _ _, _, _, _, h, _ | .this _, _, _, _, h, _ | .call _ _ _, _, _, _, h, _ | .unary _ _ _, _, _, _, h, _
  | .binary _ _ _ _, _, _, _, h, _ | .conditional _ _ _ _, _, _, _, h, _ | .lambda _ _ _ _, _, _, _, h, _ =>
    absurd h unsupported_ne_ok

/-- So are arguments. -/
theorem consists_arguments (hQ : ∀ i, i.evaluates = true → Q i) : ∀ (es : List Expr) {b b' : MethodBuilder} {u : Unit},
    arguments scope es b = .ok u b' → b.Consists Q → b'.Consists Q
  | [], b, _, _, h, hb => by
    cases h
    exact hb
  | e :: es, _, _, _, h, hb => by
    obtain ⟨b₁, h₁, h₂⟩ := arguments_cons_eq_ok h
    exact consists_arguments hQ es h₂ (consists_expression hQ e h₁ hb)

end

/-! ### Statements -/

theorem consists_operand (hQ : ∀ i, i.goesOn = true → Q i) {value : Operand} (h : operand params value b = .ok u b')
    (hb : b.Consists Q) : b'.Consists Q := by
  cases value with
  | expression body => exact consists_expression (fun i hi => hQ i (Instruction.goesOn_of_evaluates hi)) body h hb
  | helperValue slot type =>
    rw [helperValue_eq_ok h]
    simp [hb, hQ _ (rfl : (Instruction.loadField slot).goesOn = true),
      hQ _ (rfl : (Instruction.jumpIfNotNull _).goesOn = true), hQ _ (rfl : (Instruction.pushDefault type.text).goesOn = true),
      hQ _ (rfl : (Instruction.jump _).goesOn = true), hQ _ (rfl : (Instruction.getProperty "Value").goesOn = true)]
  | application function =>
    cases h
    exact consists_push.mpr ⟨consists_push.mpr ⟨hb, hQ _ rfl⟩, hQ _ rfl⟩
  | method name =>
    cases h
    exact consists_push.mpr ⟨consists_push.mpr ⟨hb, hQ _ rfl⟩, hQ _ rfl⟩
  | argument | slot _ | bool _ =>
    cases h
    exact consists_push.mpr ⟨hb, hQ _ rfl⟩

end Build

mutual

/-- There is no locale object in a statement. -/
def Statement.sparesLocales : Statement → Bool
  | .registerLocale .. | .addLocaleProperty .. => false
  | .ifUnset _ body => Statement.allSpareLocales body
  | _ => true

/-- There is no locale object in any of some statements. -/
def Statement.allSpareLocales : List Statement → Bool
  | [] => true
  | s :: rest => s.sparesLocales && Statement.allSpareLocales rest

end

theorem Statement.allSpareLocales_iff {body : List Statement} :
    allSpareLocales body = true ↔ ∀ s ∈ body, s.sparesLocales = true := by
  induction body with
  | nil => simp [allSpareLocales]
  | cons s rest ih => simp [allSpareLocales, ih]

namespace Build

open MethodBuilder

variable {hooks params : List String} {b b' : MethodBuilder} {u : Unit}

mutual

/-- A statement without locale objects registers none. -/
theorem consists_statement : ∀ (s : Statement) {b b' : MethodBuilder} {u : Unit}, statement hooks params s b = .ok u b' →
    s.sparesLocales = true → b.Consists (·.registers = false) → b'.Consists (·.registers = false)
  | .returnIfUnchanged slot, b, b', u, h, _, hb => by
    rw [returnIfUnchanged_eq_ok h]
    simpa [Instruction.registers] using hb
  | .captureOld slot, b, b', u, h, _, hb => by
    cases h
    show (((b.allocate "oldValue").2.push (.loadField slot)).push (.storeLocal (b.allocate "oldValue").1)).Consists _
    simpa [Instruction.registers] using hb
  | .raiseChanging _, b, b', u, h, _, hb | .raiseChanged _, b, b', u, h, _, hb | .storeValue _, b, b', u, h, _, hb => by
    cases h
    simpa [Instruction.registers] using hb
  | .callHook hook, b, b', u, h, _, hb => by
    obtain ⟨-, rfl⟩ | ⟨-, rfl⟩ := callHook_eq_ok h
    · simpa [Instruction.registers] using hb
    · exact hb
  | .callMethod method passesValue, b, b', u, h, _, hb => by
    cases passesValue <;> cases h <;> simpa [Instruction.registers] using hb
  | .setIfChanged slot value property, b, b', u, h, _, hb => by
    obtain ⟨b₁, h₁, rfl⟩ := setIfChanged_eq_ok h
    have hvalue := consists_operand (fun _ => Instruction.registers_of_goesOn) h₁ (b := b.newLabel.2) hb
    simpa [Instruction.registers] using hvalue
  | .store slot value, b, b', u, h, _, hb => by
    obtain ⟨b₁, h₁, rfl⟩ := store_eq_ok h
    exact consists_push.mpr ⟨consists_operand (fun _ => Instruction.registers_of_goesOn) h₁ hb, rfl⟩
  | .ifUnset flag body, b, b', u, h, hs, hb => by
    obtain ⟨b₁, h₁, rfl⟩ := ifUnset_eq_ok h
    rw [Statement.sparesLocales] at hs
    refine consists_bind.mpr (consists_statements body h₁ hs ?_)
    simpa [Instruction.registers] using hb
  | .ret value, b, b', u, h, _, hb => by
    obtain ⟨b₁, h₁, rfl⟩ := ret_eq_ok h
    exact consists_push.mpr ⟨consists_operand (fun _ => Instruction.registers_of_goesOn) h₁ hb, rfl⟩
  | .returnCommand slot factory, b, b', u, h, _, hb => by
    rw [returnCommand_eq_ok h]
    simpa [Instruction.registers] using hb
  | .registerLocale .., _, _, _, _, hs, _ | .addLocaleProperty .., _, _, _, _, hs, _ => by
    rw [Statement.sparesLocales] at hs
    cases hs

/-- Statements without locale objects register none. -/
theorem consists_statements : ∀ (ss : List Statement) {b b' : MethodBuilder} {u : Unit},
    statements hooks params ss b = .ok u b' → Statement.allSpareLocales ss = true → b.Consists (·.registers = false) →
      b'.Consists (·.registers = false)
  | [], b, _, _, h, _, hb => by
    cases h
    exact hb
  | s :: rest, _, _, _, h, hss, hb => by
    obtain ⟨b₁, h₁, h₂⟩ := statements_cons_eq_ok h
    rw [Statement.allSpareLocales, Bool.and_eq_true] at hss
    exact consists_statements rest h₂ hss.2 (consists_statement s h₁ hss.1 hb)

end

end Build

end Reactive
