import Mathlib.Tactic.Common
import Reactive.Patch.Lowering
import Reactive.Proofs.Building
import Reactive.Proofs.Execution
import Reactive.Proofs.Instructions

/-!
# Reactive.Proofs.Lowering — instructions compute the value of their expression

`Build.expression` against `Run.evaluate`.

* Inversion: what the lowering of each kind of expression consists of (`and_eq_ok`, `call_eq_ok`, …).
* Growth: lowering only adds, whatever it is asked to lower (`grows_expression`).
* Simulation: wherever the instructions of an expression stand in a built method, from the first of them on the method
  does what the evaluation of the expression does, and then stands behind the last one with the value as one more
  operand (`computes_expression`); counted in instructions, this is `lowered_expression_correct`.
-/

namespace Reactive

open Stateful MethodBuilder

namespace Build

variable {scope : Scope} {b b' : MethodBuilder} {u : Unit}

/-! ### What lowering consists of -/

theorem emit_eq_ok {i : Instruction} : emit i b = .ok u b' ↔ b.push i = b' := modify_eq_ok

theorem loadThis_eq_ok : loadThis scope b = .ok u b' ↔ scope.hasThis ∧ b.push .loadThis = b' := by
  unfold loadThis
  split
  · rename_i h
    rw [emit_eq_ok]
    exact ⟨fun hb => ⟨h, hb⟩, fun hb => hb.2⟩
  · rename_i h
    refine ⟨fun hb => ?_, fun hb => absurd hb.1 h⟩
    cases hb

theorem unsupported_ne_ok {α : Type} {reason : Unsupported} {x : α} : unsupported reason b ≠ .ok x b' := by
  intro h
  cases h

/-- A bare name is a parameter, or a member of the instance. -/
theorem loadName_eq_ok {name : String} (h : loadName scope name b = .ok u b') :
    (∃ i, scope.params.idxOf? name = some i ∧ b' = b.push (.loadArg (UInt16.ofNat i))) ∨
      (scope.params.idxOf? name = none ∧ Expr.hostReceivers.contains name = false ∧
        b' = (b.push .loadThis).push (.getProperty name)) := by
  unfold loadName Scope.param? at h
  cases hp : scope.params.idxOf? name with
  | some i =>
    rw [hp] at h
    exact Or.inl ⟨i, rfl, (emit_eq_ok.mp h).symm⟩
  | none =>
    rw [hp] at h
    dsimp only [Option.map_none] at h
    cases hc : Expr.hostReceivers.contains name with
    | true =>
      rw [hc, if_pos rfl] at h
      exact absurd h unsupported_ne_ok
    | false =>
      rw [hc, if_neg Bool.false_ne_true] at h
      obtain ⟨_, b₁, h₁, h₂⟩ := bind_eq_ok.mp h
      obtain ⟨-, rfl⟩ := loadThis_eq_ok.mp h₁
      exact Or.inr ⟨rfl, rfl, (emit_eq_ok.mp h₂).symm⟩

/-- The stages of `&&` and `||`: the left operand, a jump that decides, the right operand, and the constant that a
decision gives. -/
structure Deciding (scope : Scope) (jump : UInt64 → Instruction) (decided : Bool) (l r : Expr)
    (b b₁ b₂ b' : MethodBuilder) : Prop where
  left : expression scope l b.newLabel.2.newLabel.2 = .ok () b₁
  right : expression scope r (b₁.pushJump jump b.labels.length) = .ok () b₂
  last : b' = (((b₂.pushJump .jump b.newLabel.2.labels.length).bind b.labels.length).push (.pushBool decided)).bind
    b.newLabel.2.labels.length

theorem and_eq_ok {l r : Expr} {s : Span} (h : expression scope (.binary .and l r s) b = .ok u b') :
    ∃ b₁ b₂, Deciding scope .jumpIfFalse false l r b b₁ b₂ b' := by
  obtain ⟨_, b₁, h₁, h⟩ := bind_eq_ok.mp (show (expression scope l >>= _) b.newLabel.2.newLabel.2 = _ from h)
  obtain ⟨_, b₂, h₂, h⟩ := bind_eq_ok.mp (show (expression scope r >>= _) (b₁.pushJump .jumpIfFalse _) = _ from h)
  exact ⟨b₁, b₂, h₁, h₂, by cases h; rfl⟩

theorem or_eq_ok {l r : Expr} {s : Span} (h : expression scope (.binary .or l r s) b = .ok u b') :
    ∃ b₁ b₂, Deciding scope .jumpIfTrue true l r b b₁ b₂ b' := by
  obtain ⟨_, b₁, h₁, h⟩ := bind_eq_ok.mp (show (expression scope l >>= _) b.newLabel.2.newLabel.2 = _ from h)
  obtain ⟨_, b₂, h₂, h⟩ := bind_eq_ok.mp (show (expression scope r >>= _) (b₁.pushJump .jumpIfTrue _) = _ from h)
  exact ⟨b₁, b₂, h₁, h₂, by cases h; rfl⟩

theorem coalesce_eq_ok {l r : Expr} {s : Span} (h : expression scope (.binary .coalesce l r s) b = .ok u b') :
    ∃ b₁ b₂, expression scope l b.newLabel.2 = .ok () b₁ ∧
      expression scope r (b₁.pushJump .jumpIfNotNull b.labels.length) = .ok () b₂ ∧ b' = b₂.bind b.labels.length := by
  obtain ⟨_, b₁, h₁, h⟩ := bind_eq_ok.mp (show (expression scope l >>= _) b.newLabel.2 = _ from h)
  obtain ⟨_, b₂, h₂, h⟩ := bind_eq_ok.mp (show (expression scope r >>= _) (b₁.pushJump .jumpIfNotNull _) = _ from h)
  exact ⟨b₁, b₂, h₁, h₂, by cases h; rfl⟩

theorem strict_eq_ok {op : BinaryOp} {strict : StrictOp} {l r : Expr} {s : Span}
    (hop : StrictOp.ofBinary? op = some strict) (h : expression scope (.binary op l r s) b = .ok u b') :
    ∃ b₁ b₂, expression scope l b = .ok () b₁ ∧ expression scope r b₁ = .ok () b₂ ∧
      b' = b₂.push (.binary strict) := by
  have h' : (expression scope l >>= fun _ => expression scope r >>= fun _ => emit (.binary strict)) b = .ok u b' := by
    cases op <;> cases hop <;> exact h
  obtain ⟨_, b₁, h₁, h'⟩ := bind_eq_ok.mp h'
  obtain ⟨_, b₂, h₂, h'⟩ := bind_eq_ok.mp h'
  exact ⟨b₁, b₂, h₁, h₂, (emit_eq_ok.mp h').symm⟩

/-- The stages of a conditional. -/
structure Branching (scope : Scope) (c t e : Expr) (b b₁ b₂ b₃ b' : MethodBuilder) : Prop where
  condition : expression scope c b.newLabel.2.newLabel.2 = .ok () b₁
  thenBranch : expression scope t (b₁.pushJump .jumpIfFalse b.labels.length) = .ok () b₂
  elseBranch : expression scope e ((b₂.pushJump .jump b.newLabel.2.labels.length).bind b.labels.length) = .ok () b₃
  last : b' = b₃.bind b.newLabel.2.labels.length

theorem conditional_eq_ok {c t e : Expr} {s : Span} (h : expression scope (.conditional c t e s) b = .ok u b') :
    ∃ b₁ b₂ b₃, Branching scope c t e b b₁ b₂ b₃ b' := by
  obtain ⟨_, b₁, h₁, h⟩ := bind_eq_ok.mp (show (expression scope c >>= _) b.newLabel.2.newLabel.2 = _ from h)
  obtain ⟨_, b₂, h₂, h⟩ := bind_eq_ok.mp (show (expression scope t >>= _) (b₁.pushJump .jumpIfFalse _) = _ from h)
  obtain ⟨_, b₃, h₃, h⟩ :=
    bind_eq_ok.mp (show (expression scope e >>= _) ((b₂.pushJump .jump _).bind _) = _ from h)
  exact ⟨b₁, b₂, b₃, h₁, h₂, h₃, by cases h; rfl⟩

/-- The member of an object, which is lowered unless it names host helpers. -/
theorem member_eq_ok {object : Expr} {n : String} {s : Span} (hhost : scope.host? object = none)
    (h : expression scope (.member object n s) b = .ok u b') :
    ∃ b₁, expression scope object b = .ok () b₁ ∧ b' = b₁.push (.getProperty n) := by
  rw [expression_member hhost] at h
  obtain ⟨_, b₁, h₁, h⟩ := bind_eq_ok.mp h
  exact ⟨b₁, h₁, (emit_eq_ok.mp h).symm⟩

theorem host_member_eq_ok {object : Expr} {n host : String} {s : Span} (hhost : scope.host? object = some host)
    (h : expression scope (.member object n s) b = .ok u b') : b' = b.push (.callHost (host ++ "." ++ n) 0) := by
  rw [expression, hhost] at h
  exact (emit_eq_ok.mp h).symm

/-- A call has few enough arguments, which follow its receiver. -/
theorem call_eq_ok {callee : Expr} {args : List Expr} {s : Span}
    (h : expression scope (.call callee args s) b = .ok u b') :
    args.length < 256 ∧ ∃ invoke b₁ b₂, receiver scope callee b = .ok invoke b₁ ∧
      arguments scope args b₁ = .ok () b₂ ∧ b' = b₂.push (invoke (UInt8.ofNat args.length)) := by
  rw [expression] at h
  split at h
  · rename_i hlen
    obtain ⟨invoke, b₁, h₁, h⟩ := bind_eq_ok.mp h
    obtain ⟨_, b₂, h₂, h⟩ := bind_eq_ok.mp h
    exact ⟨hlen, invoke, b₁, b₂, h₁, h₂, (emit_eq_ok.mp h).symm⟩
  · exact absurd h unsupported_ne_ok

variable {invoke : UInt8 → Instruction}

theorem receiver_name_eq_ok {n : String} {s : Span} (h : receiver scope (.name n s) b = .ok invoke b') :
    (scope.param? n).isNone ∧ b' = b.push .loadThis ∧ invoke = .callMethod n := by
  rw [receiver] at h
  split at h
  · rename_i hp
    obtain ⟨_, b₁, h₁, h⟩ := bind_eq_ok.mp h
    obtain ⟨-, rfl⟩ := loadThis_eq_ok.mp h₁
    cases h
    exact ⟨hp, rfl, rfl⟩
  · exact absurd h unsupported_ne_ok

theorem receiver_member_eq_ok {object : Expr} {n : String} {s : Span} (hhost : scope.host? object = none)
    (h : receiver scope (.member object n s) b = .ok invoke b') :
    expression scope object b = .ok () b' ∧ invoke = .callMethod n := by
  rw [receiver_member hhost] at h
  obtain ⟨_, b₁, h₁, h⟩ := bind_eq_ok.mp h
  cases h
  exact ⟨h₁, rfl⟩

theorem receiver_host_eq_ok {object : Expr} {n host : String} {s : Span} (hhost : scope.host? object = some host)
    (h : receiver scope (.member object n s) b = .ok invoke b') :
    b' = b ∧ invoke = .callHost (host ++ "." ++ n) := by
  rw [receiver, hhost] at h
  cases h
  exact ⟨rfl, rfl⟩

theorem arguments_cons_eq_ok {e : Expr} {es : List Expr} (h : arguments scope (e :: es) b = .ok u b') :
    ∃ b₁, expression scope e b = .ok () b₁ ∧ arguments scope es b₁ = .ok () b' := by
  obtain ⟨_, b₁, h₁, h⟩ := bind_eq_ok.mp (show (expression scope e >>= _) b = _ from h)
  exact ⟨b₁, h₁, h⟩

/-! ### Lowering only adds -/

theorem Deciding.grows {jump : UInt64 → Instruction} {decided : Bool} {l r : Expr} {b₁ b₂ : MethodBuilder}
    (h : Deciding scope jump decided l r b b₁ b₂ b') (hl : b.newLabel.2.newLabel.2.Grows 0 b₁)
    (hr : (b₁.pushJump jump b.labels.length).Grows 0 b₂) : b.Grows 0 b' := by
  have h₂ := (hl.trans (grows_pushJump b₁ jump _)).trans hr
  have hlabels : b.labels <+: b₂.labels :=
    (labels_prefix_newLabel b).trans ((labels_prefix_newLabel b.newLabel.2).trans h₂.labels)
  have hpaid := hl.paid
  have hpaid₂ := hr.paid
  rw [h.last]
  refine ⟨h₂.name, h₂.paramCount, ?_, ?_, h₂.locals, h₂.nodup, h₂.few, ?_⟩
  · exact (h₂.code.trans (List.prefix_append _ _)).trans (List.prefix_append _ _)
  · exact labels_prefix_bind (labels_prefix_bind (b := b₂.pushJump _ _) hlabels (Nat.le_refl _)) (by simp)
  · simp at hpaid hpaid₂ ⊢
    omega

theorem Branching.grows {c t e : Expr} {b₁ b₂ b₃ : MethodBuilder} (h : Branching scope c t e b b₁ b₂ b₃ b')
    (hc : b.newLabel.2.newLabel.2.Grows 0 b₁) (ht : (b₁.pushJump .jumpIfFalse b.labels.length).Grows 0 b₂)
    (he : ((b₂.pushJump .jump b.newLabel.2.labels.length).bind b.labels.length).Grows 0 b₃) : b.Grows 0 b' := by
  have h₂ := (hc.trans (grows_pushJump b₁ .jumpIfFalse _)).trans ht
  have hlabels : b.labels <+: b₂.labels :=
    (labels_prefix_newLabel b).trans ((labels_prefix_newLabel b.newLabel.2).trans h₂.labels)
  have hpaid := hc.paid
  have hpaid₂ := ht.paid
  have hpaid₃ := he.paid
  rw [h.last]
  refine ⟨he.name.trans h₂.name, he.paramCount.trans h₂.paramCount, ?_, ?_, h₂.locals.trans he.locals,
    he.nodup ∘ h₂.nodup, Nat.le_trans he.few h₂.few, ?_⟩
  · exact (h₂.code.trans (List.prefix_append _ _)).trans he.code
  · refine labels_prefix_bind (List.IsPrefix.trans ?_ he.labels) (by simp)
    exact labels_prefix_bind (b := b₂.pushJump _ _) hlabels (Nat.le_refl _)
  · simp at hpaid hpaid₂ hpaid₃ ⊢
    omega

theorem grows_coalesce {b₁ b₂ : MethodBuilder} (hl : b.newLabel.2.Grows 0 b₁)
    (hr : (b₁.pushJump .jumpIfNotNull b.labels.length).Grows 0 b₂) : b.Grows 0 (b₂.bind b.labels.length) := by
  have h₂ := (hl.trans (grows_pushJump b₁ .jumpIfNotNull _)).trans hr
  have hpaid := hl.paid
  have hpaid₂ := hr.paid
  refine ⟨h₂.name, h₂.paramCount, h₂.code, ?_, h₂.locals, h₂.nodup, h₂.few, ?_⟩
  · exact labels_prefix_bind ((labels_prefix_newLabel b).trans h₂.labels) (Nat.le_refl _)
  · simp at hpaid hpaid₂ ⊢
    omega

mutual

/-- Lowering an expression only adds. -/
theorem grows_expression : ∀ (e : Expr) {b b' : MethodBuilder} {u : Unit}, expression scope e b = .ok u b' → b.Grows 0 b'
  | .literal v _, b, _, _, h => by
    obtain rfl := emit_eq_ok.mp h
    exact grows_push b _
  | .name n _, b, _, _, h => by
    obtain ⟨i, -, rfl⟩ | ⟨-, -, rfl⟩ := loadName_eq_ok h
    · exact grows_push b _
    · exact (grows_push b _).trans (grows_push _ _)
  | .this _, b, _, _, h => by
    obtain ⟨-, rfl⟩ := loadThis_eq_ok.mp h
    exact grows_push b _
  | .member object n s, b, _, _, h => by
    cases hhost : scope.host? object with
    | some host =>
      rw [host_member_eq_ok hhost h]
      exact grows_push b _
    | none =>
      obtain ⟨b₁, h₁, rfl⟩ := member_eq_ok hhost h
      exact (grows_expression object h₁).trans (grows_push b₁ _)
  | .call callee args s, b, _, _, h => by
    obtain ⟨-, invoke, b₁, b₂, h₁, h₂, rfl⟩ := call_eq_ok h
    exact ((grows_receiver callee h₁).trans (grows_arguments args h₂)).trans (grows_push b₂ _)
  | .unary op e _, b, b', u, h => by
    obtain ⟨_, b₁, h₁, h⟩ := bind_eq_ok.mp (show (expression scope e >>= _) b = _ from h)
    obtain rfl := emit_eq_ok.mp h
    exact (grows_expression e h₁).trans (grows_push b₁ _)
  | .binary op l r s, b, b', u, h => by
    cases hop : StrictOp.ofBinary? op with
    | some strict =>
      obtain ⟨b₁, b₂, h₁, h₂, rfl⟩ := strict_eq_ok hop h
      exact ((grows_expression l h₁).trans (grows_expression r h₂)).trans (grows_push b₂ _)
    | none =>
      cases op <;> cases hop
      · obtain ⟨b₁, b₂, hd⟩ := and_eq_ok h
        exact hd.grows (grows_expression l hd.left) (grows_expression r hd.right)
      · obtain ⟨b₁, b₂, hd⟩ := or_eq_ok h
        exact hd.grows (grows_expression l hd.left) (grows_expression r hd.right)
      · obtain ⟨b₁, b₂, h₁, h₂, rfl⟩ := coalesce_eq_ok h
        exact grows_coalesce (grows_expression l h₁) (grows_expression r h₂)
  | .conditional c t e s, b, b', u, h => by
    obtain ⟨b₁, b₂, b₃, hd⟩ := conditional_eq_ok h
    exact hd.grows (grows_expression c hd.condition) (grows_expression t hd.thenBranch)
      (grows_expression e hd.elseBranch)
  | .lambda _ _ _ _, _, _, _, h => absurd h unsupported_ne_ok

/-- Lowering the receiver of a call only adds. -/
theorem grows_receiver : ∀ (e : Expr) {b b' : MethodBuilder} {invoke : UInt8 → Instruction},
    receiver scope e b = .ok invoke b' → b.Grows 0 b'
  | .name n _, b, _, _, h => by
    obtain ⟨-, rfl, -⟩ := receiver_name_eq_ok h
    exact grows_push b _
  | .member object n s, b, _, _, h => by
    cases hhost : scope.host? object with
    | some host =>
      rw [(receiver_host_eq_ok hhost h).1]
      exact .refl b
    | none => exact grows_expression object (receiver_member_eq_ok hhost h).1
  | .literal _ _, _, _, _, h | .this _, _, _, _, h | .call _ _ _, _, _, _, h | .unary _ _ _, _, _, _, h
  | .binary _ _ _ _, _, _, _, h | .conditional _ _ _ _, _, _, _, h | .lambda _ _ _ _, _, _, _, h =>
    absurd h unsupported_ne_ok

/-- Lowering arguments only adds. -/
theorem grows_arguments : ∀ (es : List Expr) {b b' : MethodBuilder} {u : Unit},
    arguments scope es b = .ok u b' → b.Grows 0 b'
  | [], b, _, _, h => by
    cases h
    exact .refl b
  | e :: es, _, _, _, h => by
    obtain ⟨b₁, h₁, h₂⟩ := arguments_cons_eq_ok h
    exact (grows_expression e h₁).trans (grows_arguments es h₂)

end

end Build

namespace Run

open Build

variable {enter : Enter} {a : Activation} {built b b' : MethodBuilder} {scope : Scope} {index : String → Option Nat}

/-! ### Single instructions in a built method -/

theorem simulates_push {α : Type} {i : Instruction} {x : Run α} {k : α → List Value} {stack locals : List Value}
    (hbuilt : Built built a.method) (hext : (b.push i).Extends built) (hi : i.target? = none)
    (hstep : step enter a ⟨b.position + 1, stack, locals⟩ i =
      x >>= fun v => pure (.go ⟨b.position + 1, k v, locals⟩)) :
    Simulates enter a ⟨b.position, stack, locals⟩ x (fun v => .go ⟨(b.push i).position, k v, locals⟩) := by
  rw [position_push]
  exact Simulates.instruction (k := fun v => ⟨b.position + 1, k v, locals⟩) (fetched hbuilt.build hext hi) hstep
    fun _ => Nat.lt_succ_self _

theorem simulates_loadThis (enter : Enter) (hbuilt : Built built a.method) (hext : (b.push .loadThis).Extends built)
    (stack locals : List Value) :
    Simulates enter a ⟨b.position, stack, locals⟩ (pure (.object a.receiver))
      (fun v => .go ⟨(b.push .loadThis).position, v :: stack, locals⟩) :=
  simulates_push (k := fun v => v :: stack) hbuilt hext rfl rfl

theorem simulates_dup (enter : Enter) (hbuilt : Built built a.method) (hext : (b.push .dup).Extends built) (v : Value)
    (stack locals : List Value) :
    Simulates enter a ⟨b.position, v :: stack, locals⟩ (pure ())
      (fun _ => .go ⟨(b.push .dup).position, v :: v :: stack, locals⟩) :=
  simulates_push (k := fun _ => v :: v :: stack) hbuilt hext rfl rfl

theorem simulates_pop (enter : Enter) (hbuilt : Built built a.method) (hext : (b.push .pop).Extends built) (v : Value)
    (stack locals : List Value) :
    Simulates enter a ⟨b.position, v :: stack, locals⟩ (pure ())
      (fun _ => .go ⟨(b.push .pop).position, stack, locals⟩) :=
  simulates_push (k := fun _ => stack) hbuilt hext rfl rfl

/-- A jump to the place of a later stage. -/
theorem reaches_jump {c : MethodBuilder} {label : Nat} (hbuilt : Built built a.method)
    (hext : (b.pushJump .jump label).Extends built) (hlater : c.Extends built)
    (hbound : built.Bound label c.position) (hlt : b.position < c.position) (stack locals : List Value)
    (m : Machine) : Reaches enter a ⟨b.position, stack, locals⟩ m ⟨c.position, stack, locals⟩ m := by
  have hstep : step enter a ⟨b.position + 1, stack, locals⟩ (.jump (UInt64.ofNat c.position)) m =
      .ok (.go ⟨c.position, stack, locals⟩) m := by
    show EStateM.Result.ok (Outcome.go ⟨(UInt64.ofNat c.position).toNat, stack, locals⟩) m = _
    rw [hbuilt.toNat_position hlater]
  exact .step (fetched_jump hbuilt.build isJump_jump hext hbound hbuilt.labelSize) hstep hlt (.refl _ _)

/-- A jump that a truth value decides. -/
theorem simulates_test {c : MethodBuilder} {label : Nat} {jump : UInt64 → Instruction} {decided : Bool} {v : Value}
    {stack locals : List Value} (hbuilt : Built built a.method) (hjump : IsJump jump)
    (hstep : ∀ n t, step enter a ⟨n, v :: stack, locals⟩ (jump t) =
      truth v >>= fun d => pure (.go ⟨if d = decided then t.toNat else n, stack, locals⟩))
    (hext : (b.pushJump jump label).Extends built) (hlater : c.Extends built)
    (hbound : built.Bound label c.position) (hlt : b.position < c.position) :
    Simulates enter a ⟨b.position, v :: stack, locals⟩ (truth v)
      (fun d => .go ⟨if d = decided then c.position else b.position + 1, stack, locals⟩) := by
  refine Simulates.instruction
    (k := fun d => ⟨if d = decided then c.position else b.position + 1, stack, locals⟩)
    (fetched_jump hbuilt.build hjump hext hbound hbuilt.labelSize) ?_ fun d => ?_
  · rw [hstep, hbuilt.toNat_position hlater]
  · dsimp only
    split <;> omega

theorem jumpIfFalse_tests (v : Value) (stack locals : List Value) (n : Nat) (t : UInt64) :
    step enter a ⟨n, v :: stack, locals⟩ (.jumpIfFalse t) =
      truth v >>= fun d => pure (.go ⟨if d = false then t.toNat else n, stack, locals⟩) := by
  rw [step_jumpIfFalse]
  congr 1
  funext d
  cases d <;> rfl

theorem jumpIfTrue_tests (v : Value) (stack locals : List Value) (n : Nat) (t : UInt64) :
    step enter a ⟨n, v :: stack, locals⟩ (.jumpIfTrue t) =
      truth v >>= fun d => pure (.go ⟨if d = true then t.toNat else n, stack, locals⟩) := step_jumpIfTrue ..

/-- A jump that null decides: it is dropped, and any other value is kept. -/
theorem simulates_notNull {c : MethodBuilder} {label : Nat} {v : Value} {stack locals : List Value}
    (hbuilt : Built built a.method) (hext : (b.pushJump .jumpIfNotNull label).Extends built)
    (hlater : c.Extends built) (hbound : built.Bound label c.position) (hlt : b.position < c.position) :
    Simulates enter a ⟨b.position, v :: stack, locals⟩ (pure ()) (fun _ => .go (if v = .null then
      ⟨(b.pushJump .jumpIfNotNull label).position, stack, locals⟩ else ⟨c.position, v :: stack, locals⟩)) := by
  refine Simulates.instruction (k := fun _ => if v = .null then
      ⟨(b.pushJump .jumpIfNotNull label).position, stack, locals⟩ else ⟨c.position, v :: stack, locals⟩)
    (fetched_jump hbuilt.build isJump_jumpIfNotNull hext hbound hbuilt.labelSize) ?_ fun _ => ?_
  · rw [step_jumpIfNotNull, hbuilt.toNat_position hlater, position_pushJump]
    rfl
  · rw [position_pushJump]
    split <;> simp only <;> omega

/-! ### Expressions that decide which of their parts are evaluated -/

/-- The instructions of an expression, wherever they stand in a built method, compute what `x` computes. -/
def Computes (enter : Enter) (a : Activation) (built b b' : MethodBuilder) (x : Run Value) : Prop :=
  b'.Extends built → ∀ stack locals,
    Simulates enter a ⟨b.position, stack, locals⟩ x (fun v => .go ⟨b'.position, v :: stack, locals⟩)

theorem computes_deciding {jump : UInt64 → Instruction} {decided : Bool} {l r : Expr} {b₁ b₂ : MethodBuilder}
    {x y : Run Value} (hbuilt : Built built a.method) (hjump : IsJump jump)
    (hstep : ∀ v stack locals n t, step enter a ⟨n, v :: stack, locals⟩ (jump t) =
      truth v >>= fun d => pure (.go ⟨if d = decided then t.toNat else n, stack, locals⟩))
    (hd : Deciding scope jump decided l r b b₁ b₂ b')
    (hx : Computes enter a built b.newLabel.2.newLabel.2 b₁ x)
    (hy : Computes enter a built (b₁.pushJump jump b.labels.length) b₂ y) :
    Computes enter a built b b' (do
      let v ← x
      let d ← truth v
      if d = decided then return .bool decided else y) := by
  intro hext stack locals
  obtain ⟨hl, hr, hlast⟩ := hd
  have hgl := grows_expression l hl
  have hgr := grows_expression r hr
  have hne : b.labels.length ≠ b.newLabel.2.labels.length := by simp
  -- Both labels stay open until they are bound.
  have hopen : b₂.Open b.labels.length :=
    hgr.open_ (hgl.open_ (getElem?_of_leading (labels_prefix_newLabel _) (open_newLabel b)))
  have hopen' : b₂.Open b.newLabel.2.labels.length := hgr.open_ (hgl.open_ (open_newLabel b.newLabel.2))
  set b₃ := b₂.pushJump .jump b.newLabel.2.labels.length with hb₃
  set b₄ := b₃.bind b.labels.length with hb₄
  set b₅ := b₄.push (.pushBool decided) with hb₅
  have hopen₄ : b₅.Open b.newLabel.2.labels.length := (bind_open_of_ne hne).mpr hopen'
  have h₅ : b₅.Extends built := (hlast ▸ extends_bind hopen₄).trans hext
  have h₄ : b₄.Extends built := (grows_push b₄ _).extends.trans h₅
  have h₃ : b₃.Extends built := (extends_bind (b := b₃) hopen).trans h₄
  have h₂ : b₂.Extends built := (grows_pushJump b₂ _ _).extends.trans h₃
  have h₁ : (b₁.pushJump jump b.labels.length).Extends built := hgr.extends.trans h₂
  have hshort : built.Bound b.labels.length b₄.position := h₄.bound _ _ (bound_bind (b := b₃) hopen)
  have hdone : built.Bound b.newLabel.2.labels.length b'.position :=
    hext.bound _ _ (hlast ▸ bound_bind hopen₄)
  have hpos₅ : b₅.position = b'.position := by rw [hlast]; rfl
  have hpos' : b'.position = b₂.position + 2 := by rw [hlast]; simp [hb₅, hb₄, hb₃]
  have hle₁ := hgl.position_le
  have hle₂ := hgr.position_le
  rw [position_pushJump] at hle₂
  refine (hx ((grows_pushJump b₁ _ _).extends.trans h₁) stack locals).seq fun v => ?_
  have htest : Simulates enter a _ (truth v) _ :=
    simulates_test hbuilt hjump (hstep v stack locals) h₁ h₄ hshort (by simp [hb₄, hb₃]; omega)
  refine htest.bind (fun d f' _ hf => ?_) (fun _ _ hf => nomatch hf)
  cases hf
  by_cases hdec : d = decided
  · -- The left operand decides: the constant is pushed at the place of the first label.
    simp only [if_pos hdec]
    rw [← hpos₅]
    exact simulates_push hbuilt h₅ rfl rfl
  · -- The right operand is the value, and a jump leads over the constant.
    simp only [if_neg hdec]
    rw [← position_pushJump b₁ jump b.labels.length]
    refine (hy h₂ stack locals).follow fun w m => ?_
    exact reaches_jump hbuilt h₃ hext hdone (by omega) _ _ m

theorem computes_coalesce {l r : Expr} {b₁ b₂ : MethodBuilder} {x y : Run Value} (hbuilt : Built built a.method)
    (hl : expression scope l b.newLabel.2 = .ok () b₁)
    (hr : expression scope r (b₁.pushJump .jumpIfNotNull b.labels.length) = .ok () b₂)
    (hx : Computes enter a built b.newLabel.2 b₁ x)
    (hy : Computes enter a built (b₁.pushJump .jumpIfNotNull b.labels.length) b₂ y) :
    Computes enter a built b (b₂.bind b.labels.length) (do
      let v ← x
      if v = .null then y else return v) := by
  intro hext stack locals
  have hgl := grows_expression l hl
  have hgr := grows_expression r hr
  have hopen : b₂.Open b.labels.length := hgr.open_ (hgl.open_ (open_newLabel b))
  have h₂ : b₂.Extends built := (extends_bind hopen).trans hext
  have h₁ : (b₁.pushJump .jumpIfNotNull b.labels.length).Extends built := hgr.extends.trans h₂
  have hdone : built.Bound b.labels.length b₂.position := hext.bound _ _ (bound_bind hopen)
  have hlt := hgr.position_le
  rw [position_pushJump] at hlt
  refine (hx ((grows_pushJump b₁ _ _).extends.trans h₁) stack locals).seq fun v => ?_
  refine (simulates_notNull hbuilt h₁ h₂ hdone hlt).before ?_
  by_cases hv : v = .null
  · rw [if_pos hv, if_pos hv]
    exact hy h₂ stack locals
  · rw [if_neg hv, if_neg hv]
    exact .pure_go _ _ rfl

theorem computes_branching {c t e : Expr} {b₁ b₂ b₃ : MethodBuilder} {x y z : Run Value}
    (hbuilt : Built built a.method) (hd : Branching scope c t e b b₁ b₂ b₃ b')
    (hx : Computes enter a built b.newLabel.2.newLabel.2 b₁ x)
    (hy : Computes enter a built (b₁.pushJump .jumpIfFalse b.labels.length) b₂ y)
    (hz : Computes enter a built ((b₂.pushJump .jump b.newLabel.2.labels.length).bind b.labels.length) b₃ z) :
    Computes enter a built b b' (do
      let v ← x
      let d ← truth v
      if d then y else z) := by
  intro hext stack locals
  obtain ⟨hc, ht, he, hlast⟩ := hd
  have hgc := grows_expression c hc
  have hgt := grows_expression t ht
  have hge := grows_expression e he
  have hne : b.labels.length ≠ b.newLabel.2.labels.length := by simp
  have hopen : b₂.Open b.labels.length :=
    hgt.open_ (hgc.open_ (getElem?_of_leading (labels_prefix_newLabel _) (open_newLabel b)))
  have hopen' : b₂.Open b.newLabel.2.labels.length := hgt.open_ (hgc.open_ (open_newLabel b.newLabel.2))
  set b₄ := b₂.pushJump .jump b.newLabel.2.labels.length with hb₄
  set b₅ := b₄.bind b.labels.length with hb₅
  have hopen₃ : b₃.Open b.newLabel.2.labels.length := hge.open_ ((bind_open_of_ne hne).mpr hopen')
  have h₃ : b₃.Extends built := (hlast ▸ extends_bind hopen₃).trans hext
  have h₅ : b₅.Extends built := hge.extends.trans h₃
  have h₄ : b₄.Extends built := (extends_bind (b := b₄) hopen).trans h₅
  have h₂ : b₂.Extends built := (grows_pushJump b₂ _ _).extends.trans h₄
  have h₁ : (b₁.pushJump .jumpIfFalse b.labels.length).Extends built := hgt.extends.trans h₂
  have hother : built.Bound b.labels.length b₅.position := h₅.bound _ _ (bound_bind (b := b₄) hopen)
  have hdone : built.Bound b.newLabel.2.labels.length b'.position :=
    hext.bound _ _ (hlast ▸ bound_bind hopen₃)
  have hpos₃ : b₃.position = b'.position := by rw [hlast]; rfl
  have hpos₅ : b₅.position = b₂.position + 1 := by simp [hb₅, hb₄]
  have hle₂ := hgt.position_le
  have hle₃ := hge.position_le
  rw [position_pushJump] at hle₂
  refine (hx ((grows_pushJump b₁ _ _).extends.trans h₁) stack locals).seq fun v => ?_
  have htest : Simulates enter a _ (truth v) _ :=
    simulates_test hbuilt isJump_jumpIfFalse (jumpIfFalse_tests v stack locals) h₁ h₅ hother (by omega)
  refine htest.bind (fun d f' _ hf => ?_) (fun _ _ hf => nomatch hf)
  cases hf
  cases d with
  | true =>
    rw [if_pos rfl, if_neg (by decide : ¬ true = false), ← position_pushJump b₁ .jumpIfFalse b.labels.length]
    refine (hy h₂ stack locals).follow fun w m => ?_
    exact reaches_jump hbuilt h₄ hext hdone (by omega) _ _ m
  | false =>
    rw [if_neg Bool.false_ne_true, if_pos rfl, ← hpos₃]
    exact hz h₃ stack locals

/-! ### Every expression -/

theorem evaluateAll_length : ∀ {es : List Expr} {vs : List Value} {m m' : Machine},
    evaluateAll enter a index es m = .ok vs m' → vs.length = es.length
  | [], _, _, _, h => by
    cases h
    rfl
  | e :: es, _, _, _, h => by
    rw [evaluateAll] at h
    obtain ⟨v, m₁, -, h⟩ := bind_eq_ok.mp h
    obtain ⟨vs, m₂, hvs, h⟩ := bind_eq_ok.mp h
    obtain ⟨rfl, -⟩ := pure_eq_ok.mp h
    simp [evaluateAll_length hvs]

theorem evaluate_call_name {n : String} {s s' : Span} {args : List Expr} (hp : (index n).isNone) :
    evaluate enter a index (.call (.name n s') args s) =
      (evaluateAll enter a index args >>= fun vs => callOn enter a.refreshing n vs (.object a.receiver)) := by
  rw [evaluate, target, if_pos hp]
  rfl

theorem evaluate_call_host {object : Expr} {n host : String} {s s' : Span} {args : List Expr}
    (hhost : hostName index object = some host) :
    evaluate enter a index (.call (.member object n s') args s) =
      (evaluateAll enter a index args >>= fun vs => ofExcept (Value.callHost (host ++ "." ++ n) vs)) := by
  rw [evaluate, target, hhost]
  rfl

theorem evaluate_call_member {object : Expr} {n : String} {s s' : Span} {args : List Expr}
    (hhost : hostName index object = none) :
    evaluate enter a index (.call (.member object n s') args s) = (do
      let v ← evaluate enter a index object
      let vs ← evaluateAll enter a index args
      callOn enter a.refreshing n vs v) := by
  rw [evaluate, target, hhost]
  exact bind_assoc _ _ _

theorem hostName_eq (hindex : ∀ n, index n = (scope.param? n).map UInt16.toNat) (e : Expr) :
    hostName index e = scope.host? e := by
  cases e with
  | name n s => rw [hostName, Scope.host?, hindex, Option.isNone_map]
  | _ => rfl

/-- The number of a parameter, if all of them can be numbered. -/
theorem toNat_param (hscope : scope.params.length < UInt16.size) (n : String) :
    scope.params.idxOf? n = (scope.param? n).map UInt16.toNat := by
  rw [Scope.param?, Option.map_map]
  cases hi : scope.params.idxOf? n with
  | none => rfl
  | some i =>
    have hlt : i < scope.params.length := (List.idxOf?_eq_some_iff.mp hi).1
    rw [Option.map_some, Function.comp, UInt16.toNat_ofNat_of_lt' (Nat.lt_trans hlt hscope)]

mutual

/-- The instructions of an expression compute its value. -/
theorem computes_expression (hbuilt : Built built a.method) (hindex : ∀ n, index n = (scope.param? n).map UInt16.toNat) :
    ∀ (e : Expr) {b b' : MethodBuilder} {u : Unit}, expression scope e b = .ok u b' →
      Computes enter a built b b' (evaluate enter a index e)
  | .literal v _, b, _, _, h => by
    obtain rfl := emit_eq_ok.mp h
    intro hext stack locals
    refine simulates_push (x := pure v.value) (k := fun w => w :: stack) hbuilt hext ?_ ?_ <;> cases v <;> rfl
  | .name n _, b, _, _, h => by
    intro hext stack locals
    obtain ⟨i, hi, rfl⟩ | ⟨hi, hhost, rfl⟩ := loadName_eq_ok h
    · rw [evaluate, nameValue, hindex, Scope.param?, hi]
      exact simulates_push (k := fun w => w :: stack) hbuilt hext rfl (step_loadArg ..)
    · rw [evaluate, nameValue, hindex, Scope.param?, hi]
      dsimp only [Option.map_none]
      rw [hhost, if_neg Bool.false_ne_true]
      have hthis := simulates_loadThis enter hbuilt ((grows_push _ _).extends.trans hext) stack locals
      exact hthis.seq fun v => simulates_push hbuilt hext rfl (step_getProperty ..)
  | .this _, b, _, _, h => by
    obtain ⟨-, rfl⟩ := loadThis_eq_ok.mp h
    intro hext stack locals
    exact simulates_loadThis enter hbuilt hext stack locals
  | .member object n s, b, _, _, h => by
    intro hext stack locals
    cases hhost : scope.host? object with
    | some host =>
      obtain rfl := host_member_eq_ok hhost h
      rw [evaluate_host ((hostName_eq hindex object).trans hhost)]
      exact simulates_push hbuilt hext rfl (step_callHost enter a _ stack locals _ [] rfl)
    | none =>
      obtain ⟨b₁, h₁, rfl⟩ := member_eq_ok hhost h
      rw [evaluate_member ((hostName_eq hindex object).trans hhost)]
      have hobject := computes_expression hbuilt hindex object h₁ ((grows_push _ _).extends.trans hext) stack locals
      exact hobject.seq fun v => simulates_push hbuilt hext rfl (step_getProperty ..)
  | .call callee args s, b, _, _, h => by
    intro hext stack locals
    obtain ⟨hlen, invoke, b₁, b₂, h₁, h₂, rfl⟩ := call_eq_ok h
    have hext₂ : b₂.Extends built := (grows_push _ _).extends.trans hext
    have hext₁ : b₁.Extends built := (grows_arguments args h₂).extends.trans hext₂
    have hargc : (UInt8.ofNat args.length).toNat = args.length := UInt8.toNat_ofNat_of_lt' hlen
    have hargs := computes_arguments hbuilt hindex args h₂ hext₂
    cases callee with
    | name n s' =>
      obtain ⟨hp, rfl, rfl⟩ := receiver_name_eq_ok h₁
      rw [evaluate_call_name (by rw [hindex, Option.isNone_map]; exact hp)]
      have hthis := simulates_loadThis enter hbuilt hext₁ stack locals
      refine hthis.seq (y := fun v => evaluateAll enter a index args >>= fun vs => callOn enter a.refreshing n vs v)
        fun v => (hargs (v :: stack) locals).seq_of ?_
      rintro vs ⟨m, m', hvs⟩
      exact simulates_push hbuilt hext rfl
        (step_callMethod enter a _ stack locals v n vs (hargc.trans (evaluateAll_length hvs).symm))
    | member object n s' =>
      cases hhost : scope.host? object with
      | some host =>
        obtain ⟨rfl, rfl⟩ := receiver_host_eq_ok hhost h₁
        rw [evaluate_call_host ((hostName_eq hindex object).trans hhost)]
        refine (hargs stack locals).seq_of ?_
        rintro vs ⟨m, m', hvs⟩
        exact simulates_push hbuilt hext rfl
          (step_callHost enter a _ stack locals _ vs (hargc.trans (evaluateAll_length hvs).symm))
      | none =>
        obtain ⟨hobj, rfl⟩ := receiver_member_eq_ok hhost h₁
        rw [evaluate_call_member ((hostName_eq hindex object).trans hhost)]
        have hobject := computes_expression hbuilt hindex object hobj hext₁ stack locals
        refine hobject.seq fun v => (hargs (v :: stack) locals).seq_of ?_
        rintro vs ⟨m, m', hvs⟩
        exact simulates_push hbuilt hext rfl
          (step_callMethod enter a _ stack locals v n vs (hargc.trans (evaluateAll_length hvs).symm))
    | literal _ _ => exact absurd h₁ unsupported_ne_ok
    | this _ => exact absurd h₁ unsupported_ne_ok
    | call _ _ _ => exact absurd h₁ unsupported_ne_ok
    | unary _ _ _ => exact absurd h₁ unsupported_ne_ok
    | binary _ _ _ _ => exact absurd h₁ unsupported_ne_ok
    | conditional _ _ _ _ => exact absurd h₁ unsupported_ne_ok
    | lambda _ _ _ _ => exact absurd h₁ unsupported_ne_ok
  | .unary op e _, b, b', u, h => by
    intro hext stack locals
    obtain ⟨_, b₁, h₁, h⟩ := bind_eq_ok.mp (show (expression scope e >>= _) b = _ from h)
    obtain rfl := emit_eq_ok.mp h
    rw [evaluate]
    have he := computes_expression hbuilt hindex e h₁ ((grows_push _ _).extends.trans hext) stack locals
    exact he.seq fun v => simulates_push hbuilt hext rfl (step_unary ..)
  | .binary op l r s, b, b', u, h => by
    cases hop : StrictOp.ofBinary? op with
    | some strict =>
      intro hext stack locals
      obtain ⟨b₁, b₂, h₁, h₂, rfl⟩ := strict_eq_ok hop h
      have hext₂ : b₂.Extends built := (grows_push _ _).extends.trans hext
      have hl := computes_expression hbuilt hindex l h₁ ((grows_expression r h₂).extends.trans hext₂) stack locals
      rw [evaluate_strict hop]
      refine hl.seq fun v => ?_
      refine (computes_expression hbuilt hindex r h₂ hext₂ (v :: stack) locals).seq fun w => ?_
      exact simulates_push hbuilt hext rfl (step_binary ..)
    | none =>
      cases op <;> cases hop
      · obtain ⟨b₁, b₂, hd⟩ := and_eq_ok h
        rw [evaluate_and]
        exact computes_deciding hbuilt isJump_jumpIfFalse jumpIfFalse_tests hd
          (computes_expression hbuilt hindex l hd.left) (computes_expression hbuilt hindex r hd.right)
      · obtain ⟨b₁, b₂, hd⟩ := or_eq_ok h
        exact computes_deciding hbuilt isJump_jumpIfTrue jumpIfTrue_tests hd
          (computes_expression hbuilt hindex l hd.left) (computes_expression hbuilt hindex r hd.right)
      · obtain ⟨b₁, b₂, h₁, h₂, rfl⟩ := coalesce_eq_ok h
        exact computes_coalesce hbuilt h₁ h₂ (computes_expression hbuilt hindex l h₁)
          (computes_expression hbuilt hindex r h₂)
  | .conditional c t e s, b, b', u, h => by
    obtain ⟨b₁, b₂, b₃, hd⟩ := conditional_eq_ok h
    exact computes_branching hbuilt hd (computes_expression hbuilt hindex c hd.condition)
      (computes_expression hbuilt hindex t hd.thenBranch) (computes_expression hbuilt hindex e hd.elseBranch)
  | .lambda _ _ _ _, _, _, _, h => absurd h unsupported_ne_ok

/-- The instructions of arguments compute their values, the last one on top. -/
theorem computes_arguments (hbuilt : Built built a.method) (hindex : ∀ n, index n = (scope.param? n).map UInt16.toNat) :
    ∀ (es : List Expr) {b b' : MethodBuilder} {u : Unit}, arguments scope es b = .ok u b' →
      b'.Extends built → ∀ stack locals, Simulates enter a ⟨b.position, stack, locals⟩ (evaluateAll enter a index es)
        (fun vs => .go ⟨b'.position, vs.reverse ++ stack, locals⟩)
  | [], b, _, _, h => by
    cases h
    exact fun _ stack locals => .pure_go _ _ rfl
  | e :: es, b, b', _, h => by
    intro hext stack locals
    obtain ⟨b₁, h₁, h₂⟩ := arguments_cons_eq_ok h
    have he := computes_expression hbuilt hindex e h₁ ((grows_arguments es h₂).extends.trans hext) stack locals
    rw [evaluateAll]
    refine he.seq fun v => (computes_arguments hbuilt hindex es h₂ hext (v :: stack) locals).seq fun vs => ?_
    exact .pure_go _ _ (by simp)

end

/-- **Lowering is correct.**  Let the instructions of an expression be added to a method at any stage of its building,
and let the method be built of any later stage.  With any operands, locals and arguments and in any state of the
machine, the built method does from the first of these instructions on what the evaluation of the expression does: it
comes to stand behind the last of them with the value as one more operand, having done to the machine what the
evaluation does; or it stops with the same error in the same state.  `Run.body` executes the instructions so. -/
theorem lowered_expression_correct {scope : Scope} (hscope : scope.params.length ≤ 65535) {e : Expr}
    {b b' built : MethodBuilder} (h : Build.expression scope e b = .ok () b') (hext : b'.Extends built)
    (enter : Enter) (a : Activation) (hbuilt : Built built a.method) (stack locals : List Value) (m : Machine) :
    (match evaluate enter a scope.params.idxOf? e m with
      | .ok v m' => Reaches enter a ⟨b.position, stack, locals⟩ m ⟨b'.position, v :: stack, locals⟩ m'
      | .error stop m' => Stops enter a ⟨b.position, stack, locals⟩ m stop m') ∧
    ∃ n, n ≤ a.method.code.length ∧ ∀ fuel, body enter a (n + fuel) ⟨b.position, stack, locals⟩ m =
      match evaluate enter a scope.params.idxOf? e m with
      | .ok v m' => body enter a fuel ⟨b'.position, v :: stack, locals⟩ m'
      | .error stop m' => .error stop m' := by
  have hsim : Simulates enter a _ (evaluate enter a scope.params.idxOf? e) _ :=
    computes_expression hbuilt (toNat_param (Nat.lt_succ_of_le hscope)) e h hext stack locals
  have hm := hsim m
  obtain ⟨n, hn, hrun⟩ := body_of_go hsim m
  cases hx : evaluate enter a scope.params.idxOf? e m with
  | ok v m' =>
    rw [hx] at hm hrun
    exact ⟨hm, n, hn, hrun⟩
  | error stop m' =>
    rw [hx] at hm hrun
    exact ⟨hm, n, hn, hrun⟩

/-- `(p && true) ? (null ?? 7) : this`. -/
def nested : Expr :=
  .conditional (.binary .and (.name "p" .none) (.literal (.bool true) .none) .none)
    (.binary .coalesce (.literal .null .none) (.literal (.int 7) .none) .none) (.this .none) .none

/-- A method that has `nested` behind another instruction, as it is being built. -/
def nestedBuilder : MethodBuilder :=
  ⟨"test", 1,
    [.pushNull, .loadArg 0, .jumpIfFalse 3, .pushBool true, .jump 4, .pushBool false, .jumpIfFalse 1, .pushNull,
      .jumpIfNotNull 5, .pushInt 7, .jump 2, .loadThis],
    ["old"], [some 0, some 11, some 12, some 5, some 6, some 10]⟩

/-- The method of `nestedBuilder`. -/
def nestedMethod : CompiledMethod :=
  ⟨"test", 1, 1,
    [.pushNull, .loadArg 0, .jumpIfFalse 5, .pushBool true, .jump 6, .pushBool false, .jumpIfFalse 11, .pushNull,
      .jumpIfNotNull 10, .pushInt 7, .jump 12, .loadThis]⟩

/-- Given a true argument, `nested` pushes seven on top of what there is. -/
theorem lowered_expression_correct_nested :
    Build.expression (.ofInstance ["p"]) nested ⟨"test", 1, [.pushNull], ["old"], [some 0]⟩ = .ok () nestedBuilder ∧
      ∀ (enter : Enter) (m : Machine), Reaches enter ⟨nestedMethod, 0, [.bool true], []⟩
        ⟨1, [.null], [.null]⟩ m ⟨12, [.int 7, .null], [.null]⟩ m := by
  refine ⟨rfl, fun enter m => ?_⟩
  have hbuilt : Built nestedBuilder nestedMethod := ⟨rfl, by decide, by decide⟩
  have hscope : (Scope.ofInstance ["p"]).params.length ≤ 65535 := by decide
  have hrun := lowered_expression_correct hscope (e := nested)
    (b := ⟨"test", 1, [.pushNull], ["old"], [some 0]⟩) rfl (Extends.refl nestedBuilder) enter
    ⟨nestedMethod, 0, [.bool true], []⟩ hbuilt [.null] [.null] m
  exact hrun.1

end Run

end Reactive
