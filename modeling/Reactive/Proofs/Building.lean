import Reactive.Patch.Builder
import Reactive.Proofs.Stateful

/-!
# Reactive.Proofs.Building — what stays as a method is built

Instructions and locals are only added, and a label keeps the place that it is bound to.  `Extends` says so of a method
in two stages of its building; `Grows` says more of a stage that belongs to one piece: labels that were there before are
not touched, and every new label is paid for with an instruction.  `fetched` and `fetched_jump` give the instruction
that the built method has at a place.
-/

namespace Reactive

open Stateful

namespace MethodBuilder

/-- The label is bound to a place. -/
def Bound (b : MethodBuilder) (label place : Nat) : Prop := b.labels[label]? = some (some place)

/-- The label is there and has no place yet. -/
def Open (b : MethodBuilder) (label : Nat) : Prop := b.labels[label]? = some none

/-- A later stage of a method. -/
structure Extends (b b' : MethodBuilder) : Prop where
  code : b.code <+: b'.code
  bound : ∀ label place, b.Bound label place → b'.Bound label place
  locals : b.locals <+: b'.locals

/-- A later stage of a method, with one more piece of it complete that has at most `n` locals of its own. -/
structure Grows (n : Nat) (b b' : MethodBuilder) : Prop where
  name : b'.name = b.name
  paramCount : b'.paramCount = b.paramCount
  code : b.code <+: b'.code
  labels : b.labels <+: b'.labels
  locals : b.locals <+: b'.locals
  nodup : b.locals.Nodup → b'.locals.Nodup
  few : b'.locals.length ≤ b.locals.length + n
  /-- New labels are not more than new instructions. -/
  paid : b'.labels.length + b.code.length ≤ b.labels.length + b'.code.length

variable {b b₁ b₂ b₃ built : MethodBuilder} {label place n k : Nat}

/-! ### Later stages -/

theorem Extends.refl (b : MethodBuilder) : b.Extends b := ⟨List.prefix_rfl, fun _ _ h => h, List.prefix_rfl⟩

theorem Extends.trans (h : b₁.Extends b₂) (h' : b₂.Extends b₃) : b₁.Extends b₃ :=
  ⟨h.code.trans h'.code, fun label place hb => h'.bound label place (h.bound label place hb),
    h.locals.trans h'.locals⟩

theorem Grows.refl (b : MethodBuilder) : b.Grows 0 b :=
  ⟨rfl, rfl, List.prefix_rfl, List.prefix_rfl, List.prefix_rfl, id, by omega, by omega⟩

theorem Grows.trans (h : b₁.Grows n b₂) (h' : b₂.Grows k b₃) : b₁.Grows (n + k) b₃ where
  name := h'.name.trans h.name
  paramCount := h'.paramCount.trans h.paramCount
  code := h.code.trans h'.code
  labels := h.labels.trans h'.labels
  locals := h.locals.trans h'.locals
  nodup := h'.nodup ∘ h.nodup
  few := by
    have := h.few
    have := h'.few
    omega
  paid := by
    have := h.paid
    have := h'.paid
    omega

/-- A piece may be said to have more locals than it has. -/
theorem Grows.mono (h : b₁.Grows n b₂) (hle : n ≤ k) : b₁.Grows k b₂ := { h with few := by have := h.few; omega }

theorem getElem?_of_leading {α : Type} {xs ys : List α} (h : xs <+: ys) {i : Nat} {x : α} (hx : xs[i]? = some x) :
    ys[i]? = some x := by
  obtain ⟨zs, rfl⟩ := h
  rw [List.getElem?_append_left (List.getElem?_eq_some_iff.mp hx).1, hx]

theorem Grows.extends (h : b.Grows n b₁) : b.Extends b₁ :=
  ⟨h.code, fun _ _ hb => getElem?_of_leading h.labels hb, h.locals⟩

theorem Grows.position_le (h : b.Grows n b₁) : b.position ≤ b₁.position := h.code.length_le

theorem Grows.bound (h : b.Grows n b₁) (hb : b.Bound label place) : b₁.Bound label place :=
  getElem?_of_leading h.labels hb

theorem Grows.open_ (h : b.Grows n b₁) (hb : b.Open label) : b₁.Open label := getElem?_of_leading h.labels hb

/-! ### Single steps -/

@[simp] theorem position_push (b : MethodBuilder) (i : Instruction) : (b.push i).position = b.position + 1 := by
  simp [position, push]

@[simp] theorem labels_push (b : MethodBuilder) (i : Instruction) : (b.push i).labels = b.labels := rfl

@[simp] theorem position_newLabel (b : MethodBuilder) : b.newLabel.2.position = b.position := rfl

@[simp] theorem position_bind (b : MethodBuilder) (label : Nat) : (b.bind label).position = b.position := rfl

@[simp] theorem position_pushJump (b : MethodBuilder) (jump : UInt64 → Instruction) (label : Nat) :
    (b.pushJump jump label).position = b.position + 1 := position_push b _

theorem grows_push (b : MethodBuilder) (i : Instruction) : b.Grows 0 (b.push i) :=
  ⟨rfl, rfl, List.prefix_append _ _, List.prefix_rfl, List.prefix_rfl, id, Nat.le_refl _, by simp [push]⟩

theorem grows_pushJump (b : MethodBuilder) (jump : UInt64 → Instruction) (label : Nat) :
    b.Grows 0 (b.pushJump jump label) := grows_push b _

@[simp] theorem labels_pushJump (b : MethodBuilder) (jump : UInt64 → Instruction) (label : Nat) :
    (b.pushJump jump label).labels = b.labels := rfl

@[simp] theorem code_newLabel (b : MethodBuilder) : b.newLabel.2.code = b.code := rfl

@[simp] theorem code_bind (b : MethodBuilder) (label : Nat) : (b.bind label).code = b.code := rfl

@[simp] theorem length_newLabel (b : MethodBuilder) : b.newLabel.2.labels.length = b.labels.length + 1 := by
  simp [newLabel]

@[simp] theorem length_push (b : MethodBuilder) (i : Instruction) : (b.push i).code.length = b.code.length + 1 := by
  simp [push]

@[simp] theorem length_pushJump (b : MethodBuilder) (jump : UInt64 → Instruction) (label : Nat) :
    (b.pushJump jump label).code.length = b.code.length + 1 := length_push b _

@[simp] theorem length_bind (b : MethodBuilder) (label : Nat) : (b.bind label).labels.length = b.labels.length := by
  simp [bind]

theorem open_newLabel (b : MethodBuilder) : b.newLabel.2.Open b.labels.length := by
  simp [Open, newLabel]

theorem bound_bind (h : b.Open label) : (b.bind label).Bound label b.position := by
  have hlt := (List.getElem?_eq_some_iff.mp h).1
  simp [Bound, bind, hlt]

theorem bind_bound_of_ne {other : Nat} (hne : label ≠ other) : (b.bind label).Bound other place ↔ b.Bound other place := by
  simp [Bound, bind, List.getElem?_set_ne hne]

theorem bind_open_of_ne {other : Nat} (hne : label ≠ other) : (b.bind label).Open other ↔ b.Open other := by
  simp [Open, bind, List.getElem?_set_ne hne]

theorem extends_bind (h : b.Open label) : b.Extends (b.bind label) := by
  refine ⟨List.prefix_rfl, fun other place hb => ?_, List.prefix_rfl⟩
  refine (bind_bound_of_ne ?_).mpr hb
  rintro rfl
  rw [Bound, h] at hb
  cases hb

/-- Labels from a number on may be bound without touching those before. -/
theorem labels_prefix_bind {ls : List (Option Nat)} (h : ls <+: b.labels) (hle : ls.length ≤ label) :
    ls <+: (b.bind label).labels := by
  obtain ⟨zs, hzs⟩ := h
  rw [bind, ← hzs, List.set_append_right _ _ hle]
  exact List.prefix_append _ _

theorem labels_prefix_newLabel (b : MethodBuilder) : b.labels <+: b.newLabel.2.labels := List.prefix_append _ _

/-! ### Locals -/

/-- The number is the one of the local of a name. -/
def IsLocal (b : MethodBuilder) (i : UInt16) (name : String) : Prop := b.locals[i.toNat]? = some name

/-- Locals have distinct names, and few enough of them to be numbered. -/
structure Numbered (b : MethodBuilder) : Prop where
  nodup : b.locals.Nodup
  few : b.locals.length < UInt16.size

theorem IsLocal.of_local? {name : String} {i : UInt16} (h : b.local? name = some i) (hext : b.Extends built)
    (hfew : built.locals.length < UInt16.size) : built.IsLocal i name := by
  obtain ⟨n, hn, rfl⟩ := Option.map_eq_some_iff.mp h
  obtain ⟨hlt, hat⟩ := List.findIdx?_eq_some_iff_getElem.mp hn
  have hle := hext.locals.length_le
  have hat' : b.locals[n]? = some name := List.getElem?_eq_some_iff.mpr ⟨hlt, by simpa using hat.1⟩
  rw [IsLocal, UInt16.toNat_ofNat_of_lt' (by omega)]
  exact getElem?_of_leading hext.locals hat'

/-- A local that is asked for is there then, and nothing else has changed. -/
theorem allocate_cases (b : MethodBuilder) (name : String) :
    (∃ i, b.local? name = some i ∧ b.allocate name = (i, b)) ∨
      (name ∉ b.locals ∧ b.allocate name = (UInt16.ofNat b.locals.length, { b with locals := b.locals ++ [name] })) := by
  unfold allocate
  cases h : b.local? name with
  | some i => exact Or.inl ⟨i, rfl, rfl⟩
  | none =>
    refine Or.inr ⟨fun hmem => ?_, rfl⟩
    have := List.idxOf?_eq_none_iff.mp (Option.map_eq_none_iff.mp h)
    exact this hmem

theorem grows_allocate (b : MethodBuilder) (name : String) : b.Grows 1 (b.allocate name).2 := by
  obtain ⟨i, -, h⟩ | ⟨hnew, h⟩ := allocate_cases b name
  · rw [h]
    exact (Grows.refl b).mono (by omega)
  · rw [h]
    refine ⟨rfl, rfl, List.prefix_rfl, List.prefix_rfl, List.prefix_append _ _, fun hnodup => ?_, by simp, by simp⟩
    exact List.nodup_append.mpr ⟨hnodup, by simp, fun x hx y hy => by
      rintro rfl
      exact hnew (by simpa using List.mem_singleton.mp hy ▸ hx)⟩

@[simp] theorem code_allocate (b : MethodBuilder) (name : String) : (b.allocate name).2.code = b.code := by
  obtain ⟨i, -, h⟩ | ⟨-, h⟩ := allocate_cases b name <;> rw [h]

@[simp] theorem position_allocate (b : MethodBuilder) (name : String) :
    (b.allocate name).2.position = b.position := congrArg List.length (code_allocate b name)

@[simp] theorem labels_allocate (b : MethodBuilder) (name : String) : (b.allocate name).2.labels = b.labels := by
  obtain ⟨i, -, h⟩ | ⟨-, h⟩ := allocate_cases b name <;> rw [h]

theorem isLocal_allocate {name : String} (hext : (b.allocate name).2.Extends built)
    (hfew : built.locals.length < UInt16.size) : built.IsLocal (b.allocate name).1 name := by
  obtain ⟨i, hi, h⟩ | ⟨-, h⟩ := allocate_cases b name
  · rw [h] at hext ⊢
    exact .of_local? hi hext hfew
  · rw [h] at hext ⊢
    have hle := hext.locals.length_le
    rw [List.length_append, List.length_singleton] at hle
    rw [IsLocal, UInt16.toNat_ofNat_of_lt' (by omega)]
    exact getElem?_of_leading hext.locals (by simp)

/-! ### Built methods -/

/-- What the building of a method made of each instruction. -/
theorem mapM_resolve {labels : List (Option Nat)} :
    ∀ {is rs : List Instruction}, is.mapM (resolve labels) = .ok rs →
      ∀ {j : Nat} {i : Instruction}, is[j]? = some i → ∃ r, resolve labels i = .ok r ∧ rs[j]? = some r
  | [], _, _, _, _, hj => by simp at hj
  | i :: is, rs, h, j, i', hj => by
    rw [List.mapM_cons] at h
    cases hi : resolve labels i with
    | error e => rw [hi] at h; cases h
    | ok r =>
      rw [hi] at h
      cases hrest : is.mapM (resolve labels) with
      | error e => rw [hrest] at h; cases h
      | ok rs' =>
        rw [hrest] at h
        cases h
        cases j with
        | zero =>
          cases hj
          exact ⟨r, hi, rfl⟩
        | succ j => exact mapM_resolve hrest hj

theorem length_mapM_resolve {labels : List (Option Nat)} :
    ∀ {is rs : List Instruction}, is.mapM (resolve labels) = .ok rs → rs.length = is.length
  | [], _, h => by cases h; rfl
  | i :: is, rs, h => by
    rw [List.mapM_cons] at h
    cases hi : resolve labels i with
    | error e => rw [hi] at h; cases h
    | ok r =>
      rw [hi] at h
      cases hrest : is.mapM (resolve labels) with
      | error e => rw [hrest] at h; cases h
      | ok rs' =>
        rw [hrest] at h
        cases h
        simp [length_mapM_resolve hrest]

/-- A built method has its name, its numbers of parameters and locals, and its instructions with places for labels. -/
theorem build_eq_ok {method : CompiledMethod} (h : built.build = .ok method) :
    method.name = built.name ∧ method.paramCount = built.paramCount ∧
      method.localCount = UInt16.ofNat built.locals.length ∧
      built.code.mapM (resolve built.labels) = .ok method.code := by
  unfold build at h
  cases hc : built.code.mapM (resolve built.labels) with
  | error e => rw [hc] at h; cases h
  | ok code =>
    rw [hc] at h
    cases h
    exact ⟨rfl, rfl, rfl, rfl⟩

theorem length_of_build {method : CompiledMethod} (h : built.build = .ok method) :
    method.code.length = built.code.length := length_mapM_resolve (build_eq_ok h).2.2.2

/-- The instruction at the place where one without a label was added. -/
theorem fetched {method : CompiledMethod} {i : Instruction} (h : built.build = .ok method)
    (hext : (b.push i).Extends built) (hi : i.target? = none) : method.code[b.position]? = some i := by
  have hat : built.code[b.position]? = some i := getElem?_of_leading hext.code (by simp [push, position])
  obtain ⟨r, hr, hcode⟩ := mapM_resolve (build_eq_ok h).2.2.2 hat
  rw [resolve, hi] at hr
  cases hr
  exact hcode

/-- A way to write a jump to a target. -/
def IsJump (jump : UInt64 → Instruction) : Prop :=
  ∀ t u, (jump t).target? = some t ∧ (jump t).withTarget u = jump u

theorem isJump_jump : IsJump .jump := fun _ _ => ⟨rfl, rfl⟩

theorem isJump_jumpIfFalse : IsJump .jumpIfFalse := fun _ _ => ⟨rfl, rfl⟩

theorem isJump_jumpIfTrue : IsJump .jumpIfTrue := fun _ _ => ⟨rfl, rfl⟩

theorem isJump_jumpIfNotNull : IsJump .jumpIfNotNull := fun _ _ => ⟨rfl, rfl⟩

/-- The instruction at the place where a jump to a label was added. -/
theorem fetched_jump {method : CompiledMethod} {jump : UInt64 → Instruction} (h : built.build = .ok method)
    (hjump : IsJump jump) (hext : (b.pushJump jump label).Extends built) (hbound : built.Bound label place)
    (hsize : built.labels.length ≤ UInt64.size) :
    method.code[b.position]? = some (jump (UInt64.ofNat place)) := by
  have hat : built.code[b.position]? = some (jump (UInt64.ofNat label)) :=
    getElem?_of_leading hext.code (by simp [pushJump, push, position])
  obtain ⟨r, hr, hcode⟩ := mapM_resolve (build_eq_ok h).2.2.2 hat
  have hlt : label < UInt64.size := Nat.lt_of_lt_of_le (List.getElem?_eq_some_iff.mp hbound).1 hsize
  rw [resolve, (hjump _ 0).1] at hr
  dsimp only at hr
  rw [UInt64.toNat_ofNat_of_lt' hlt, hbound] at hr
  cases hr
  rwa [(hjump _ _).2] at hcode

/-- A method that was built of its last stage, whose places and labels are machine words. -/
structure Built (built : MethodBuilder) (method : CompiledMethod) : Prop where
  build : built.build = .ok method
  codeSize : built.code.length < UInt64.size
  labelSize : built.labels.length ≤ UInt64.size

/-- The place of a stage in a built method is a machine word. -/
theorem Built.toNat_position {method : CompiledMethod} (h : Built built method) (hext : b.Extends built) :
    (UInt64.ofNat b.position).toNat = b.position :=
  UInt64.toNat_ofNat_of_lt' (Nat.lt_of_le_of_lt hext.code.length_le h.codeSize)

end MethodBuilder

end Reactive
