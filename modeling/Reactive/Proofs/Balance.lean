import Reactive.Proofs.Heights
import Reactive.Proofs.Loaded

/-!
# Reactive.Proofs.Balance — compiled methods do not run out of operands

* `spans_fork`, `spans_skip`: two ways that meet again, and a piece that may be left out.
* `spans_expression`: the instructions of an expression leave one more operand; `spans_statements`: those of statements
  leave none.
* `ClassImage.HasCode`: the methods, functions and initial values of a loaded class, and `ClassImage.Origin`, where they
  come from; all of them are safe
  (`LoadedClass.Assembled.safe`).
-/

namespace Reactive

open Stateful MethodBuilder

namespace MethodBuilder

variable {b b₁ b₂ b₃ : MethodBuilder} {n m k c g₁ g₂ g₃ : Nat} {jump : UInt64 → Instruction}

/-- A jump that the last operand decides: it is taken away if the next instruction follows, and `c` operands are left in
its place if not. -/
structure Decides (jump : UInt64 → Instruction) (c : Nat) : Prop where
  isJump : IsJump jump
  takes : ∀ t, (jump t).takes = 1
  gives : ∀ t, (jump t).gives = 0
  carries : ∀ t, (jump t).carries = c

theorem decides_jumpIfFalse : Decides .jumpIfFalse 0 := ⟨isJump_jumpIfFalse, fun _ => rfl, fun _ => rfl, fun _ => rfl⟩

theorem decides_jumpIfTrue : Decides .jumpIfTrue 0 := ⟨isJump_jumpIfTrue, fun _ => rfl, fun _ => rfl, fun _ => rfl⟩

theorem decides_jumpIfNotNull : Decides .jumpIfNotNull 1 :=
  ⟨isJump_jumpIfNotNull, fun _ => rfl, fun _ => rfl, fun _ => rfl⟩

theorem Balanced.decide {heights levels : List Nat} {label : Nat} (hb : b.Balanced heights levels)
    (htop : heights[b.position]? = some (m + 1)) (hjump : Decides jump c) (hopen : b.Open label)
    (hlabel : levels[label]? = some (m + c)) : Onward b heights levels m (b.pushJump jump label) (heights ++ [m]) levels := by
  refine hb.pushJump htop hjump.isJump hopen ?_ ?_ fun _ => ?_
  · rw [hjump.takes]
    exact Nat.le_add_left 1 m
  · rw [hjump.takes, hjump.carries, Nat.add_sub_cancel]
    exact hlabel
  · rw [hjump.takes, hjump.gives, Nat.add_sub_cancel, Nat.add_zero]

/-- A piece that a jump may leave out. -/
theorem spans_skip (hjump : Decides jump c) (hgrows : b.newLabel.2.Grows g₁ b₁)
    (hgrows' : (b₁.pushJump jump b.labels.length).Grows g₂ b₂) (htest : Spans n (m + 1) b.newLabel.2 b₁)
    (hpiece : Spans m (m + c) (b₁.pushJump jump b.labels.length) b₂) : Spans n (m + c) b (b₂.bind b.labels.length) := by
  intro heights levels hb htop
  have h₀ := hb.newLabel htop (m + c)
  obtain ⟨heights₁, levels₁, h₁⟩ := htest _ _ h₀.balanced h₀.top
  have hopen₁ : b₁.Open b.labels.length := hgrows.open_ (open_newLabel b)
  have hlevel₁ : levels₁[b.labels.length]? = some (m + c) :=
    getElem?_of_leading h₁.levels (by rw [← hb.labels, List.getElem?_concat_length])
  have h₂ := h₁.balanced.decide h₁.top hjump hopen₁ hlevel₁
  obtain ⟨heights₃, levels₃, h₃⟩ := hpiece _ _ h₂.balanced h₂.top
  have h₄ := h₃.balanced.bind h₃.top (hgrows'.open_ hopen₁) (getElem?_of_leading h₃.levels hlevel₁)
  exact ⟨_, _, (((h₀.trans h₁).trans h₂).trans h₃).trans h₄⟩

/-- Two ways that meet again. -/
theorem spans_fork (hjump : Decides jump c) (hgrows₁ : b.newLabel.2.newLabel.2.Grows g₁ b₁)
    (hgrows₂ : (b₁.pushJump jump b.labels.length).Grows g₂ b₂)
    (hgrows₃ : ((b₂.pushJump .jump b.newLabel.2.labels.length).bind b.labels.length).Grows g₃ b₃)
    (htest : Spans n (m + 1) b.newLabel.2.newLabel.2 b₁) (hfirst : Spans m k (b₁.pushJump jump b.labels.length) b₂)
    (hsecond : Spans (m + c) k ((b₂.pushJump .jump b.newLabel.2.labels.length).bind b.labels.length) b₃) :
    Spans n k b (b₃.bind b.newLabel.2.labels.length) := by
  intro heights levels hb htop
  have hne : b.labels.length ≠ b.newLabel.2.labels.length := by simp
  -- Both labels are open until they are bound, and keep the numbers of operands that they are given here.
  have h₀ := hb.newLabel htop (m + c)
  have h₁ := h₀.balanced.newLabel h₀.top k
  obtain ⟨heights₂, levels₂, h₂⟩ := htest _ _ h₁.balanced h₁.top
  have hopen : b₁.Open b.labels.length :=
    hgrows₁.open_ (getElem?_of_leading (labels_prefix_newLabel _) (open_newLabel b))
  have hopen' : b₁.Open b.newLabel.2.labels.length := hgrows₁.open_ (open_newLabel b.newLabel.2)
  have hlevel : levels₂[b.labels.length]? = some (m + c) := getElem?_of_leading (h₁.levels.trans h₂.levels)
    (by rw [← hb.labels, List.getElem?_concat_length])
  have hlevel' : levels₂[b.newLabel.2.labels.length]? = some k :=
    getElem?_of_leading h₂.levels (by rw [← h₀.balanced.labels, List.getElem?_concat_length])
  have h₃ := h₂.balanced.decide h₂.top hjump hopen hlevel
  obtain ⟨heights₄, levels₄, h₄⟩ := hfirst _ _ h₃.balanced h₃.top
  have hover : Onward b₂ heights₄ levels₄ (m + c) _ _ _ := h₄.balanced.pushJump h₄.top isJump_jump
    (hgrows₂.open_ hopen') (Nat.zero_le k) (getElem?_of_leading h₄.levels hlevel') nofun
  have hsecond₀ := hover.balanced.bind hover.top (hgrows₂.open_ hopen) (getElem?_of_leading h₄.levels hlevel)
  obtain ⟨heights₅, levels₅, h₅⟩ := hsecond _ _ hsecond₀.balanced hsecond₀.top
  have h₆ := h₅.balanced.bind h₅.top (hgrows₃.open_ ((bind_open_of_ne hne).mpr (hgrows₂.open_ hopen')))
    (getElem?_of_leading (h₄.levels.trans h₅.levels) hlevel')
  exact ⟨_, _, ((((((h₀.trans h₁).trans h₂).trans h₃).trans h₄).trans hover).trans hsecond₀).trans (h₅.trans h₆)⟩

end MethodBuilder

namespace Build

variable {scope : Scope} {hooks params : List String} {b b' : MethodBuilder} {u : Unit} {n : Nat}

/-! ### Expressions -/

theorem Deciding.spans {jump : UInt64 → Instruction} {decided : Bool} {l r : Expr} {b₁ b₂ : MethodBuilder}
    (h : Deciding scope jump decided l r b b₁ b₂ b') (hjump : Decides jump 0)
    (hl : Spans n (n + 1) b.newLabel.2.newLabel.2 b₁) (hr : Spans n (n + 1) (b₁.pushJump jump b.labels.length) b₂) :
    Spans n (n + 1) b b' := by
  rw [h.last]
  exact spans_fork hjump (grows_expression l h.left) (grows_expression r h.right) (grows_push _ _) hl hr
    (spans_push _ (.pushBool decided) (Nat.zero_le n) rfl rfl rfl rfl)

theorem Branching.spans {c t e : Expr} {b₁ b₂ b₃ : MethodBuilder} (h : Branching scope c t e b b₁ b₂ b₃ b')
    (hc : Spans n (n + 1) b.newLabel.2.newLabel.2 b₁)
    (ht : Spans n (n + 1) (b₁.pushJump .jumpIfFalse b.labels.length) b₂)
    (he : Spans n (n + 1) ((b₂.pushJump .jump b.newLabel.2.labels.length).bind b.labels.length) b₃) :
    Spans n (n + 1) b b' := by
  rw [h.last]
  exact spans_fork decides_jumpIfFalse (grows_expression c h.condition) (grows_expression t h.thenBranch)
    (grows_expression e h.elseBranch) hc ht he

/-- The operands of the receiver of a call, for the instruction that calls it. -/
def Awaits (invoke : UInt8 → Instruction) (held : Nat) : Prop :=
  ∀ argc, (invoke argc).takes = argc.toNat + held ∧ (invoke argc).gives = 1 ∧ (invoke argc).isTerminator = false ∧
    (invoke argc).target? = none ∧ (invoke argc).local? = none

mutual

/-- The instructions of an expression leave one more operand. -/
theorem spans_expression : ∀ (e : Expr) {b b' : MethodBuilder} {u : Unit} (n : Nat), expression scope e b = .ok u b' →
    Spans n (n + 1) b b'
  | .literal v _, b, _, _, n, h => by
    obtain rfl := emit_eq_ok.mp h
    cases v <;> exact spans_push b _ (Nat.zero_le n) rfl rfl rfl rfl
  | .name x _, b, _, _, n, h => by
    obtain ⟨i, -, rfl⟩ | ⟨-, -, rfl⟩ := loadName_eq_ok h
    · exact spans_push b _ (Nat.zero_le n) rfl rfl rfl rfl
    · exact (spans_push b .loadThis (Nat.zero_le n) rfl rfl rfl rfl).trans
        (spans_push _ (.getProperty x) (Nat.le_add_left 1 n) rfl rfl rfl rfl)
  | .this _, b, _, _, n, h => by
    obtain ⟨-, rfl⟩ := loadThis_eq_ok.mp h
    exact spans_push b .loadThis (Nat.zero_le n) rfl rfl rfl rfl
  | .member object x s, b, _, _, n, h => by
    cases hhost : scope.host? object with
    | some host =>
      rw [host_member_eq_ok hhost h]
      exact spans_push b _ (Nat.zero_le n) rfl rfl rfl rfl
    | none =>
      obtain ⟨b₁, h₁, rfl⟩ := member_eq_ok hhost h
      exact (spans_expression object n h₁).trans (spans_push _ (.getProperty x) (Nat.le_add_left 1 n) rfl rfl rfl rfl)
  | .call callee args s, b, _, _, n, h => by
    obtain ⟨hlen, invoke, b₁, b₂, h₁, h₂, rfl⟩ := call_eq_ok h
    obtain ⟨held, hreceiver, hawaits⟩ := spans_receiver callee n h₁
    obtain ⟨htakes, hgives, hterm, htarget, hlocal⟩ := hawaits (UInt8.ofNat args.length)
    rw [UInt8.toNat_ofNat_of_lt' hlen] at htakes
    exact (hreceiver.trans (spans_arguments args (n + held) h₂)).trans
      (spans_push _ _ (by omega) hterm htarget (by omega) hlocal)
  | .unary op e _, b, b', u, n, h => by
    obtain ⟨_, b₁, h₁, h⟩ := bind_eq_ok.mp (show (expression scope e >>= _) b = _ from h)
    obtain rfl := emit_eq_ok.mp h
    exact (spans_expression e n h₁).trans (spans_push _ (.unary op) (Nat.le_add_left 1 n) rfl rfl rfl rfl)
  | .binary op l r s, b, b', u, n, h => by
    cases hop : StrictOp.ofBinary? op with
    | some strict =>
      obtain ⟨b₁, b₂, h₁, h₂, rfl⟩ := strict_eq_ok hop h
      exact ((spans_expression l n h₁).trans (spans_expression r (n + 1) h₂)).trans
        (spans_push _ (.binary strict) (Nat.le_add_left 2 n) rfl rfl rfl rfl)
    | none =>
      cases op <;> cases hop
      · obtain ⟨b₁, b₂, hd⟩ := and_eq_ok h
        exact hd.spans decides_jumpIfFalse (spans_expression l n hd.left) (spans_expression r n hd.right)
      · obtain ⟨b₁, b₂, hd⟩ := or_eq_ok h
        exact hd.spans decides_jumpIfTrue (spans_expression l n hd.left) (spans_expression r n hd.right)
      · obtain ⟨b₁, b₂, h₁, h₂, rfl⟩ := coalesce_eq_ok h
        exact spans_skip decides_jumpIfNotNull (grows_expression l h₁) (grows_expression r h₂)
          (spans_expression l n h₁) (spans_expression r n h₂)
  | .conditional c t e s, b, b', u, n, h => by
    obtain ⟨b₁, b₂, b₃, hd⟩ := conditional_eq_ok h
    exact hd.spans (spans_expression c n hd.condition) (spans_expression t n hd.thenBranch)
      (spans_expression e n hd.elseBranch)
  | .lambda _ _ _ _, _, _, _, _, h => absurd h unsupported_ne_ok

/-- The instructions of the receiver of a call leave what the call awaits below its arguments. -/
theorem spans_receiver : ∀ (e : Expr) {b b' : MethodBuilder} {invoke : UInt8 → Instruction} (n : Nat),
    receiver scope e b = .ok invoke b' → ∃ held, Spans n (n + held) b b' ∧ Awaits invoke held
  | .name x _, b, _, _, n, h => by
    obtain ⟨-, rfl, rfl⟩ := receiver_name_eq_ok h
    exact ⟨1, spans_push b .loadThis (Nat.zero_le n) rfl rfl rfl rfl, fun _ => ⟨rfl, rfl, rfl, rfl, rfl⟩⟩
  | .member object x s, b, _, _, n, h => by
    cases hhost : scope.host? object with
    | some host =>
      obtain ⟨rfl, rfl⟩ := receiver_host_eq_ok hhost h
      exact ⟨0, .refl _ n, fun _ => ⟨rfl, rfl, rfl, rfl, rfl⟩⟩
    | none =>
      obtain ⟨hobject, rfl⟩ := receiver_member_eq_ok hhost h
      exact ⟨1, spans_expression object n hobject, fun _ => ⟨rfl, rfl, rfl, rfl, rfl⟩⟩
  | .literal _ _, _, _, _, _, h | .this _, _, _, _, _, h | .call _ _ _, _, _, _, _, h | .unary _ _ _, _, _, _, _, h
  | .binary _ _ _ _, _, _, _, _, h | .conditional _ _ _ _, _, _, _, _, h | .lambda _ _ _ _, _, _, _, _, h =>
    absurd h unsupported_ne_ok

/-- The instructions of arguments leave one operand for each. -/
theorem spans_arguments : ∀ (es : List Expr) {b b' : MethodBuilder} {u : Unit} (n : Nat),
    arguments scope es b = .ok u b' → Spans n (n + es.length) b b'
  | [], b, _, _, n, h => by
    cases h
    exact .refl b n
  | e :: es, _, _, _, n, h => by
    obtain ⟨b₁, h₁, h₂⟩ := arguments_cons_eq_ok h
    have hrest := spans_arguments es (n + 1) h₂
    rw [Nat.add_right_comm] at hrest
    exact (spans_expression e n h₁).trans hrest

end

/-! ### Statements -/

theorem spans_operand {value : Operand} (n : Nat) (h : operand params value b = .ok u b') : Spans n (n + 1) b b' := by
  cases value with
  | expression body => exact spans_expression body n h
  | helperValue slot type =>
    rw [helperValue_eq_ok h]
    exact spans_fork decides_jumpIfNotNull (grows_push _ (.loadField slot)) (grows_push _ (.pushDefault type.text))
      (grows_push _ (.getProperty "Value")) (spans_push _ (.loadField slot) (Nat.zero_le n) rfl rfl rfl rfl)
      (spans_push _ (.pushDefault type.text) (Nat.zero_le n) rfl rfl rfl rfl)
      (spans_push _ (.getProperty "Value") (Nat.le_add_left 1 n) rfl rfl rfl rfl)
  | application function =>
    cases h
    exact (spans_push b .loadThis (Nat.zero_le n) rfl rfl rfl rfl).trans
      (spans_push _ (.callStatic function) (Nat.le_add_left 1 n) rfl rfl rfl rfl)
  | method name =>
    cases h
    exact (spans_push b .loadThis (Nat.zero_le n) rfl rfl rfl rfl).trans
      (spans_push _ (.callMethod name 0) (Nat.le_add_left 1 n) rfl rfl rfl rfl)
  | argument | slot _ | bool _ =>
    cases h
    exact spans_push b _ (Nat.zero_le n) rfl rfl rfl rfl

/-- A value is stored in a field. -/
theorem spans_storeField (b : MethodBuilder) (slot : String) : Spans 1 0 b (b.push (.storeField slot)) :=
  spans_push b _ (Nat.le_refl 1) rfl rfl rfl rfl

mutual

/-- The instructions of a statement leave no operand. -/
theorem spans_statement : ∀ (s : Statement) {b b' : MethodBuilder} {u : Unit}, statement hooks params s b = .ok u b' →
    Spans 0 0 b b'
  | .returnIfUnchanged slot, b, b', u, h => by
    rw [returnIfUnchanged_eq_ok h]
    refine spans_skip decides_jumpIfFalse (((grows_push _ (.loadField slot)).trans (grows_push _ (.loadArg 0))).trans
      (grows_push _ (.binary .eq))) (grows_push _ .retVoid) ?_ (spans_retVoid _ 0 0)
    exact ((spans_push _ (.loadField slot) (Nat.zero_le 0) rfl rfl rfl rfl).trans
      (spans_push _ (.loadArg 0) (Nat.zero_le 1) rfl rfl rfl rfl)).trans
      (spans_push _ (.binary .eq) (Nat.le_refl 2) rfl rfl rfl rfl)
  | .captureOld slot, b, b', u, h => by
    cases h
    refine ((spans_allocate b "oldValue" 0).trans
      (spans_push _ (.loadField slot) (Nat.zero_le 0) rfl rfl rfl rfl)).trans (spans_storeLocal ?_)
    exact toNat_allocate_lt b "oldValue"
  | .raiseChanging property, b, b', u, h => by
    cases h
    exact spans_push b _ (Nat.zero_le 0) rfl rfl rfl rfl
  | .raiseChanged property, b, b', u, h => by
    cases h
    exact spans_push b _ (Nat.zero_le 0) rfl rfl rfl rfl
  | .callHook hook, b, b', u, h => by
    obtain ⟨-, rfl⟩ | ⟨-, rfl⟩ := callHook_eq_ok h
    · exact (((spans_allocate b "oldValue" 0).trans (spans_loadLocal (toNat_allocate_lt b "oldValue"))).trans
        (spans_push _ (.loadArg 0) (Nat.zero_le 1) rfl rfl rfl rfl)).trans
        (spans_push _ (.callHook hook 2) (Nat.le_refl 2) rfl rfl rfl rfl)
    · exact .refl _ 0
  | .storeValue slot, b, b', u, h => by
    cases h
    exact (spans_push b (.loadArg 0) (Nat.zero_le 0) rfl rfl rfl rfl).trans (spans_storeField _ slot)
  | .callMethod method passesValue, b, b', u, h => by
    have hthis : Spans 0 1 b (b.push .loadThis) := spans_push b _ (Nat.zero_le 0) rfl rfl rfl rfl
    have hpop (b : MethodBuilder) : Spans 1 0 b (b.push .pop) := spans_push b _ (Nat.le_refl 1) rfl rfl rfl rfl
    cases passesValue
    · cases h
      exact (hthis.trans (spans_push _ (.callMethod method 0) (Nat.le_refl 1) rfl rfl rfl rfl)).trans (hpop _)
    · cases h
      exact ((hthis.trans (spans_push _ (.loadArg 0) (Nat.zero_le 1) rfl rfl rfl rfl)).trans
        (spans_push _ (.callMethod method 1) (Nat.le_refl 2) rfl rfl rfl rfl)).trans (hpop _)
  | .setIfChanged slot value property, b, b', u, h => by
    obtain ⟨b₁, h₁, rfl⟩ := setIfChanged_eq_ok h
    have hfresh := toNat_allocate_lt b₁ "newValue"
    have hraise (b : MethodBuilder) (i : Instruction) (hi : i = .raiseChanging property ∨ i = .raiseChanged property) :
        Spans 0 0 b (b.push i) := by
      obtain rfl | rfl := hi <;> exact spans_push b _ (Nat.zero_le 0) rfl rfl rfl rfl
    refine spans_skip decides_jumpIfTrue ((((((grows_operand h₁).trans (grows_allocate b₁ "newValue")).trans
      (grows_push _ _)).trans (grows_push _ _)).trans (grows_push _ _)).trans (grows_push _ _))
      ((((grows_push _ _).trans (grows_push _ _)).trans (grows_push _ _)).trans (grows_push _ _)) ?_ ?_
    · exact (((((spans_operand 0 h₁).trans (spans_allocate b₁ "newValue" 1)).trans (spans_storeLocal hfresh)).trans
        (spans_push _ (.loadField slot) (Nat.zero_le 0) rfl rfl rfl rfl)).trans (spans_loadLocal hfresh)).trans
        (spans_push _ (.binary .eq) (Nat.le_refl 2) rfl rfl rfl rfl)
    · refine (((hraise _ _ (Or.inl rfl)).trans (spans_loadLocal ?_)).trans (spans_storeField _ slot)).trans
        (hraise _ _ (Or.inr rfl))
      exact hfresh
  | .store slot value, b, b', u, h => by
    obtain ⟨b₁, h₁, rfl⟩ := store_eq_ok h
    exact (spans_operand 0 h₁).trans (spans_storeField _ slot)
  | .ifUnset flag body, b, b', u, h => by
    obtain ⟨b₁, h₁, rfl⟩ := ifUnset_eq_ok h
    exact spans_skip decides_jumpIfTrue (grows_push _ (.loadField flag)) (grows_statements body h₁)
      (spans_push _ (.loadField flag) (Nat.zero_le 0) rfl rfl rfl rfl) (spans_statements body h₁)
  | .ret value, b, b', u, h => by
    obtain ⟨b₁, h₁, rfl⟩ := ret_eq_ok h
    exact (spans_operand 0 h₁).trans (spans_ret _ 0)
  | .returnCommand slot factory, b, b', u, h => by
    rw [returnCommand_eq_ok h]
    refine Spans.trans (spans_skip (m := 0) decides_jumpIfNotNull (grows_push _ (.loadField slot))
      (((grows_push _ (.newCommand _)).trans (grows_push _ .dup)).trans (grows_push _ (.storeField slot)))
      (spans_push _ (.loadField slot) (Nat.zero_le 0) rfl rfl rfl rfl) ?_) (spans_ret _ 0)
    exact ((spans_push _ (.newCommand _) (Nat.zero_le 0) rfl rfl rfl rfl).trans
      (spans_push _ .dup (Nat.le_refl 1) rfl rfl rfl rfl)).trans
      (spans_push _ (.storeField slot) (Nat.le_add_left 1 1) rfl rfl rfl rfl)
  | .registerLocale registry grouping object, b, b', u, h => by
    cases h
    exact ((spans_allocate b object 0).trans
      (spans_push _ (.registerLocale registry grouping) (Nat.zero_le 0) rfl rfl rfl rfl)).trans
      (spans_storeLocal (toNat_allocate_lt b object))
  | .addLocaleProperty object key target retain, b, b', u, h => by
    obtain ⟨i, hi, rfl⟩ := addLocaleProperty_eq_ok h
    exact (spans_loadLocal (toNat_local_lt hi)).trans
      (spans_push _ (.addLocaleProperty key target retain) (Nat.le_refl 1) rfl rfl rfl rfl)

/-- The instructions of statements leave no operand. -/
theorem spans_statements : ∀ (ss : List Statement) {b b' : MethodBuilder} {u : Unit},
    statements hooks params ss b = .ok u b' → Spans 0 0 b b'
  | [], b, _, _, h => by
    cases h
    exact .refl b 0
  | s :: rest, _, _, _, h => by
    obtain ⟨b₁, h₁, h₂⟩ := statements_cons_eq_ok h
    exact (spans_statement s h₁).trans (spans_statements rest h₂)

end

end Build

/-! ### Compiled methods -/

/-- A method that is built of one piece, with at most `locals` locals. -/
def CompiledMethod.Composed (locals : Nat) (m : CompiledMethod) : Prop :=
  ∃ (name : String) (paramCount : UInt16) (b : MethodBuilder) (k : Nat),
    (start name paramCount).Grows locals b ∧ Spans 0 k (start name paramCount) b ∧ b.build = .ok m

namespace CompiledMethod

variable {locals : Nat} {m : CompiledMethod}

theorem Composed.mono {more : Nat} (h : m.Composed locals) (hle : locals ≤ more) : m.Composed more := by
  obtain ⟨name, paramCount, b, k, hgrows, hspans, hbuild⟩ := h
  exact ⟨name, paramCount, b, k, hgrows.mono hle, hspans, hbuild⟩

/-- A method of one piece is safe, the places of its instructions being machine words; and if its locals can be numbered,
they are there. -/
theorem Composed.safe (h : m.Composed locals) (hsize : m.code.length < UInt64.size) :
    m.StackSafe ∧ m.JumpsForward ∧ (locals < UInt16.size → m.LocalsInRange) := by
  obtain ⟨name, paramCount, b, k, hgrows, hspans, hbuild⟩ := h
  have hlength := length_of_build hbuild
  have hbuilt : Built b m := by
    have hpaid : b.labels.length + 0 ≤ 0 + b.code.length := hgrows.paid
    exact ⟨hbuild, by omega, by omega⟩
  have hfew : b.locals.length ≤ 0 + locals := hgrows.few
  obtain ⟨hsafe, hforward, hlocals⟩ := hspans.safe hbuilt
  exact ⟨hsafe, hforward, fun hnumbered => hlocals (by omega)⟩

theorem composed_ofBody {name : String} {scope : Scope} {body : Expr} (h : ofBody name scope body = .ok m) :
    m.Composed 0 := by
  obtain ⟨b, hbody, hbuild⟩ := ofBody_eq_ok h
  exact ⟨_, _, _, 0, (Build.grows_expression body hbody).trans (grows_push b .ret),
    (Build.spans_expression body 0 hbody).trans (spans_ret b 0), hbuild⟩

theorem composed_ofStatements {hooks : List String} {signature : MethodSignature} {body : List Statement}
    (h : ofStatements hooks signature body = .ok m) : m.Composed (Statement.localCountAll body) := by
  obtain ⟨b, hbody, hbuild⟩ := ofStatements_eq_ok h
  have hgrows := Build.grows_statements body hbody
  have hspans := Build.spans_statements body hbody
  split at hbuild
  · exact ⟨_, _, b, 0, hgrows, hspans, hbuild⟩
  · exact ⟨_, _, _, 0, hgrows.trans (grows_push b .retVoid), hspans.trans (spans_retVoid b 0 0), hbuild⟩

theorem composed_fieldGetter (property field : String) : (ClassImage.fieldGetter property field).Composed 0 := by
  have hload : Spans 0 1 (start (Naming.getter property) 0) ((start (Naming.getter property) 0).push (.loadField field)) :=
    spans_push _ _ (Nat.zero_le 0) rfl rfl rfl rfl
  exact ⟨_, _, _, 0, (grows_push _ _).trans (grows_push _ .ret), hload.trans (spans_ret _ 0), rfl⟩

theorem composed_fieldSetter (property field : String) : (ClassImage.fieldSetter property field).Composed 0 := by
  have hload : Spans 0 1 (start (Naming.setter property) 1) ((start (Naming.setter property) 1).push (.loadArg 0)) :=
    spans_push _ _ (Nat.zero_le 0) rfl rfl rfl rfl
  exact ⟨_, _, _, 0, ((grows_push _ _).trans (grows_push _ (.storeField field))).trans (grows_push _ .retVoid),
    (hload.trans (Build.spans_storeField _ field)).trans (spans_retVoid _ 0 0), rfl⟩

end CompiledMethod

/-! ### Loaded classes -/

namespace ClassImage

/-- A class has the code of a method, of a hoisted function or of an initial value. -/
inductive HasCode (c : ClassImage) : CompiledMethod → Prop
  | method {name : String} {m : CompiledMethod} (found : c.methods.find? name = some m) : HasCode c m
  | function {name : String} {m : CompiledMethod} (found : c.statics.find? name = some m) : HasCode c m
  | initializer {i : Initializer} (mem : i ∈ c.initializers) : HasCode c i.code

/-- The code of every initial value is compiled from an expression. -/
def Initialized (c : ClassImage) : Prop :=
  ∀ i ∈ c.initializers, ∃ name scope body, CompiledMethod.ofBody name scope body = .ok i.code

/-- Where the code of a class comes from: it is compiled from an expression or from the statements of a generated method,
or it is that of an automatic property. -/
inductive Origin (hooks : List String) (generated : MethodSignature → List Statement → Prop) : CompiledMethod → Prop
  | body {name : String} {scope : Scope} {body : Expr} {m : CompiledMethod}
    (compiled : CompiledMethod.ofBody name scope body = .ok m) : Origin hooks generated m
  | autoGetter (property field : String) : Origin hooks generated (fieldGetter property field)
  | autoSetter (property field : String) : Origin hooks generated (fieldSetter property field)
  | method {signature : MethodSignature} {body : List Statement} {m : CompiledMethod} (method : generated signature body)
    (compiled : CompiledMethod.ofStatements hooks signature body = .ok m) : Origin hooks generated m

theorem Origin.composed {hooks : List String} {generated : MethodSignature → List Statement → Prop} {m : CompiledMethod}
    {locals : Nat} (h : Origin hooks generated m)
    (hfew : ∀ signature body, generated signature body → Statement.localCountAll body ≤ locals) : m.Composed locals := by
  cases h with
  | body compiled => exact (CompiledMethod.composed_ofBody compiled).mono (Nat.zero_le _)
  | autoGetter property field => exact (CompiledMethod.composed_fieldGetter property field).mono (Nat.zero_le _)
  | autoSetter property field => exact (CompiledMethod.composed_fieldSetter property field).mono (Nat.zero_le _)
  | method method compiled => exact (CompiledMethod.composed_ofStatements compiled).mono (hfew _ _ method)

theorem origin_of_defines {hooks : List String} {generated : MethodSignature → List Statement → Prop} {d : ClassDecl}
    {m : CompiledMethod} (h : d.Defines m) : Origin hooks generated m := by
  cases h with
  | body _ compiled => exact .body compiled
  | autoGetter property => exact .autoGetter property _
  | autoSetter property => exact .autoSetter property _

variable {c c' : ClassImage} {d : ClassDecl} {conventions : Conventions}

theorem initializers_define {name : String} {params : List String} {body : Expr}
    (h : c.define name params body = .ok c') : c'.initializers = c.initializers := by
  unfold define at h
  split at h <;> cases h <;> rfl

theorem initializers_defineGetter {name : String} {p : PropertyDecl} (h : c.defineGetter name p = .ok c') :
    c'.initializers = c.initializers := by
  unfold defineGetter at h
  split at h
  · cases h
    rfl
  · exact initializers_define h
  · cases h
    rfl

theorem Initialized.defineInitializer (hc : c.Initialized) {name : String} {p : PropertyDecl}
    (h : c.defineInitializer name p = .ok c') : c'.Initialized := by
  unfold ClassImage.defineInitializer at h
  split at h
  · cases h
    exact hc
  · split at h
    · rename_i code hcode
      cases h
      intro i hi
      obtain hi | hi := List.mem_append.mp hi
      · exact hc i hi
      · rw [List.mem_singleton.mp hi]
        exact ⟨_, _, _, hcode⟩
    · cases h

theorem Initialized.defineProperty (hc : c.Initialized) {name : String} {p : PropertyDecl}
    (h : c.defineProperty name p = .ok c') : c'.Initialized := by
  unfold ClassImage.defineProperty at h
  cases hgetter : c.defineGetter name p with
  | error e =>
    rw [hgetter] at h
    cases h
  | ok c₁ =>
    rw [hgetter] at h
    have hc₂ : (if p.setter.isSome then c₁.putMethod (fieldSetter name (Naming.autoField name)) else c₁).Initialized := by
      unfold Initialized
      split
      · exact initializers_defineGetter hgetter ▸ hc
      · exact initializers_defineGetter hgetter ▸ hc
    dsimp only [Bind.bind, Except.bind] at h
    generalize (if p.setter.isSome then c₁.putMethod (fieldSetter name (Naming.autoField name)) else c₁) = c₂ at h hc₂
    cases hinit : c₂.defineInitializer name p with
    | error e =>
      rw [hinit] at h
      cases h
    | ok c₃ =>
      rw [hinit] at h
      cases h
      have hc₃ : c₃.Initialized := hc₂.defineInitializer hinit
      exact hc₃

theorem Initialized.defineMember (hc : c.Initialized) {m : MemberDecl} (h : c.defineMember m = .ok c') :
    c'.Initialized := by
  unfold ClassImage.defineMember at h
  split at h
  · exact hc.defineProperty h
  · unfold Initialized
    rwa [initializers_define h]
  · cases h
    exact hc

theorem Initialized.foldlM : ∀ {ms : List MemberDecl} {c c' : ClassImage}, c.Initialized →
    ms.foldlM ClassImage.defineMember c = .ok c' → c'.Initialized
  | [], c, c', hc, h => by
    cases h
    exact hc
  | m :: ms, c, c', hc, h => by
    rw [List.foldlM_cons] at h
    cases hdefine : c.defineMember m with
    | error e =>
      rw [hdefine] at h
      cases h
    | ok c₁ =>
      rw [hdefine] at h
      exact (hc.defineMember hdefine).foldlM h

theorem initialized_baseline (h : baseline d conventions = .ok c) : c.Initialized := by
  have hbare : (bare d.name (d.derivesFrom conventions.extensibleBase) conventions.initMethod).Initialized :=
    fun _ h => absurd h List.not_mem_nil
  exact hbare.foldlM h

/-- A class that is compiled from its declaration is compiled from expressions. -/
theorem origin_of_baseline (h : baseline d conventions = .ok c) {m : CompiledMethod} (hm : c.HasCode m) :
    Origin [] (fun _ _ => False) m := by
  have hbase := (baseline_eq_ok h).1
  cases hm with
  | method found => exact origin_of_defines (hbase.methods _ _ found).1
  | function found =>
    rw [hbase.statics] at found
    cases found
  | initializer mem =>
    obtain ⟨_, _, _, hcompiled⟩ := initialized_baseline h _ mem
    exact .body hcompiled

theorem mem_redirect {property setter : String} {i : Initializer} : ∀ {is is' : List Initializer},
    redirect property setter is = some is' → i ∈ is' → ∃ j ∈ is, j.code = i.code
  | [], _, h, _ => by cases h
  | j :: is, is', h, hi => by
    unfold redirect at h
    split at h
    · cases h
      obtain rfl | hi := List.mem_cons.mp hi
      · exact ⟨j, List.mem_cons_self, rfl⟩
      · exact ⟨i, List.mem_cons_of_mem _ hi, rfl⟩
    · obtain ⟨rest, hrest, rfl⟩ := Option.map_eq_some_iff.mp h
      obtain rfl | hi := List.mem_cons.mp hi
      · exact ⟨i, List.mem_cons_self, rfl⟩
      · obtain ⟨k, hk, hcode⟩ := mem_redirect hrest hi
        exact ⟨k, List.mem_cons_of_mem _ hk, hcode⟩

theorem Initialized.edited {e : PatchEdit} (hc : c.Initialized) (h : Edited e c c') : c'.Initialized := by
  cases e with
  | redirectInitializer property setter =>
    obtain ⟨initializers, hredirect, rfl⟩ := h
    intro i hi
    obtain ⟨j, hj, hcode⟩ := mem_redirect hredirect hi
    exact hcode ▸ hc j hj
  | addStatic m =>
    obtain rfl := h
    exact hc
  | addField | addProperty | addMethod | replaceBody =>
    obtain ⟨-, rfl⟩ := h
    exact hc

theorem Initialized.forM {u : Unit} : ∀ {es : List PatchEdit} {c c' : ClassImage}, c.Initialized →
    es.forM applyEdit c = .ok u c' → c'.Initialized
  | [], c, c', hc, h => by
    cases h
    exact hc
  | e :: es, c, c', hc, h => by
    obtain ⟨_, c₁, h₁, h⟩ := bind_eq_ok.mp h
    exact (hc.edited (edited_of_applyEdit h₁)).forM h

/-- A class with the patch module of a model is compiled from expressions and from the methods that are generated for it;
the init method is there under its name. -/
theorem origin_of_ofPatched {model : ClassModel} {module : PatchModule}
    (hmodule : PatchModule.ofModel model = .ok module) (h : ofPatched d conventions module = .ok c) :
    ∃ hooks init, CompiledMethod.ofStatements hooks ⟨model.initMethod, .init model.derivesExtensibleBase, [], none⟩
        model.initBody = .ok init ∧ c.methods.find? model.initMethod = some init ∧
      ∀ m, c.HasCode m → Origin hooks model.HasMethod m := by
  obtain ⟨base, hbase, hrun⟩ := forM_of_ofPatched h
  obtain ⟨hooks, -, ess, hess, rfl⟩ := editsOf_ofModel hmodule
  have hpatched := ((baseline_eq_ok hbase).1.patched.forM hrun).1
  rw [List.nil_append] at hpatched
  obtain ⟨front, init, hsplit, -, hinit⟩ := Assembly.exists_init hess
  refine ⟨hooks, init, hinit, ?_, fun m hm => ?_⟩
  · rw [hsplit] at h
    obtain ⟨_, mid, -, -, -, -, -, rfl, -⟩ := ofPatched_eq_ok h
    rw [putMethod, Table.find?_put, name_ofStatements hinit, if_pos rfl]
  · cases hm with
    | method found =>
      obtain ⟨-, hin | ⟨hdefines, -⟩⟩ := hpatched.methods _ _ found
      · obtain ⟨signature, body, hmem, hcompiled⟩ := Assembly.exists_method hess hin
        exact .method (ClassModel.mem_generatedMembers.mp hmem) hcompiled
      · exact origin_of_defines hdefines
    | function found =>
      obtain ⟨-, hadd⟩ := hpatched.statics _ _ found
      obtain ⟨decl, -, hcompiled⟩ := Assembly.exists_function hess hadd
      exact .body hcompiled
    | initializer mem =>
      obtain ⟨_, _, _, hcompiled⟩ := (initialized_baseline hbase).forM hrun _ mem
      exact .body hcompiled

end ClassImage

namespace LoadedClass

/-- How a class is compiled: as it is declared, or with the patch module of a model. -/
inductive Assembled : LoadedClass → Prop
  | plain {d : ClassDecl} {conventions : Conventions} {image : ClassImage}
    (compiled : ClassImage.baseline d conventions = .ok image) : Assembled ⟨d, none, image⟩
  | patched {d : ClassDecl} {conventions : Conventions} {model : ClassModel} {module : PatchModule} {image : ClassImage}
    (generated : PatchModule.ofModel model = .ok module)
    (applied : ClassImage.ofPatched d conventions module = .ok image) : Assembled ⟨d, some model, image⟩

theorem Loads.assembled {L : LoadedClass} (h : L.Loads) : L.Assembled := by
  cases h with
  | plain compiled => exact .plain compiled
  | patched _ generated applied => exact .patched generated applied

/-- The places of all instructions of the class are machine words. -/
def Sized (L : LoadedClass) : Prop := ∀ m, L.image.HasCode m → m.code.length < UInt64.size

/-- The locale objects of the class can be numbered. -/
def FewLocales (L : LoadedClass) : Prop := ∀ model, L.model = some model → model.localeObjects.length < 65536

variable {L : LoadedClass}

/-- Everything that is compiled for a class is safe. -/
theorem Assembled.safe (h : L.Assembled) (hsized : L.Sized) {m : CompiledMethod} (hm : L.image.HasCode m) :
    m.StackSafe ∧ m.JumpsForward ∧ (L.FewLocales → m.LocalsInRange) := by
  have hsize := hsized m hm
  cases h with
  | plain compiled =>
    have hcomposed : m.Composed 0 := (ClassImage.origin_of_baseline compiled hm).composed fun _ _ h => h.elim
    obtain ⟨hsafe, hforward, hlocals⟩ := hcomposed.safe hsize
    exact ⟨hsafe, hforward, fun _ => hlocals (by decide)⟩
  | patched generated applied =>
    obtain ⟨_, _, -, -, horigin⟩ := ClassImage.origin_of_ofPatched generated applied
    obtain ⟨hsafe, hforward, hlocals⟩ := ((horigin m hm).composed fun _ _ h => h.modest.locals).safe hsize
    refine ⟨hsafe, hforward, fun hfew => hlocals ?_⟩
    have hnumbered := hfew _ rfl
    have hword : UInt16.size = 65536 := rfl
    omega

end LoadedClass

end Reactive
