import Reactive.Proofs.Setters

/-!
# Reactive.Proofs.Footprint — what executed instructions ask of the instance is listed

`Expr.memberReads` lists the members that an expression reads, without executing anything; the instructions of the
expression read properties of whatever is on the stack.

* `Run.Within`: the instructions in a range of places, one after the other as the interpreter executes them
  (`Run.Within.body_eq`), as long as none of them is given the receiver itself.
* `Run.Listed`: what the next instruction asks of the receiver itself is among some names, a property under its own name
  and the method of a getter under that of the method; `Run.Covered`: so it stays, wherever the instructions lead.
* One rule for each form of instruction (`covered_instruction`, `covered_test`, …) and one for two ways that meet again
  (`covers_fork`).
* `covers_expression`: the instructions of an expression are covered by its reads, if what follows them is.
* `executed_reads_listed`: so every read that is executed is among the reads of the expression, wherever this stands in a
  method (`Run.Stands`), and likewise for the function of a projection.  A getter that is called as a method is not listed
  as its property (`called_getter_unlisted`).
-/

namespace Reactive

open Stateful MethodBuilder Build

namespace Value

/-- A helper of the host makes no objects of its own. -/
theorem mem_of_callHost {name : String} {args : List Value} {r : Nat} (h : callHost name args = .ok (.object r)) :
    .object r ∈ args := by
  have hchoose {op : StrictOp} {a b : Value} (h : choose op a b = .ok (.object r)) : .object r ∈ [a, b] := by
    unfold choose at h
    cases hcompare : binary op a b with
    | error e =>
      rw [hcompare] at h
      cases h
    | ok c =>
      rw [hcompare] at h
      dsimp only [Bind.bind, Except.bind] at h
      split at h <;> cases h
      · exact List.mem_cons_self
      · exact List.mem_cons_of_mem _ List.mem_cons_self
  unfold callHost at h
  split at h
  · cases h
  · cases h
  · cases h
  · cases h
  · exact hchoose h
  · exact hchoose h
  · cases h
  · cases h
  · cases h

theorem ne_object_of_isObject {v : Value} (h : v.isObject = false) (r : Nat) : v ≠ .object r := by
  rintro rfl
  cases h

end Value

/-- The instruction reads a property of a value, or calls a method of one. -/
def Instruction.asks : Instruction → Bool
  | getProperty _ | callMethod .. => true
  | _ => false

namespace Run

/-! ### Ranges of instructions -/

section

variable (enter : Enter) (a : Activation)

/-- The instructions in the places from `lo` on and before `hi` lead from one frame to another.  What one of them reads,
or is given by a method, is not the receiver itself. -/
inductive Within (lo hi : Nat) : Frame → Machine → Frame → Machine → Prop
  | refl (f : Frame) (m : Machine) : Within lo hi f m f m
  | step {f f₁ f₂ : Frame} {m m₁ m₂ : Machine} {i : Instruction} (inside : lo ≤ f.next ∧ f.next < hi)
    (fetched : a.method.code[f.next]? = some i)
    (executed : step enter a { f with next := f.next + 1 } i m = .ok (.go f₁) m₁)
    (withheld : i.asks = true → f₁.stack.head? ≠ some (.object a.receiver)) (rest : Within lo hi f₁ m₁ f₂ m₂) :
    Within lo hi f m f₂ m₂

/-- The next instruction reads a property of the receiver itself. -/
def ReadsOwn (f : Frame) (property : String) : Prop :=
  a.method.code[f.next]? = some (.getProperty property) ∧ f.stack.head? = some (.object a.receiver)

/-- The next instruction calls a method of the receiver itself, which is below the arguments. -/
def CallsOwn (f : Frame) (method : String) : Prop :=
  ∃ argc, a.method.code[f.next]? = some (.callMethod method argc) ∧
    f.stack[argc.toNat]? = some (.object a.receiver)

/-- A property of the receiver itself that the next instruction reads is among the names, and so is a method of it that it
calls and that is a getter. -/
def Listed (names : List String) (f : Frame) : Prop :=
  ∀ n, (ReadsOwn a f n → n ∈ names) ∧ (CallsOwn a f (Naming.getter n) → Naming.getter n ∈ names)

/-- Wherever the instructions of a range lead from a frame, what they ask of the receiver itself is among the names. -/
def Covered (lo hi : Nat) (names : List String) (f : Frame) : Prop :=
  ∀ m f' m', Within enter a lo hi f m f' m' → f'.next < hi → Listed a names f'

end

variable {enter : Enter} {a : Activation} {lo hi : Nat} {names : List String} {built b b' : MethodBuilder} {scope : Scope}
  {stack locals : List Value}

theorem listed_of_fetched {f : Frame} {i : Instruction} (fetched : a.method.code[f.next]? = some i)
    (h : i.asks = false) : Listed a names f := by
  refine fun n => ⟨fun hread => ?_, fun ⟨argc, hcall, _⟩ => ?_⟩
  · cases fetched.symm.trans hread.1
    cases h
  · cases fetched.symm.trans hcall
    cases h

/-- A frame is covered if its instruction is listed, and if it leads to covered frames only. -/
theorem Covered.of_step {f : Frame} {i : Instruction} (fetched : a.method.code[f.next]? = some i)
    (hlisted : Listed a names f)
    (hnext : ∀ m f₁ m₁, step enter a { f with next := f.next + 1 } i m = .ok (.go f₁) m₁ →
      (i.asks = true → f₁.stack.head? ≠ some (.object a.receiver)) → Covered enter a lo hi names f₁) :
    Covered enter a lo hi names f := by
  intro m f' m' hrun hlt
  cases hrun with
  | refl => exact hlisted
  | step inside fetched' executed withheld rest =>
    obtain rfl := Option.some.inj (fetched.symm.trans fetched')
    exact hnext _ _ _ executed withheld _ _ _ rest hlt

/-- The interpreter takes the same way. -/
theorem Within.body_eq {f f' : Frame} {m m' : Machine} (h : Within enter a lo hi f m f' m') :
    ∃ n, ∀ fuel, body enter a (n + fuel) f m = body enter a fuel f' m' := by
  induction h with
  | refl => exact ⟨0, fun fuel => by rw [Nat.zero_add]⟩
  | step inside fetched executed withheld rest ih =>
    obtain ⟨n, hn⟩ := ih
    refine ⟨n + 1, fun fuel => ?_⟩
    rw [Nat.add_right_comm, body_step fetched, executed]
    exact hn fuel

/-! ### One rule for each form of instruction -/

/-- An instruction that goes on behind itself. -/
theorem covered_instruction {α : Type} {i : Instruction} {x : Run α} {k : α → List Value}
    (hbuilt : Built built a.method) (hext : (b.push i).Extends built) (htarget : i.target? = none)
    (hstep : step enter a ⟨b.position + 1, stack, locals⟩ i =
      x >>= fun v => pure (.go ⟨b.position + 1, k v, locals⟩))
    (hlisted : i.asks = true → Listed a names ⟨b.position, stack, locals⟩)
    (hk : ∀ v m m', x m = .ok v m' → (i.asks = true → (k v).head? ≠ some (.object a.receiver)) →
      Covered enter a lo hi names ⟨(b.push i).position, k v, locals⟩) :
    Covered enter a lo hi names ⟨b.position, stack, locals⟩ := by
  have hat := fetched hbuilt.build hext htarget
  refine .of_step hat ?_ fun m f₁ m₁ hrun hwithheld => ?_
  · cases hasks : i.asks with
    | true => exact hlisted hasks
    | false => exact listed_of_fetched hat hasks
  · rw [hstep] at hrun
    obtain ⟨v, m', hx, hgo⟩ := bind_eq_ok.mp hrun
    obtain ⟨hgo, rfl⟩ := pure_eq_ok.mp hgo
    cases hgo
    rw [← position_push b i]
    exact hk v m m' hx hwithheld

/-- An instruction that asks no value for anything. -/
theorem covered_push {α : Type} {i : Instruction} {x : Run α} {k : α → List Value} (hbuilt : Built built a.method)
    (hext : (b.push i).Extends built) (htarget : i.target? = none) (hasks : i.asks = false)
    (hstep : step enter a ⟨b.position + 1, stack, locals⟩ i =
      x >>= fun v => pure (.go ⟨b.position + 1, k v, locals⟩))
    (hk : ∀ v m m', x m = .ok v m' → Covered enter a lo hi names ⟨(b.push i).position, k v, locals⟩) :
    Covered enter a lo hi names ⟨b.position, stack, locals⟩ :=
  covered_instruction hbuilt hext htarget hstep (fun h => by rw [hasks] at h; cases h) fun v m m' hx _ => hk v m m' hx

/-- A property is read of a value; if this is the receiver, the property is listed. -/
theorem covered_getProperty {n : String} {v : Value} (hbuilt : Built built a.method)
    (hext : (b.push (.getProperty n)).Extends built) (hlisted : v = .object a.receiver → n ∈ names)
    (hk : ∀ w, w ≠ .object a.receiver →
      Covered enter a lo hi names ⟨(b.push (.getProperty n)).position, w :: stack, locals⟩) :
    Covered enter a lo hi names ⟨b.position, v :: stack, locals⟩ := by
  have hat := fetched hbuilt.build hext rfl
  refine covered_instruction hbuilt hext rfl (step_getProperty ..) (fun _ n' => ⟨fun hread => ?_, fun hcall => ?_⟩)
    fun w _ _ _ hw => hk w fun heq => hw rfl (congrArg some heq)
  · obtain ⟨hfetched, hhead⟩ := hread
    cases hat.symm.trans hfetched
    exact hlisted (Option.some.inj hhead)
  · obtain ⟨argc, hfetched, -⟩ := hcall
    cases hat.symm.trans hfetched

/-- A method is called of a value; if this is the receiver and the method is a getter, it is listed. -/
theorem covered_callMethod {method : String} {argc : UInt8} {v : Value} {vs : List Value} (hargc : argc.toNat = vs.length)
    (hbuilt : Built built a.method) (hext : (b.push (.callMethod method argc)).Extends built)
    (hlisted : v = .object a.receiver → ∀ n, method = Naming.getter n → method ∈ names)
    (hk : ∀ w, w ≠ .object a.receiver →
      Covered enter a lo hi names ⟨(b.push (.callMethod method argc)).position, w :: stack, locals⟩) :
    Covered enter a lo hi names ⟨b.position, vs.reverse ++ v :: stack, locals⟩ := by
  have hat := fetched hbuilt.build hext rfl
  refine covered_instruction hbuilt hext rfl (step_callMethod (h := hargc) ..)
    (fun _ n => ⟨fun hread => ?_, fun hcall => ?_⟩) fun w _ _ _ hw => hk w fun heq => hw rfl (congrArg some heq)
  · cases hat.symm.trans hread.1
  · obtain ⟨argc', hfetched, hbelow⟩ := hcall
    cases hat.symm.trans hfetched
    have hv : (vs.reverse ++ v :: stack)[argc.toNat]? = some v := by
      rw [hargc, List.getElem?_append_right (by simp)]
      simp
    exact hlisted (Option.some.inj (hv.symm.trans hbelow)) n rfl

theorem covered_loadThis (hbuilt : Built built a.method) (hext : (b.push .loadThis).Extends built)
    (hk : Covered enter a lo hi names ⟨(b.push .loadThis).position, .object a.receiver :: stack, locals⟩) :
    Covered enter a lo hi names ⟨b.position, stack, locals⟩ :=
  covered_push (x := pure (.object a.receiver)) (k := fun v => v :: stack) hbuilt hext rfl rfl rfl
    fun _ _ _ hx => (pure_eq_ok.mp hx).1 ▸ hk

/-- A jump to the place of a later stage. -/
theorem covered_jump {c : MethodBuilder} {label : Nat} (hbuilt : Built built a.method)
    (hext : (b.pushJump .jump label).Extends built) (hlater : c.Extends built) (hbound : built.Bound label c.position)
    (hk : Covered enter a lo hi names ⟨c.position, stack, locals⟩) :
    Covered enter a lo hi names ⟨b.position, stack, locals⟩ := by
  have hat := fetched_jump hbuilt.build isJump_jump hext hbound hbuilt.labelSize
  refine .of_step hat (listed_of_fetched hat rfl) fun m f₁ m₁ hrun _ => ?_
  have hgo : EStateM.Result.ok (Outcome.go ⟨(UInt64.ofNat c.position).toNat, stack, locals⟩) m = .ok (.go f₁) m₁ := hrun
  rw [hbuilt.toNat_position hlater] at hgo
  cases hgo
  exact hk

/-- A jump that a truth value decides. -/
theorem covered_test {c : MethodBuilder} {label : Nat} {jump : UInt64 → Instruction} {decided : Bool} {v : Value}
    (hbuilt : Built built a.method) (hjump : IsJump jump) (hasks : ∀ t, (jump t).asks = false)
    (hstep : ∀ n t, step enter a ⟨n, v :: stack, locals⟩ (jump t) =
      truth v >>= fun d => pure (.go ⟨if d = decided then t.toNat else n, stack, locals⟩))
    (hext : (b.pushJump jump label).Extends built) (hlater : c.Extends built) (hbound : built.Bound label c.position)
    (hdecided : Covered enter a lo hi names ⟨c.position, stack, locals⟩)
    (hother : Covered enter a lo hi names ⟨(b.pushJump jump label).position, stack, locals⟩) :
    Covered enter a lo hi names ⟨b.position, v :: stack, locals⟩ := by
  have hat := fetched_jump hbuilt.build hjump hext hbound hbuilt.labelSize
  refine .of_step hat (listed_of_fetched hat (hasks _)) fun m f₁ m₁ hrun _ => ?_
  dsimp only at hrun
  rw [hstep, hbuilt.toNat_position hlater] at hrun
  obtain ⟨d, m', -, hgo⟩ := bind_eq_ok.mp hrun
  obtain ⟨hgo, rfl⟩ := pure_eq_ok.mp hgo
  cases hgo
  rw [position_pushJump] at hother
  split
  · exact hdecided
  · exact hother

/-- A jump that null decides: it is dropped, and any other value is kept. -/
theorem covered_notNull {c : MethodBuilder} {label : Nat} {v : Value} (hbuilt : Built built a.method)
    (hext : (b.pushJump .jumpIfNotNull label).Extends built) (hlater : c.Extends built)
    (hbound : built.Bound label c.position)
    (hnull : Covered enter a lo hi names ⟨(b.pushJump .jumpIfNotNull label).position, stack, locals⟩)
    (hother : Covered enter a lo hi names ⟨c.position, v :: stack, locals⟩) :
    Covered enter a lo hi names ⟨b.position, v :: stack, locals⟩ := by
  have hat := fetched_jump hbuilt.build isJump_jumpIfNotNull hext hbound hbuilt.labelSize
  refine .of_step hat (listed_of_fetched hat rfl) fun m f₁ m₁ hrun _ => ?_
  dsimp only at hrun
  rw [step_jumpIfNotNull, hbuilt.toNat_position hlater] at hrun
  obtain ⟨hgo, rfl⟩ := pure_eq_ok.mp hrun
  cases hgo
  rw [position_pushJump] at hnull
  split
  · exact hnull
  · exact hother

/-! ### Pieces of a method -/

/-- A piece of a method that puts one more operand on the stack, which is not the receiver itself, is covered if what
follows it is. -/
def Covers (enter : Enter) (a : Activation) (lo hi : Nat) (names : List String) (built b b' : MethodBuilder) : Prop :=
  b'.Extends built → ∀ stack locals, (∀ v, v ≠ .object a.receiver →
    Covered enter a lo hi names ⟨b'.position, v :: stack, locals⟩) → Covered enter a lo hi names ⟨b.position, stack, locals⟩

/-- Two ways that meet again. -/
theorem covers_fork {b₁ b₂ b₃ : MethodBuilder} {jump : UInt64 → Instruction} {decided : Bool}
    (hbuilt : Built built a.method) (hjump : IsJump jump) (hasks : ∀ t, (jump t).asks = false)
    (hstep : ∀ v stack locals n t, step enter a ⟨n, v :: stack, locals⟩ (jump t) =
      truth v >>= fun d => pure (.go ⟨if d = decided then t.toNat else n, stack, locals⟩))
    (hgrows₁ : b.newLabel.2.newLabel.2.Grows 0 b₁) (hgrows₂ : (b₁.pushJump jump b.labels.length).Grows 0 b₂)
    (hgrows₃ : ((b₂.pushJump .jump b.newLabel.2.labels.length).bind b.labels.length).Grows 0 b₃)
    (htest : Covers enter a lo hi names built b.newLabel.2.newLabel.2 b₁)
    (hfirst : Covers enter a lo hi names built (b₁.pushJump jump b.labels.length) b₂)
    (hsecond : Covers enter a lo hi names built
      ((b₂.pushJump .jump b.newLabel.2.labels.length).bind b.labels.length) b₃) :
    Covers enter a lo hi names built b (b₃.bind b.newLabel.2.labels.length) := by
  intro hext stack locals hk
  have hne : b.labels.length ≠ b.newLabel.2.labels.length := by simp
  -- Both labels stay open until they are bound.
  have hopen : b₂.Open b.labels.length :=
    hgrows₂.open_ (hgrows₁.open_ (getElem?_of_leading (labels_prefix_newLabel _) (open_newLabel b)))
  have hopen' : b₂.Open b.newLabel.2.labels.length := hgrows₂.open_ (hgrows₁.open_ (open_newLabel b.newLabel.2))
  set b₄ := b₂.pushJump .jump b.newLabel.2.labels.length with hb₄
  set b₅ := b₄.bind b.labels.length with hb₅
  have hopen₃ : b₃.Open b.newLabel.2.labels.length := hgrows₃.open_ ((bind_open_of_ne hne).mpr hopen')
  have h₃ : b₃.Extends built := (extends_bind hopen₃).trans hext
  have h₅ : b₅.Extends built := hgrows₃.extends.trans h₃
  have h₄ : b₄.Extends built := (extends_bind (b := b₄) hopen).trans h₅
  have h₂ : b₂.Extends built := (grows_pushJump b₂ _ _).extends.trans h₄
  have h₁ : (b₁.pushJump jump b.labels.length).Extends built := hgrows₂.extends.trans h₂
  have hother : built.Bound b.labels.length b₅.position := h₅.bound _ _ (bound_bind (b := b₄) hopen)
  have hdone : built.Bound b.newLabel.2.labels.length (b₃.bind b.newLabel.2.labels.length).position :=
    hext.bound _ _ (bound_bind hopen₃)
  refine htest ((grows_pushJump b₁ _ _).extends.trans h₁) stack locals fun v _ => ?_
  refine covered_test hbuilt hjump hasks (hstep v stack locals) h₁ h₅ hother ?_ ?_
  · exact hsecond h₃ stack locals fun w hw => hk w hw
  · exact hfirst h₂ stack locals fun w hw => covered_jump hbuilt h₄ hext hdone (hk w hw)

theorem covers_coalesce {b₁ b₂ : MethodBuilder} (hbuilt : Built built a.method) (hgrows₁ : b.newLabel.2.Grows 0 b₁)
    (hgrows₂ : (b₁.pushJump .jumpIfNotNull b.labels.length).Grows 0 b₂)
    (hleft : Covers enter a lo hi names built b.newLabel.2 b₁)
    (hright : Covers enter a lo hi names built (b₁.pushJump .jumpIfNotNull b.labels.length) b₂) :
    Covers enter a lo hi names built b (b₂.bind b.labels.length) := by
  intro hext stack locals hk
  have hopen : b₂.Open b.labels.length := hgrows₂.open_ (hgrows₁.open_ (open_newLabel b))
  have h₂ : b₂.Extends built := (extends_bind hopen).trans hext
  have h₁ : (b₁.pushJump .jumpIfNotNull b.labels.length).Extends built := hgrows₂.extends.trans h₂
  have hdone : built.Bound b.labels.length b₂.position := hext.bound _ _ (bound_bind hopen)
  refine hleft ((grows_pushJump b₁ _ _).extends.trans h₁) stack locals fun v hv => ?_
  exact covered_notNull hbuilt h₁ h₂ hdone (hright h₂ stack locals fun w hw => hk w hw) (hk v hv)

/-! ### The receiver itself -/

/-- Parameters stand for the receiver, and there are none where there is an instance. -/
def Applies (a : Activation) (scope : Scope) : Prop :=
  ∀ n i, scope.params.idxOf? n = some i →
    scope.hasThis = false ∧ a.args[(UInt16.ofNat i).toNat]? = some (.object a.receiver)

theorem applies_ofInstance : Applies a (.ofInstance []) := nofun

theorem applies_detached {param : String} (h : a.args = [.object a.receiver]) : Applies a (.detached [param]) := by
  intro n i hi
  have hlt := (List.idxOf?_eq_some_iff.mp hi).1
  obtain rfl : i = 0 := by simpa [Scope.detached] using hlt
  exact ⟨rfl, by rw [h]; rfl⟩

/-- What names the instance pushes the receiver itself. -/
theorem covered_instance (hbuilt : Built built a.method) (happlies : Applies a scope) {e : Expr}
    (hinstance : scope.isInstance e = true) {u : Unit} (h : expression scope e b = .ok u b') (hext : b'.Extends built)
    (hk : Covered enter a lo hi names ⟨b'.position, .object a.receiver :: stack, locals⟩) :
    Covered enter a lo hi names ⟨b.position, stack, locals⟩ := by
  cases e with
  | this s =>
    obtain ⟨-, rfl⟩ := loadThis_eq_ok.mp h
    exact covered_loadThis hbuilt hext hk
  | name n s =>
    rw [Scope.isInstance, Bool.and_eq_true, List.contains_iff_mem] at hinstance
    obtain ⟨i, hi, rfl⟩ | ⟨hnone, -, -⟩ := loadName_eq_ok h
    · refine covered_push (k := fun v => v :: stack) hbuilt hext rfl rfl (step_loadArg ..) fun v m m' hrun => ?_
      unfold argument at hrun
      rw [(happlies n i hi).2] at hrun
      obtain ⟨rfl, -⟩ := pure_eq_ok.mp hrun
      exact hk
    · exact absurd hinstance.2 (List.idxOf?_eq_none_iff.mp hnone)
  | _ => cases hinstance

end Run

namespace Expr

variable {scope : Scope} {object : Expr}

/-- A member of the instance is read. -/
theorem readsIn_member_of_isInstance (n : String) (s : Span) (h : scope.isInstance object = true) :
    readsIn scope.params (member object n s) = [⟨n, s⟩] := by
  cases object with
  | this s' => rfl
  | name r s' =>
    rw [Scope.isInstance, Bool.and_eq_true] at h
    rw [readsIn, if_pos h.2]
  | _ => cases h

/-- What any other object reads is read by its member, too. -/
theorem readsIn_object_subset (n : String) (s : Span) (h : scope.isInstance object = false) :
    readsIn scope.params object ⊆ readsIn scope.params (member object n s) := by
  cases object with
  | this s' => cases h
  | name r s' =>
    by_cases hr : scope.params.contains r = true
    · rw [readsIn, hr]
      exact List.nil_subset _
    · rw [show readsIn scope.params (member (name r s') n s) = readsIn scope.params (name r s') from if_neg hr]
      exact List.Subset.refl _
  | _ => exact List.Subset.refl _

end Expr

namespace Naming

theorem length_getter (n : String) : 4 ≤ (getter n).length := by
  rw [getter, String.length_append]
  exact Nat.le_add_right _ _

theorem getter_ne_to (n : String) : getter n ≠ "To" := fun h => by
  have := length_getter n
  rw [h] at this
  exact absurd this (by decide)

theorem getter_not_host (n : String) : Expr.hostReceivers.contains (getter n) = false := by
  rw [Bool.eq_false_iff, ne_eq, List.contains_iff_mem]
  intro h
  have hhead : (getter n).toList.head? = some 'g' := by
    rw [getter, String.toList_append]
    rfl
  rcases List.mem_cons.mp h with heq | h
  · rw [heq] at hhead
    exact absurd hhead (by decide)
  · rw [List.mem_singleton.mp h] at hhead
    exact absurd hhead (by decide)

end Naming

namespace Run

variable {enter : Enter} {a : Activation} {lo hi : Nat} {names : List String} {built : MethodBuilder} {scope : Scope}

/-! ### Expressions -/

mutual

/-- The instructions of an expression are covered by what it reads, if what follows them is. -/
theorem covers_expression (hbuilt : Built built a.method) (happlies : Applies a scope) :
    ∀ (e : Expr) {b b' : MethodBuilder} {u : Unit}, expression scope e b = .ok u b' → e.withholds scope = true →
      (∀ read ∈ e.readsIn scope.params, read.name ∈ names) → Covers enter a lo hi names built b b'
  | .literal v _, b, _, _, h, _, _ => by
    obtain rfl := emit_eq_ok.mp h
    intro hext stack locals hk
    have hvalue : v.value ≠ .object a.receiver := Value.ne_object_of_isObject v.isObject_value _
    refine covered_push (x := pure v.value) (k := fun w => w :: stack) hbuilt hext ?_ ?_ ?_ fun w _ _ hw => ?_
    · cases v <;> rfl
    · cases v <;> rfl
    · cases v <;> rfl
    · exact (pure_eq_ok.mp hw).1 ▸ hk v.value hvalue
  | .name n s, b, _, _, h, hwithholds, hnames => by
    intro hext stack locals hk
    obtain ⟨i, hi, rfl⟩ | ⟨hnone, hhost, rfl⟩ := loadName_eq_ok h
    · -- A parameter stands for the receiver itself.
      have hmem : n ∈ scope.params := by
        by_contra hno
        rw [List.idxOf?_eq_none_iff.mpr hno] at hi
        cases hi
      rw [Expr.withholds, Scope.isInstance, (happlies n i hi).1, List.contains_iff_mem.mpr hmem] at hwithholds
      cases hwithholds
    · have hmem : scope.params.contains n = false := by
        simpa using List.idxOf?_eq_none_iff.mp hnone
      have hlisted : n ∈ names := hnames ⟨n, s⟩ (by rw [Expr.readsIn, hmem, hhost]; exact List.mem_cons_self)
      refine covered_loadThis hbuilt ((grows_push _ _).extends.trans hext) ?_
      exact covered_getProperty hbuilt hext (fun _ => hlisted) hk
  | .this _, _, _, _, _, hwithholds, _ => by cases hwithholds
  | .member object n s, b, _, _, h, hwithholds, hnames => by
    intro hext stack locals hk
    cases hhost : scope.host? object with
    | some host =>
      obtain rfl := host_member_eq_ok hhost h
      refine covered_push (k := fun w => w :: stack) hbuilt hext rfl rfl
        (step_callHost enter a _ stack locals _ [] rfl) fun w m m' hw => hk w ?_
      rintro rfl
      cases Value.mem_of_callHost (ends_ofExcept _ _ hw).2
    | none =>
      obtain ⟨b₁, h₁, rfl⟩ := member_eq_ok hhost h
      have hext₁ := (grows_push b₁ (.getProperty n)).extends.trans hext
      cases hinstance : scope.isInstance object with
      | true =>
        rw [Expr.readsIn_member_of_isInstance n s hinstance] at hnames
        refine covered_instance hbuilt happlies hinstance h₁ hext₁ ?_
        exact covered_getProperty hbuilt hext (fun _ => hnames _ List.mem_cons_self) hk
      | false =>
        rw [Expr.withholds, hinstance, Bool.false_or] at hwithholds
        refine covers_expression hbuilt happlies object h₁ hwithholds
          (fun read hread => hnames read (Expr.readsIn_object_subset n s hinstance hread)) hext₁ stack locals fun v hv => ?_
        exact covered_getProperty hbuilt hext (fun heq => absurd heq hv) hk
  | .call callee args s, b, _, _, h, hwithholds, hnames => by
    intro hext stack locals hk
    obtain ⟨hlength, invoke, b₁, b₂, h₁, h₂, rfl⟩ := call_eq_ok h
    rw [Expr.withholds, Bool.and_eq_true] at hwithholds
    rw [Expr.readsIn] at hnames
    have hargc : (UInt8.ofNat args.length).toNat = args.length := UInt8.toNat_ofNat_of_lt' hlength
    have hargs : ∀ read ∈ Expr.readsInAll scope.params args, read.name ∈ names :=
      fun read hread => hnames read (List.mem_append_right _ hread)
    have hext₂ := (grows_push b₂ (invoke (UInt8.ofNat args.length))).extends.trans hext
    refine covers_receiver hbuilt happlies callee h₁ hwithholds.1 (fun hprojector read hread => hnames read ?_)
      ((grows_arguments args h₂).extends.trans hext₂) stack locals ?_ ?_
    · rw [hprojector]
      exact List.mem_append_left _ hread
    · rintro name rfl
      refine covers_arguments hbuilt happlies args h₂ hwithholds.2 hargs hext₂ stack locals fun vs hlen hvs => ?_
      refine covered_push (k := fun w => w :: stack) hbuilt hext rfl rfl
        (step_callHost enter a _ stack locals _ vs (hargc.trans hlen.symm)) fun w m m' hw => hk w ?_
      rintro rfl
      exact hvs _ (Value.mem_of_callHost (ends_ofExcept _ _ hw).2) rfl
    · rintro method v rfl hlisted
      refine covers_arguments hbuilt happlies args h₂ hwithholds.2 hargs hext₂ (v :: stack) locals fun vs hlen _ => ?_
      exact covered_callMethod (hargc.trans hlen.symm) hbuilt hext hlisted hk
  | .unary op e _, b, b', u, h, hwithholds, hnames => by
    intro hext stack locals hk
    obtain ⟨_, b₁, h₁, h⟩ := bind_eq_ok.mp (show (expression scope e >>= _) b = _ from h)
    obtain rfl := emit_eq_ok.mp h
    refine covers_expression hbuilt happlies e h₁ hwithholds hnames ((grows_push _ _).extends.trans hext) stack locals
      fun v _ => ?_
    refine covered_push (k := fun w => w :: stack) hbuilt hext rfl rfl (step_unary ..) fun w m m' hw => hk w ?_
    exact Value.ne_object_of_isObject (Value.isObject_unary (ends_ofExcept _ _ hw).2) _
  | .binary op l r s, b, b', u, h, hwithholds, hnames => by
    rw [Expr.withholds, Bool.and_eq_true] at hwithholds
    have hleft : ∀ read ∈ l.readsIn scope.params, read.name ∈ names :=
      fun read hread => hnames read (List.mem_append_left _ hread)
    have hright : ∀ read ∈ r.readsIn scope.params, read.name ∈ names :=
      fun read hread => hnames read (List.mem_append_right _ hread)
    cases hop : StrictOp.ofBinary? op with
    | some strict =>
      obtain ⟨b₁, b₂, h₁, h₂, rfl⟩ := strict_eq_ok hop h
      intro hext stack locals hk
      have hext₂ := (grows_push b₂ (.binary strict)).extends.trans hext
      refine covers_expression hbuilt happlies l h₁ hwithholds.1 hleft ((grows_expression r h₂).extends.trans hext₂)
        stack locals fun v _ => ?_
      refine covers_expression hbuilt happlies r h₂ hwithholds.2 hright hext₂ (v :: stack) locals fun w _ => ?_
      refine covered_push (k := fun x => x :: stack) hbuilt hext rfl rfl (step_binary ..) fun x m m' hx => hk x ?_
      exact Value.ne_object_of_isObject (Value.isObject_binary (ends_ofExcept _ _ hx).2) _
    | none =>
      have hconstant (d : Bool) (c : MethodBuilder) : Covers enter a lo hi names built c (c.push (.pushBool d)) :=
        fun hext stack locals hk => covered_push (x := pure (.bool d)) (k := fun v => v :: stack) hbuilt hext rfl rfl rfl
          fun v _ _ hv => (pure_eq_ok.mp hv).1 ▸ hk (.bool d) nofun
      cases op <;> cases hop
      · obtain ⟨b₁, b₂, hd⟩ := and_eq_ok h
        rw [hd.last]
        exact covers_fork hbuilt isJump_jumpIfFalse (fun _ => rfl) jumpIfFalse_tests (grows_expression l hd.left)
          (grows_expression r hd.right) (grows_push _ _)
          (covers_expression hbuilt happlies l hd.left hwithholds.1 hleft)
          (covers_expression hbuilt happlies r hd.right hwithholds.2 hright) (hconstant false _)
      · obtain ⟨b₁, b₂, hd⟩ := or_eq_ok h
        rw [hd.last]
        exact covers_fork hbuilt isJump_jumpIfTrue (fun _ => rfl) jumpIfTrue_tests (grows_expression l hd.left)
          (grows_expression r hd.right) (grows_push _ _)
          (covers_expression hbuilt happlies l hd.left hwithholds.1 hleft)
          (covers_expression hbuilt happlies r hd.right hwithholds.2 hright) (hconstant true _)
      · obtain ⟨b₁, b₂, h₁, h₂, rfl⟩ := coalesce_eq_ok h
        exact covers_coalesce hbuilt (grows_expression l h₁) (grows_expression r h₂)
          (covers_expression hbuilt happlies l h₁ hwithholds.1 hleft)
          (covers_expression hbuilt happlies r h₂ hwithholds.2 hright)
  | .conditional c t e s, b, b', u, h, hwithholds, hnames => by
    rw [Expr.withholds, Bool.and_eq_true, Bool.and_eq_true] at hwithholds
    simp only [Expr.readsIn, List.mem_append] at hnames
    obtain ⟨b₁, b₂, b₃, hd⟩ := conditional_eq_ok h
    rw [hd.last]
    exact covers_fork hbuilt isJump_jumpIfFalse (fun _ => rfl) jumpIfFalse_tests (grows_expression c hd.condition)
      (grows_expression t hd.thenBranch) (grows_expression e hd.elseBranch)
      (covers_expression hbuilt happlies c hd.condition hwithholds.1 fun read hread => hnames read (Or.inl (Or.inl hread)))
      (covers_expression hbuilt happlies t hd.thenBranch hwithholds.2.1 fun read hread => hnames read (Or.inl (Or.inr hread)))
      (covers_expression hbuilt happlies e hd.elseBranch hwithholds.2.2 fun read hread => hnames read (Or.inr hread))
  | .lambda _ _ _ _, _, _, _, h, _, _ => absurd h unsupported_ne_ok

/-- What is called is no method of the receiver itself that is a getter, unless this is listed. -/
theorem covers_receiver (hbuilt : Built built a.method) (happlies : Applies a scope) :
    ∀ (e : Expr) {b b' : MethodBuilder} {invoke : UInt8 → Instruction}, receiver scope e b = .ok invoke b' →
      e.calleeWithholds scope = true →
      (e.isProjector = false → ∀ read ∈ e.readsIn scope.params, read.name ∈ names) → b'.Extends built →
      ∀ stack locals,
        (∀ name, invoke = .callHost name → Covered enter a lo hi names ⟨b'.position, stack, locals⟩) →
        (∀ method v, invoke = .callMethod method →
          (v = .object a.receiver → ∀ n, method = Naming.getter n → method ∈ names) →
          Covered enter a lo hi names ⟨b'.position, v :: stack, locals⟩) →
        Covered enter a lo hi names ⟨b.position, stack, locals⟩
  | .name n s, b, _, _, h, _, hnames, hext, stack, locals, _, hcall => by
    obtain ⟨hparam, rfl, rfl⟩ := receiver_name_eq_ok h
    refine covered_loadThis hbuilt hext (hcall n _ rfl ?_)
    rintro - k rfl
    have hmem : scope.params.contains (Naming.getter k) = false := by
      have hnone : scope.params.idxOf? (Naming.getter k) = none := by
        simpa [Scope.param?] using hparam
      simpa using List.idxOf?_eq_none_iff.mp hnone
    exact hnames rfl ⟨_, s⟩ (by rw [Expr.readsIn, hmem, Naming.getter_not_host]; exact List.mem_cons_self)
  | .member object n s, b, _, _, h, hwithholds, hnames, hext, stack, locals, hhelper, hcall => by
    cases hhost : scope.host? object with
    | some host =>
      obtain ⟨rfl, rfl⟩ := receiver_host_eq_ok hhost h
      exact hhelper _ rfl
    | none =>
      obtain ⟨h₁, rfl⟩ := receiver_member_eq_ok hhost h
      cases hinstance : scope.isInstance object with
      | true =>
        refine covered_instance hbuilt happlies hinstance h₁ hext (hcall n _ rfl ?_)
        rintro - k rfl
        rw [Expr.readsIn_member_of_isInstance _ s hinstance] at hnames
        refine hnames ?_ _ List.mem_cons_self
        rw [Expr.isProjector, beq_eq_false_iff_ne.mpr (Naming.getter_ne_to k), Bool.false_and]
      | false =>
        rw [Expr.calleeWithholds, hinstance, Bool.false_or] at hwithholds
        have hprojector : (Expr.member object n s).isProjector = false := by
          cases object with
          | this => cases hinstance
          | _ => exact Bool.and_false _
        refine covers_expression hbuilt happlies object h₁ hwithholds
          (fun read hread => hnames hprojector read (Expr.readsIn_object_subset n s hinstance hread)) hext stack locals
          fun v hv => hcall n v rfl fun heq => absurd heq hv
  | .literal _ _, _, _, _, h, _, _, _, _, _, _, _ | .this _, _, _, _, h, _, _, _, _, _, _, _
  | .call _ _ _, _, _, _, h, _, _, _, _, _, _, _ | .unary _ _ _, _, _, _, h, _, _, _, _, _, _, _
  | .binary _ _ _ _, _, _, _, h, _, _, _, _, _, _, _ | .conditional _ _ _ _, _, _, _, h, _, _, _, _, _, _, _
  | .lambda _ _ _ _, _, _, _, h, _, _, _, _, _, _, _ => absurd h unsupported_ne_ok

/-- Arguments are as many operands, none of which is the receiver itself. -/
theorem covers_arguments (hbuilt : Built built a.method) (happlies : Applies a scope) :
    ∀ (es : List Expr) {b b' : MethodBuilder} {u : Unit}, arguments scope es b = .ok u b' →
      Expr.allWithhold scope es = true → (∀ read ∈ Expr.readsInAll scope.params es, read.name ∈ names) →
      b'.Extends built → ∀ stack locals,
        (∀ vs : List Value, vs.length = es.length → (∀ v ∈ vs, v ≠ .object a.receiver) →
          Covered enter a lo hi names ⟨b'.position, vs.reverse ++ stack, locals⟩) →
        Covered enter a lo hi names ⟨b.position, stack, locals⟩
  | [], b, _, _, h, _, _, _, stack, locals, hk => by
    cases h
    exact hk [] rfl nofun
  | e :: es, b, _, _, h, hwithholds, hnames, hext, stack, locals, hk => by
    obtain ⟨b₁, h₁, h₂⟩ := arguments_cons_eq_ok h
    rw [Expr.allWithhold, Bool.and_eq_true] at hwithholds
    refine covers_expression hbuilt happlies e h₁ hwithholds.1 (fun read hread => hnames read (List.mem_append_left _ hread))
      ((grows_arguments es h₂).extends.trans hext) stack locals fun v hv => ?_
    refine covers_arguments hbuilt happlies es h₂ hwithholds.2 (fun read hread => hnames read (List.mem_append_right _ hread))
      hext (v :: stack) locals fun vs hlen hvs => ?_
    have hmore := hk (v :: vs) (congrArg Nat.succ hlen) (List.forall_mem_cons.mpr ⟨hv, hvs⟩)
    rwa [List.reverse_cons, List.append_assoc, List.singleton_append] at hmore

end

/-! ### Lowered expressions in a method -/

/-- The instructions of an expression as it is lowered in a scope are those of the method in the places from `lo` on and
before `hi`. -/
def Stands (a : Activation) (scope : Scope) (e : Expr) (lo hi : Nat) : Prop :=
  ∃ built b b', Built built a.method ∧ expression scope e b = .ok () b' ∧ b'.Extends built ∧
    b.position = lo ∧ b'.position = hi

/-- The method of a body has the instructions of the body, and a return behind them. -/
theorem stands_ofBody {name : String} {e : Expr} (h : CompiledMethod.ofBody name scope e = .ok a.method)
    (hsize : a.method.code.length < UInt64.size) : Stands a scope e 0 (a.method.code.length - 1) := by
  obtain ⟨b, hbody, hbuilt⟩ := built_ofBody h hsize
  refine ⟨b.push .ret, _, b, hbuilt, hbody, (grows_push b .ret).extends, rfl, ?_⟩
  rw [length_of_build hbuilt.build]
  exact Nat.eq_sub_of_add_eq (position_push b .ret).symm

/-- What a lowered expression asks of the receiver itself is among its reads. -/
theorem Stands.covered {e : Expr} (h : Stands a scope e lo hi) (happlies : Applies a scope)
    (hwithholds : e.withholds scope = true) (stack locals : List Value) :
    Covered enter a lo hi ((e.readsIn scope.params).map Expr.Read.name) ⟨lo, stack, locals⟩ := by
  obtain ⟨built, b, b', hbuilt, hexpression, hext, rfl, rfl⟩ := h
  refine covers_expression hbuilt happlies e hexpression hwithholds (fun read hread => List.mem_map_of_mem hread)
    hext stack locals fun v _ m f' m' hrun hlt => ?_
  -- Nothing is left to be executed behind the last instruction.
  cases hrun with
  | refl => exact absurd hlt (Nat.lt_irrefl _)
  | step inside => exact absurd inside.2 (Nat.lt_irrefl _)

/-- A projection reads what its function reads. -/
theorem memberReads_of_staticProjection {e body : Expr} {param : String}
    (h : e.staticProjection? = some (param, body)) : e.memberReads = body.readsIn [param] := by
  unfold Expr.staticProjection? at h
  split at h
  · rename_i callee param' body' s s'
    split at h
    · rename_i hprojector
      cases h
      rw [Expr.memberReads, Expr.readsIn, if_pos hprojector, Expr.readsInAll, Expr.readsInAll, Expr.readsIn,
        List.append_nil, List.nil_append]
    · cases h
  · cases h

/-- **Executed reads are listed.**  Let an expression be lowered into a method, and let it name the instance only where a
member of it is read or called.  From its first instruction on, as long as it is given no value that is the instance
itself, whatever it reads of the instance is among its reads: a property, and a getter that it calls as a method, which is
listed by the name of the method.  The same goes for the function of a projection and the instance that it is applied
to. -/
theorem executed_reads_listed (enter : Enter) (a : Activation) (e : Expr) (lo hi : Nat) (stack locals : List Value) :
    (Stands a (.ofInstance []) e lo hi → e.withholds (.ofInstance []) = true →
      Covered enter a lo hi (e.memberReads.map Expr.Read.name) ⟨lo, stack, locals⟩) ∧
    ∀ param body, e.staticProjection? = some (param, body) → a.args = [.object a.receiver] →
      Stands a (.detached [param]) body lo hi → body.withholds (.detached [param]) = true →
      Covered enter a lo hi (e.memberReads.map Expr.Read.name) ⟨lo, stack, locals⟩ := by
  refine ⟨fun hstands hwithholds => ?_, fun param body hprojection hargs hstands hwithholds => ?_⟩
  · exact hstands.covered applies_ofInstance hwithholds stack locals
  · rw [memberReads_of_staticProjection hprojection]
    exact hstands.covered (applies_detached hargs) hwithholds stack locals

/-! ### Reading the brightness of a porch -/

/-- The brightness and the brightness of the instance. -/
def bothLux : Expr := .binary .add (.name "Lux" .none) (.member (.this .none) "Lux" .none) .none

/-- The method that adds both is called on the first object. -/
def bothRun : Activation :=
  ⟨⟨"Both", 0, 0, [.loadThis, .getProperty "Lux", .loadThis, .getProperty "Lux", .binary .add, .ret]⟩, 0, [], []⟩

/-- The brightness of a porch that is a parameter. -/
def parameterLux : Expr := .member (.name "porch" .none) "Lux" .none

/-- The instance is projected to its brightness. -/
def projectedLux : Expr :=
  .call (.member (.this .none) "To" .none) [.lambda true "porch" parameterLux .none] .none

/-- The function of the projection is applied to the first object. -/
def projectedRun : Activation := ⟨⟨"Projected", 1, 0, [.loadArg 0, .getProperty "Lux", .ret]⟩, 0, [.object 0], []⟩

/-- The brightness is read of the instance, and so it is by the function of the projection; both reads are listed. -/
theorem executed_reads_listed_porch :
    (Stands bothRun (.ofInstance []) bothLux 0 5 ∧ bothLux.withholds (.ofInstance []) = true ∧
      Within (enterFirst 100) bothRun 0 5 ⟨0, [], []⟩ porchClass.alone ⟨1, [.object 0], []⟩ porchClass.alone ∧
      ReadsOwn bothRun ⟨1, [.object 0], []⟩ "Lux" ∧ "Lux" ∈ bothLux.memberReads.map Expr.Read.name) ∧
    projectedLux.staticProjection? = some ("porch", parameterLux) ∧
      Stands projectedRun (.detached ["porch"]) parameterLux 0 2 ∧ parameterLux.withholds (.detached ["porch"]) = true ∧
      Within (enterFirst 100) projectedRun 0 2 ⟨0, [], []⟩ porchClass.alone ⟨1, [.object 0], []⟩ porchClass.alone ∧
      ReadsOwn projectedRun ⟨1, [.object 0], []⟩ "Lux" ∧ "Lux" ∈ projectedLux.memberReads.map Expr.Read.name := by
  have hboth : Stands bothRun (.ofInstance []) bothLux 0 5 :=
    stands_ofBody (show CompiledMethod.ofBody "Both" _ _ = _ by rfl) (by decide)
  have hprojected : Stands projectedRun (.detached ["porch"]) parameterLux 0 2 :=
    stands_ofBody (show CompiledMethod.ofBody "Projected" _ _ = _ by rfl) (by decide)
  have hrun : Within (enterFirst 100) bothRun 0 5 ⟨0, [], []⟩ porchClass.alone ⟨1, [.object 0], []⟩ porchClass.alone :=
    .step (by decide) rfl rfl nofun (.refl _ _)
  have happlied : Within (enterFirst 100) projectedRun 0 2 ⟨0, [], []⟩ porchClass.alone ⟨1, [.object 0], []⟩
      porchClass.alone := .step (by decide) rfl rfl nofun (.refl _ _)
  refine ⟨⟨hboth, rfl, hrun, ⟨rfl, rfl⟩, ?_⟩, rfl, hprojected, rfl, happlied, ⟨rfl, rfl⟩, ?_⟩
  · have hcovered := (executed_reads_listed (enterFirst 100) bothRun bothLux 0 5 [] []).1 hboth rfl
    exact (hcovered _ _ _ hrun (by decide) "Lux").1 ⟨rfl, rfl⟩
  · have hcovered := (executed_reads_listed (enterFirst 100) projectedRun projectedLux 0 2 [] []).2 "porch" parameterLux
      rfl rfl hprojected rfl
    exact (hcovered _ _ _ happlied (by decide) "Lux").1 ⟨rfl, rfl⟩

/-- The getter of the brightness, called as a method. -/
def calledLux : Expr := .call (.name "get_Lux" .none) [] .none

/-- The method that calls the getter is called on the first object. -/
def calledRun : Activation := ⟨⟨"Called", 0, 0, [.loadThis, .callMethod "get_Lux" 0, .ret]⟩, 0, [], []⟩

/-- The getter of the brightness is called on the instance, and what it gives is a number.  The brightness is not among
the reads; the getter is. -/
theorem called_getter_unlisted :
    calledLux.containsLambda = false ∧ calledLux.withholds (.ofInstance []) = true ∧
    Stands calledRun (.ofInstance []) calledLux 0 2 ∧
    Within (enterFirst 100) calledRun 0 2 ⟨0, [], []⟩ porchClass.alone ⟨1, [.object 0], []⟩ porchClass.alone ∧
    (porchClass.image.properties.find? "Lux").bind PropertyDef.getter = some "get_Lux" ∧
    CallsOwn calledRun ⟨1, [.object 0], []⟩ "get_Lux" ∧
    (∃ m, Within (enterFirst 100) calledRun 0 2 ⟨1, [.object 0], []⟩ porchClass.alone ⟨2, [.int 0], []⟩ m) ∧
    calledLux.memberReads.map Expr.Read.name = ["get_Lux"] ∧ "Lux" ∉ calledLux.memberReads.map Expr.Read.name := by
  refine ⟨rfl, rfl, ?_, .step (by decide) rfl rfl nofun (.refl _ _), by decide +kernel, ⟨0, rfl, rfl⟩, ?_, rfl, by decide⟩
  · exact stands_ofBody (show CompiledMethod.ofBody "Called" _ _ = _ by rfl) (by decide)
  · exact ⟨_, .step (by decide) rfl (eq_ok_of_run' (by decide +kernel)) (fun _ h => by cases h) (.refl _ _)⟩

end Run

end Reactive
