import Reactive.Proofs.Balance
import Reactive.Proofs.Sessions

/-!
# Reactive.Proofs.Congruence — runs whose numbers of instructions differ

* `RuntimeError.isOrdinary`: an error that has nothing to do with operands and locals of a method.
* `Agree`: two computations do the same on every machine of some classes, and stop only as `P` permits.
* `Guarded`: what is asked of the methods of the classes, and of two numbers of instructions, for every run with one of
  them to agree with the run with the other (`Guarded.agree_perform`).
-/

namespace Reactive

open Stateful

/-- The error has nothing to do with the operands and locals of a method. -/
def RuntimeError.isOrdinary : RuntimeError → Bool
  | stackUnderflow | typeFault (.localRange _) => false
  | _ => true

namespace Value

theorem unary_isOrdinary {op : UnaryOp} {v : Value} {e : RuntimeError} (h : v.unary op = .error e) : e.isOrdinary = true := by
  unfold unary at h
  split at h <;> cases h
  rfl

theorem intOp_isOrdinary {op : StrictOp} {a b : Int64} {e : RuntimeError} (h : intOp op a b = .error e) :
    e.isOrdinary = true := by
  cases op with
  | div | mod =>
    simp only [intOp] at h
    split at h <;> cases h
    rfl
  | _ => cases h

theorem binary_isOrdinary {op : StrictOp} {a b : Value} {e : RuntimeError} (h : binary op a b = .error e) :
    e.isOrdinary = true := by
  unfold binary at h
  split at h
  · cases h
  split at h
  · cases h
  split at h
  · cases h
  dsimp only at h
  split at h
  · exact intOp_isOrdinary h
  · split at h <;> cases h
    rfl
  · split at h <;> cases h
    rfl

theorem choose_isOrdinary {op : StrictOp} {a b : Value} {e : RuntimeError} (h : choose op a b = .error e) :
    e.isOrdinary = true := by
  unfold choose at h
  cases hbinary : binary op a b with
  | error e' =>
    rw [hbinary] at h
    cases h
    exact binary_isOrdinary hbinary
  | ok v =>
    rw [hbinary] at h
    dsimp only [bind, Except.bind] at h
    split at h <;> cases h

theorem callHost_isOrdinary {name : String} {args : List Value} {e : RuntimeError} (h : callHost name args = .error e) :
    e.isOrdinary = true := by
  unfold callHost at h
  split at h <;> first | exact choose_isOrdinary h | (cases h; done) | skip
  cases h
  rfl

theorem stringArg_isOrdinary {member : String} {args : List Value} {e : RuntimeError}
    (h : stringArg member args = .error e) : e.isOrdinary = true := by
  unfold stringArg at h
  split at h <;> cases h
  rfl

theorem stringMember_isOrdinary {s member : String} {args : List Value} {e : RuntimeError}
    (h : stringMember s member args = .error e) : e.isOrdinary = true := by
  have harg {f : List Char → Value} (h : (do return f (← stringArg member args) : Except RuntimeError Value) = .error e) :
      e.isOrdinary = true := by
    cases hs : stringArg member args with
    | error e' =>
      rw [hs] at h
      cases h
      exact stringArg_isOrdinary hs
    | ok cs =>
      rw [hs] at h
      cases h
  unfold stringMember at h
  split at h
  · cases h
  · cases h
  · cases h
  · cases h
  · exact harg (f := fun cs => bool (occursIn cs s.toList)) h
  · exact harg (f := fun cs => bool (cs.isPrefixOf s.toList)) h
  · exact harg (f := fun cs => bool (cs.isSuffixOf s.toList)) h
  · cases h
    rfl

end Value

namespace Run

variable {classes : List LoadedClass} {P : Stop → Prop} {α β : Type}

/-! ### Computations that agree -/

/-- On every machine of the classes the computations do the same: they stop as is permitted, or leave such a machine and
give a value with a property. -/
def Agree (classes : List LoadedClass) (P : Stop → Prop) (x y : Run α) (Q : α → Prop) : Prop :=
  ∀ m, m.Of classes → x m = y m ∧ match x m with
    | .ok v m' => m'.Of classes ∧ Q v
    | .error e _ => P e

variable {x y : Run α} {Q Q' : α → Prop}

theorem agree_pure {v : α} (h : Q v) : Agree classes P (pure v) (pure v) Q := fun _ hm => ⟨rfl, hm, h⟩

theorem agree_throw {e : Stop} (h : P e) : Agree classes P (throw e : Run α) (throw e) Q := fun _ _ => ⟨rfl, h⟩

theorem agree_fail {e : RuntimeError} (h : P (.failed e)) : Agree classes P (fail e : Run α) (fail e) Q := agree_throw h

theorem agree_get : Agree classes P (get : Run Machine) get (·.Of classes) := fun _ hm => ⟨rfl, hm, hm⟩

theorem Agree.bind {f g : α → Run β} {R : β → Prop} (hx : Agree classes P x y Q)
    (hf : ∀ v, Q v → Agree classes P (f v) (g v) R) : Agree classes P (x >>= f) (y >>= g) R := by
  intro m hm
  obtain ⟨heq, hres⟩ := hx m hm
  rw [bind_apply, bind_apply, ← heq]
  cases hrun : x m with
  | ok v m' =>
    rw [hrun] at hres
    exact hf v hres.2 m' hres.1
  | error e m' =>
    rw [hrun] at hres
    exact ⟨rfl, hres⟩

theorem Agree.discard (h : Agree classes P x y Q) : Agree classes P (discard x) (discard y) fun _ => True := by
  intro m hm
  obtain ⟨heq, hres⟩ := h m hm
  rw [discard_apply, discard_apply, ← heq]
  cases hrun : x m with
  | ok v m' =>
    rw [hrun] at hres
    exact ⟨rfl, hres.1, trivial⟩
  | error e m' =>
    rw [hrun] at hres
    exact ⟨rfl, hres⟩

theorem agree_forM {γ : Type} {f g : γ → Run Unit} : ∀ {xs : List γ},
    (∀ z ∈ xs, Agree classes P (f z) (g z) fun _ => True) → Agree classes P (xs.forM f) (xs.forM g) fun _ => True
  | [], _ => agree_pure trivial
  | z :: _, h =>
    (h z List.mem_cons_self).bind fun _ _ => agree_forM fun w hw => h w (List.mem_cons_of_mem _ hw)

theorem agree_ofOption {e : RuntimeError} {o : Option α} (he : P (.failed e)) (h : ∀ v, o = some v → Q v) :
    Agree classes P (ofOption e o) (ofOption e o) Q := by
  cases o with
  | none => exact agree_fail he
  | some v => exact agree_pure (h v rfl)

theorem agree_ofExcept {r : Except RuntimeError α} (he : ∀ e, r = .error e → P (.failed e)) :
    Agree classes P (ofExcept r) (ofExcept r) fun _ => True := by
  cases r with
  | error e => exact agree_fail (he e rfl)
  | ok v => exact agree_pure trivial

/-- A computation stops only as is permitted. -/
def Fails (P : Stop → Prop) (x : Run α) : Prop := ∀ m e m', x m = .error e m' → P e

/-- A computation that keeps the classes agrees with itself if it stops only as is permitted. -/
theorem agree_of_keeps (hk : Keeps (Machine.Of classes) x) (hx : Fails P x) : Agree classes P x x fun _ => True := by
  intro m hm
  have hfinal := hk m hm
  refine ⟨rfl, ?_⟩
  cases hrun : x m with
  | ok v m' =>
    rw [hrun] at hfinal
    exact ⟨hfinal, trivial⟩
  | error e m' => exact hx m e m' hrun

theorem fails_pure (v : α) : Fails P (pure v) := nofun

theorem fails_get : Fails P (get : Run Machine) := nofun

theorem fails_modify (f : Machine → Machine) : Fails P (modify f) := nofun

theorem Fails.bind {f : α → Run β} (hx : Fails P x) (hf : ∀ v, Fails P (f v)) : Fails P (x >>= f) := by
  intro m e m' h
  rw [bind_apply] at h
  cases hrun : x m with
  | ok v m₁ =>
    rw [hrun] at h
    exact hf v m₁ e m' h
  | error e' m₁ =>
    rw [hrun] at h
    cases h
    exact hx m e m' hrun

theorem Fails.discard (hx : Fails P x) : Fails P (discard x) := hx.bind fun _ => fails_pure _

theorem fails_ofOption {e : RuntimeError} (he : P (.failed e)) (o : Option α) : Fails P (ofOption e o) := by
  cases o with
  | none =>
    rintro m _ m' ⟨⟩
    exact he
  | some v => exact fails_pure v

/-! ### What is done without entering a method -/

section

variable (hP : ∀ e : RuntimeError, e.isOrdinary = true → P (.failed e))

theorem agree_log (e : Event) : Agree classes P (log e) (log e) fun _ => True :=
  agree_of_keeps (keeps_log e) (fails_modify _)

include hP

theorem fails_instance (object : Nat) : Fails P (instance_ object) :=
  fails_get.bind fun _ => fails_ofOption (hP _ (by rfl)) _

theorem agree_instance (object : Nat) :
    Agree classes P (instance_ object) (instance_ object) (·.image.Among classes) :=
  agree_get.bind fun _ hm => agree_ofOption (hP _ (by rfl)) fun i hi => hm.objects i (List.mem_of_getElem? hi)

theorem agree_loadField (object : Nat) (field : String) :
    Agree classes P (loadField object field) (loadField object field) fun _ => True :=
  agree_of_keeps (keeps_loadField object field)
    ((fails_instance hP object).bind fun _ => fails_ofOption (hP _ (by rfl)) _)

theorem agree_storeField (object : Nat) (field : String) (v : Value) :
    Agree classes P (storeField object field v) (storeField object field v) fun _ => True :=
  agree_of_keeps (keeps_storeField object field v)
    ((fails_instance hP object).discard.bind fun _ => fails_modify _)

theorem agree_accessor (object : Nat) (property : String) (pick : PropertyDef → Option String) :
    Agree classes P (accessor object property pick) (accessor object property pick) fun _ => True :=
  agree_of_keeps (keeps_accessor object property pick)
    ((fails_instance hP object).bind fun _ => fails_ofOption (hP _ (by rfl)) _)

theorem fails_command (id : Nat) : Fails P (command_ id) :=
  fails_get.bind fun _ => fails_ofOption (hP _ (by rfl)) _

theorem agree_setEnabled (id : Nat) (enabled : Bool) :
    Agree classes P (setEnabled id enabled) (setEnabled id enabled) fun _ => True := by
  refine agree_of_keeps (keeps_setEnabled id enabled) ((fails_command hP id).bind fun c => ?_)
  split
  · exact (fails_modify _).bind fun _ => fails_modify _
  · exact fails_pure _

theorem agree_addBinding (id : Nat) (entry : LocaleEntry) :
    Agree classes P (addBinding id entry) (addBinding id entry) fun _ => True :=
  agree_of_keeps (keeps_addBinding id entry)
    (fails_get.bind fun _ => (fails_ofOption (hP _ (by rfl)) _).discard.bind fun _ => fails_modify _)

end

theorem agree_addCommand (owner : Nat) (spec : CommandSpec) (enabled : Bool) :
    Agree classes P (addCommand owner spec enabled) (addCommand owner spec enabled) fun _ => True :=
  agree_of_keeps (keeps_addCommand owner spec enabled)
    (fails_get.bind fun _ => (fails_modify _).bind fun _ => fails_pure _)

theorem agree_addRegistration (owner : Nat) (registry : String) (grouping : Option String) :
    Agree classes P (addRegistration owner registry grouping) (addRegistration owner registry grouping) fun _ => True :=
  agree_of_keeps (keeps_addRegistration owner registry grouping)
    (fails_get.bind fun _ => (fails_modify _).bind fun _ => fails_pure _)

/-! ### Operands -/

variable {f : Frame} {n : Nat}

/-- A frame with fewer operands. -/
structure Popped (f : Frame) (n : Nat) (f' : Frame) : Prop where
  stack : f'.stack.length + n = f.stack.length
  next : f'.next = f.next
  locals : f'.locals = f.locals

theorem agree_pop (h : 1 ≤ f.stack.length) : Agree classes P (pop f) (pop f) fun r => Popped f 1 r.2 := by
  unfold pop
  cases hstack : f.stack with
  | nil =>
    rw [hstack] at h
    cases h
  | cons v rest => exact agree_pure ⟨by rw [hstack]; rfl, rfl, rfl⟩

theorem agree_popMany {argc : UInt8} (h : argc.toNat ≤ f.stack.length) :
    Agree classes P (popMany f argc) (popMany f argc) fun r => Popped f argc.toNat r.2 := by
  unfold popMany Frame.popMany?
  rw [if_neg (Nat.not_lt.mpr h)]
  exact agree_pure ⟨by rw [List.length_drop]; omega, rfl, rfl⟩

theorem agree_popBool (hP : ∀ e : RuntimeError, e.isOrdinary = true → P (.failed e)) (h : 1 ≤ f.stack.length) :
    Agree classes P (popBool f) (popBool f) fun r => Popped f 1 r.2 :=
  (agree_pop h).bind fun _ hf => (agree_ofOption (hP _ (by rfl)) fun _ _ => trivial).bind fun _ _ => agree_pure hf

/-! ### Methods -/

/-- Code of one of the classes. -/
def Coded (classes : List LoadedClass) (m : CompiledMethod) : Prop := ∃ L ∈ classes, L.image.HasCode m

section

variable {enter enter' : Enter} (hP : ∀ e : RuntimeError, e.isOrdinary = true → P (.failed e))
  (he : ∀ a, Coded classes a.method → Agree classes P (enter a) (enter' a) fun _ => True)

include hP he

theorem agree_invoke (refreshing : List Nat) (object : Nat) (name : String) (args : List Value) :
    Agree classes P (invoke enter refreshing object name args) (invoke enter' refreshing object name args)
      fun _ => True := by
  refine (agree_instance hP object).bind fun i hi => ?_
  obtain ⟨L, hL, himage⟩ := hi
  dsimp only
  split
  · rename_i method hmethod
    exact he _ ⟨L, hL, .method (himage ▸ hmethod)⟩
  · split
    · exact (agree_log _).bind fun _ _ => agree_pure trivial
    · split <;> exact agree_fail (hP _ (by rfl))

theorem agree_read (refreshing : List Nat) (object : Nat) (property : String) :
    Agree classes P (read enter refreshing object property) (read enter' refreshing object property) fun _ => True :=
  (agree_accessor hP object property _).bind fun _ _ => agree_invoke hP he refreshing object _ _

theorem agree_callHook (refreshing : List Nat) (object : Nat) (name : String) (args : List Value) :
    Agree classes P (callHook enter refreshing object name args) (callHook enter' refreshing object name args)
      fun _ => True := by
  refine (agree_log _).bind fun _ _ => (agree_instance hP object).bind fun i _ => ?_
  split
  · exact (agree_invoke hP he refreshing object name args).discard
  · exact agree_pure trivial

theorem agree_applyStatic (refreshing : List Nat) (object : Nat) (name : String) :
    Agree classes P (applyStatic enter refreshing object name) (applyStatic enter' refreshing object name)
      fun _ => True := by
  refine (agree_instance hP object).bind fun i hi => ?_
  obtain ⟨L, hL, himage⟩ := hi
  refine (agree_ofOption (Q := Coded classes) (hP _ (by rfl)) fun function hfunction => ?_).bind
    fun function hcoded => he _ hcoded
  exact ⟨L, hL, .function (himage ▸ hfunction)⟩

theorem agree_enablement (refreshing : List Nat) (object : Nat) (property : String) :
    Agree classes P (enablement enter refreshing object property) (enablement enter' refreshing object property)
      fun _ => True :=
  (agree_read hP he refreshing object property).bind fun _ _ => agree_ofOption (hP _ (by rfl)) fun _ _ => trivial

theorem agree_newCommand (refreshing : List Nat) (owner : Nat) (spec : CommandSpec) :
    Agree classes P (newCommand enter refreshing owner spec) (newCommand enter' refreshing owner spec) fun _ => True := by
  unfold newCommand
  split
  · exact (agree_enablement hP he refreshing owner _).bind fun _ _ => agree_addCommand _ _ _
  · exact agree_addCommand _ _ _

theorem agree_refreshAll (refreshing : List Nat) (object : Nat) (property : String) : ∀ ids : List Nat,
    Agree classes P (refreshAll enter refreshing object property ids) (refreshAll enter' refreshing object property ids)
      fun _ => True
  | [] => agree_pure trivial
  | id :: rest => by
    have hrest := agree_refreshAll refreshing object property rest
    rw [refreshAll, refreshAll]
    by_cases hid : refreshing.contains id = true
    · rw [if_pos hid, if_pos hid]
      exact hrest
    · rw [if_neg hid, if_neg hid]
      refine Agree.bind (agree_enablement hP he _ _ _) fun enabled _ => ?_
      exact (agree_setEnabled hP id enabled).bind fun _ _ => hrest

theorem agree_raiseChanged (refreshing : List Nat) (object : Nat) (property : String) :
    Agree classes P (raiseChanged enter refreshing object property) (raiseChanged enter' refreshing object property)
      fun _ => True :=
  (agree_log _).bind fun _ _ => agree_get.bind fun _ _ => agree_refreshAll hP he refreshing object property _

theorem agree_readOf (refreshing : List Nat) (name : String) (v : Value) :
    Agree classes P (readOf enter refreshing name v) (readOf enter' refreshing name v) fun _ => True := by
  cases v with
  | object id => exact agree_read hP he refreshing id name
  | string s => exact agree_ofExcept fun e h => hP e (Value.stringMember_isOrdinary h)
  | _ => exact agree_fail (hP _ (by rfl))

theorem agree_callOn (refreshing : List Nat) (name : String) (args : List Value) (v : Value) :
    Agree classes P (callOn enter refreshing name args v) (callOn enter' refreshing name args v) fun _ => True := by
  cases v with
  | object id => exact agree_invoke hP he refreshing id name args
  | string s => exact agree_ofExcept fun e h => hP e (Value.stringMember_isOrdinary h)
  | _ => exact agree_fail (hP _ (by rfl))

end

/-- The frame that an instruction at a place leads to is one of those that it may lead to. -/
def Follows (i : Instruction) (place : Nat) (f : Frame) : Outcome → Prop
  | .go f' => (f'.next, f'.stack.length) ∈ i.leadsTo place f.stack.length ∧ f'.locals.length = f.locals.length
  | .returned _ => True

variable {i : Instruction} {place : Nat} {f' : Frame}

/-- The next instruction follows. -/
theorem Follows.next (hterm : i.isTerminator = false) (hnext : f'.next = place + 1)
    (hstack : f'.stack.length = f.stack.length - i.takes + i.gives) (hlocals : f'.locals.length = f.locals.length) :
    Follows i place f (.go f') := by
  refine ⟨List.mem_append_left _ ?_, hlocals⟩
  rw [hterm, hnext, hstack]
  exact List.mem_cons_self

/-- The target of a jump follows. -/
theorem Follows.jump {t : UInt64} (htarget : i.target? = some t) (hnext : f'.next = t.toNat)
    (hstack : f'.stack.length = f.stack.length - i.takes + i.carries) (hlocals : f'.locals.length = f.locals.length) :
    Follows i place f (.go f') := by
  refine ⟨List.mem_append_right _ ?_, hlocals⟩
  rw [htarget, hnext, hstack]
  exact List.mem_cons_self

section

variable {enter enter' : Enter} (hP : ∀ e : RuntimeError, e.isOrdinary = true → P (.failed e))
  (he : ∀ a, Coded classes a.method → Agree classes P (enter a) (enter' a) fun _ => True)

include hP he

/-- One instruction that has its operands, and whose local is there if that matters. -/
theorem agree_step (a : Activation) {place : Nat} (hplace : f.next = place + 1) (i : Instruction)
    (htakes : i.takes ≤ f.stack.length)
    (hlocal : ∀ index, i.local? = some index →
      index.toNat < f.locals.length ∨ P (.failed (.typeFault (.localRange index.toNat)))) :
    Agree classes P (step enter a f i) (step enter' a f i) (Follows i place f) := by
  have hpush {v : Value} (hterm : i.isTerminator = false) (hzero : i.takes = 0) (hone : i.gives = 1) :
      Follows i place f (.go (f.push v)) :=
    .next hterm hplace (by rw [hzero, hone]; rfl) rfl
  -- An instruction that takes its operands away and pushes a value.
  have hreplace {f' : Frame} (hf : Popped f i.takes f') {v : Value} (hterm : i.isTerminator = false)
      (hone : i.gives = 1) : Follows i place f (.go (f'.push v)) :=
    .next hterm (hf.next.trans hplace) (by rw [hone, ← hf.stack, Nat.add_sub_cancel]; rfl) (congrArg _ hf.locals)
  have hdrop {f' : Frame} (hf : Popped f i.takes f') (hterm : i.isTerminator = false) (hzero : i.gives = 0) :
      Follows i place f (.go f') :=
    .next hterm (hf.next.trans hplace) (by rw [hzero, ← hf.stack, Nat.add_sub_cancel]; rfl) (congrArg _ hf.locals)
  have hleap {f' : Frame} {t : UInt64} (hf : Popped f i.takes f') (htarget : i.target? = some t)
      (hzero : i.carries = 0) : Follows i place f (.go (f'.jump t)) :=
    .jump htarget rfl (by rw [hzero, ← hf.stack, Nat.add_sub_cancel]; rfl) (congrArg _ hf.locals)
  cases i with
  | pushNull | pushBool | pushInt | pushFloat | pushString | pushDefault | loadThis =>
    exact agree_pure (hpush rfl rfl rfl)
  | loadArg index => exact (agree_ofOption (hP _ (by rfl)) fun _ _ => trivial).bind fun _ _ => agree_pure (hpush rfl rfl rfl)
  | loadLocal index =>
    obtain hlt | hpermitted := hlocal index rfl
    · have hat (enter : Enter) :
          step enter a f (.loadLocal index) = pure (.go (f.push f.locals[index.toNat])) := by
        show ofOption _ f.locals[index.toNat]? >>= _ = _
        rw [List.getElem?_eq_getElem hlt]
        rfl
      rw [hat, hat]
      exact agree_pure (hpush rfl rfl rfl)
    · exact (agree_ofOption hpermitted fun _ _ => trivial).bind fun _ _ => agree_pure (hpush rfl rfl rfl)
  | storeLocal index =>
    refine (agree_pop htakes).bind fun r hf => ?_
    dsimp only
    split
    · refine agree_pure (.next rfl (hf.next.trans hplace) ?_ ?_)
      · show r.2.stack.length = f.stack.length - 1 + 0
        have := hf.stack
        omega
      · show (r.2.locals.set _ _).length = _
        rw [List.length_set, hf.locals]
    · rename_i hge
      obtain hlt | hpermitted := hlocal index rfl
      · exact absurd (hf.locals ▸ hlt) hge
      · exact agree_fail hpermitted
  | loadField name => exact (agree_loadField hP _ name).bind fun _ _ => agree_pure (hpush rfl rfl rfl)
  | storeField name =>
    exact (agree_pop htakes).bind fun _ hf => (agree_storeField hP _ name _).bind fun _ _ => agree_pure (hdrop hf rfl rfl)
  | getProperty name =>
    exact (agree_pop htakes).bind fun _ hf => (agree_readOf hP he _ name _).bind fun _ _ =>
      agree_pure (hreplace hf rfl rfl)
  | callMethod name argc =>
    have hargs : argc.toNat + 1 ≤ f.stack.length := htakes
    refine (agree_popMany (by omega)).bind fun r hf => ?_
    have hstack := hf.stack
    refine (agree_pop (by omega)).bind fun r' hf' => (agree_callOn hP he _ name _ _).bind fun _ _ => ?_
    have hboth : Popped f (argc.toNat + 1) r'.2 :=
      ⟨by rw [← hstack, ← hf'.stack]; omega, hf'.next.trans hf.next, hf'.locals.trans hf.locals⟩
    exact agree_pure (hreplace hboth rfl rfl)
  | callHook name argc =>
    exact (agree_popMany htakes).bind fun _ hf => (agree_callHook hP he _ _ name _).bind fun _ _ =>
      agree_pure (hdrop hf rfl rfl)
  | callStatic name =>
    refine (agree_pop htakes).bind fun r hf => ?_
    obtain ⟨v, f'⟩ := r
    cases v with
    | object id => exact (agree_applyStatic hP he _ id name).bind fun _ _ => agree_pure (hreplace hf rfl rfl)
    | _ => exact agree_fail (hP _ (by rfl))
  | callHost name argc =>
    exact (agree_popMany htakes).bind fun _ hf => (agree_ofExcept fun e h => hP e (Value.callHost_isOrdinary h)).bind
      fun _ _ => agree_pure (hreplace hf rfl rfl)
  | unary op =>
    exact (agree_pop htakes).bind fun _ hf => (agree_ofExcept fun e h => hP e (Value.unary_isOrdinary h)).bind
      fun _ _ => agree_pure (hreplace hf rfl rfl)
  | binary op =>
    have htwo : 2 ≤ f.stack.length := htakes
    refine (agree_pop (by omega)).bind fun r hf => ?_
    have hstack := hf.stack
    refine (agree_pop (by omega)).bind fun r' hf' => ?_
    have hboth : Popped f 2 r'.2 :=
      ⟨by rw [← hstack, ← hf'.stack], hf'.next.trans hf.next, hf'.locals.trans hf.locals⟩
    exact (agree_ofExcept fun e h => hP e (Value.binary_isOrdinary h)).bind fun _ _ => agree_pure (hreplace hboth rfl rfl)
  | dup =>
    refine (agree_pop htakes).bind fun r hf => agree_pure (.next rfl hplace ?_ rfl)
    have hone : 1 ≤ f.stack.length := htakes
    show f.stack.length + 1 = f.stack.length - 1 + 2
    omega
  | pop => exact (agree_pop htakes).bind fun _ hf => agree_pure (hdrop hf rfl rfl)
  | jump target => exact agree_pure (.jump rfl rfl rfl rfl)
  | jumpIfFalse target =>
    refine (agree_popBool hP htakes).bind fun r hf => agree_pure ?_
    obtain ⟨v, f'⟩ := r
    cases v
    · exact hleap hf rfl rfl
    · exact hdrop hf rfl rfl
  | jumpIfTrue target =>
    refine (agree_popBool hP htakes).bind fun r hf => agree_pure ?_
    obtain ⟨v, f'⟩ := r
    cases v
    · exact hdrop hf rfl rfl
    · exact hleap hf rfl rfl
  | jumpIfNotNull target =>
    refine (agree_pop htakes).bind fun r hf => agree_pure ?_
    obtain ⟨v, f'⟩ := r
    dsimp only
    split
    · exact hdrop hf rfl rfl
    · refine .jump rfl rfl ?_ rfl
      have hone : 1 ≤ f.stack.length := htakes
      show f.stack.length = f.stack.length - 1 + 1
      omega
  | raiseChanging property =>
    exact (agree_log _).bind fun _ _ => agree_pure (.next rfl hplace rfl rfl)
  | raiseChanged property =>
    exact (agree_raiseChanged hP he _ _ property).bind fun _ _ => agree_pure (.next rfl hplace rfl rfl)
  | newCommand spec => exact (agree_newCommand hP he _ _ spec).bind fun _ _ => agree_pure (hpush rfl rfl rfl)
  | registerLocale registry grouping =>
    exact (agree_addRegistration _ _ _).bind fun _ _ => agree_pure (hpush rfl rfl rfl)
  | addLocaleProperty key target retain =>
    refine (agree_pop htakes).bind fun r hf => ?_
    obtain ⟨v, f'⟩ := r
    cases v with
    | locale id => exact (agree_addBinding hP id _).bind fun _ _ => agree_pure (hdrop hf rfl rfl)
    | _ => exact agree_fail (hP _ (by rfl))
  | ret => exact (agree_pop htakes).bind fun _ _ => agree_pure trivial
  | retVoid => exact agree_pure trivial

end

/-! ### Whole methods -/

/-- What is asked of the classes, of what is permitted, and of two numbers of instructions: all code is safe, and either
the numbers are the same and need not be enough, or both are. -/
structure Guarded (classes : List LoadedClass) (P : Stop → Prop) (fuel fuel' : Nat) : Prop where
  ordinary : ∀ e : RuntimeError, e.isOrdinary = true → P (.failed e)
  safe : ∀ m, Coded classes m → m.StackSafe
  forward : ∀ m, Coded classes m → m.JumpsForward
  locals : ∀ m, Coded classes m → m.LocalsInRange ∨ ∀ index, P (.failed (.typeFault (.localRange index)))
  enough : (fuel = fuel' ∧ P .exhausted) ∨ ∀ m, Coded classes m → m.code.length < fuel ∧ m.code.length < fuel'

variable {fuel fuel' : Nat}

/-- A method, from a place that some way through it comes to.  The induction is on the number of instructions; each leads
to a place further on. -/
theorem Guarded.agree_body (h : Guarded classes P fuel fuel') {enter enter' : Enter}
    (he : ∀ a, Coded classes a.method → Agree classes P (enter a) (enter' a) fun _ => True) {a : Activation}
    (ha : Coded classes a.method) : ∀ (n n' : Nat) (f : Frame), a.method.Passes f.next f.stack.length →
      f.locals.length = a.method.localCount.toNat →
      ((n = n' ∧ P .exhausted) ∨ (a.method.code.length - f.next < n ∧ a.method.code.length - f.next < n')) →
      Agree classes P (body enter a n f) (body enter' a n' f) fun _ => True
  | 0, n', f, _, _, hn => by
    obtain ⟨rfl, hpermitted⟩ | ⟨hlt, -⟩ := hn
    · exact agree_throw hpermitted
    · omega
  | n + 1, 0, f, _, _, hn => by
    obtain ⟨heq, -⟩ | ⟨-, hlt⟩ := hn <;> omega
  | n + 1, n' + 1, f, hpasses, hlocals, hn => by
    rw [body, body]
    cases hi : a.method.code[f.next]? with
    | none => exact agree_pure trivial
    | some i =>
      have hlt : f.next < a.method.code.length := (List.getElem?_eq_some_iff.mp hi).1
      refine (agree_step (f := { f with next := f.next + 1 }) h.ordinary he a rfl i
        ((h.safe _ ha).enough _ _ _ hpasses hi) fun index hindex => ?_).bind fun o ho => ?_
      · refine (h.locals _ ha).imp (fun hrange => ?_) fun hpermitted => hpermitted _
        show index.toNat < f.locals.length
        rw [hlocals]
        exact hrange i (List.mem_of_getElem? hi) index hindex
      · cases o with
        | returned v => exact agree_pure trivial
        | go f' =>
          obtain ⟨hleads, hsame⟩ := ho
          have hfurther := (h.forward _ ha).lt_of_leadsTo hi hleads
          refine agree_body h he ha n n' f' (.step hpasses hi hleads) (hsame.trans hlocals) ?_
          exact hn.imp (fun hsame => ⟨Nat.succ.inj hsame.1, hsame.2⟩) fun hmore => ⟨by omega, by omega⟩

/-- Methods, in which at most `depth` calls are open at a time. -/
theorem Guarded.agree_enter (h : Guarded classes P fuel fuel') : ∀ (depth : Nat) (a : Activation),
    Coded classes a.method → Agree classes P (enter fuel depth a) (enter fuel' depth a) fun _ => True
  | 0, _, _ => agree_fail (h.ordinary _ (by rfl))
  | depth + 1, a, ha => by
    have hbody := h.agree_body (h.agree_enter depth) ha fuel fuel' (.start a.method) .start List.length_replicate
    refine hbody (h.enough.imp id fun henough => ?_)
    obtain ⟨hlt, hlt'⟩ := henough _ ha
    exact ⟨Nat.lt_of_le_of_lt (Nat.sub_le _ _) hlt, Nat.lt_of_le_of_lt (Nat.sub_le _ _) hlt'⟩

/-! ### From outside -/

theorem Guarded.agree_runInitializer (h : Guarded classes P fuel fuel') {image : ClassImage}
    (himage : image.Among classes) (object : Nat) {i : Initializer} (hi : i ∈ image.initializers) :
    Agree classes P (runInitializer fuel object i) (runInitializer fuel' object i) fun _ => True := by
  obtain ⟨L, hL, rfl⟩ := himage
  refine (h.agree_enter maxDepth _ ⟨L, hL, .initializer hi⟩).bind fun v _ => ?_
  split
  · exact agree_storeField h.ordinary _ _ _
  · exact (agree_invoke h.ordinary (h.agree_enter maxDepth) _ _ _ _).discard

theorem Guarded.agree_construct (h : Guarded classes P fuel fuel') (className : String) :
    Agree classes P (construct fuel className) (construct fuel' className) fun _ => True := by
  refine agree_get.bind fun m hm => ?_
  refine (agree_ofOption (Q := (·.Among classes)) (h.ordinary _ (by rfl)) fun image himage => ?_).bind
    fun image himage => ?_
  · exact hm.classes className image himage
  have hallocate : Agree classes P (allocate image) (allocate image) fun _ => True :=
    agree_of_keeps (keeps_allocate himage) (fails_get.bind fun _ => (fails_modify _).bind fun _ => fails_pure _)
  refine hallocate.bind fun id _ => ?_
  refine (agree_forM fun i hi => h.agree_runInitializer himage id hi).bind fun _ _ => ?_
  split
  · exact (agree_invoke h.ordinary (h.agree_enter maxDepth) _ _ _ _).discard.bind fun _ _ => agree_pure trivial
  · exact agree_pure trivial

/-- Whatever is asked of a machine. -/
theorem Guarded.agree_perform (h : Guarded classes P fuel fuel') (action : Action) :
    Agree classes P (action.perform fuel) (action.perform fuel') fun _ => True := by
  have he := h.agree_enter maxDepth
  cases action with
  | construct className => exact (h.agree_construct className).discard
  | get object property => exact (agree_read h.ordinary he _ object property).discard
  | set object property value =>
    exact (agree_accessor h.ordinary object property _).bind fun _ _ =>
      (agree_invoke h.ordinary he _ object _ _).discard
  | call object method args => exact (agree_invoke h.ordinary he _ object method args).discard
  | command object property =>
    refine Agree.discard (Q := fun _ => True) ((agree_read h.ordinary he _ object property).bind fun v _ => ?_)
    cases v with
    | command id => exact agree_pure trivial
    | _ => exact agree_fail (h.ordinary _ (by rfl))
  | canExecute id =>
    exact Agree.discard ((agree_of_keeps (keeps_command id) (fails_command h.ordinary id)).bind
      (R := fun _ => True) fun _ _ => agree_pure trivial)
  | execute id argument =>
    refine Agree.discard (Q := fun _ => True)
      ((agree_of_keeps (keeps_command id) (fails_command h.ordinary id)).bind fun c _ => ?_)
    have hcall (args : List Value) : Agree classes P (Run.call fuel c.owner c.spec.method args)
        (Run.call fuel' c.owner c.spec.method args) fun _ => True := agree_invoke h.ordinary he _ _ _ _
    by_cases henabled : c.enabled = true
    · simp only [henabled, if_true]
      exact hcall _
    · simp only [henabled]
      exact (agree_fail (Q := fun _ => True) (h.ordinary _ (by rfl))).bind fun _ _ => hcall _

end Run

end Reactive
