import Reactive.Proofs.Drift

/-!
# Reactive.Proofs.Harmless — harmless methods run quietly

* `Scene.Enters`: a way to run methods in which harmless ones only drift.
* `Scene.Calm`: a computation that only drifts wherever an object is one of its class, and what its values are like.
  Whatever a declared body, a getter or a derived value computes is calm, part by part; if the scene leaves objects out of
  the fields of its object, no value of that object's methods is an object.
* `Scene.enters`: with any number of open calls harmless methods only drift, by induction on that number.
-/

namespace Reactive.Scene

open Stateful Run

variable {S : Scene} {fuel : Nat} {enter : Enter} {m : Machine} {r : Nat} {L : LoadedClass}

/-- A harmless method for an object of its class, with arguments that the object may have, or a hoisted function. -/
structure Ready (S : Scene) (a : Activation) (L : LoadedClass) (m : Machine) : Prop where
  located : S.At a.receiver L m
  harmless : (L.Harmless a.receiver a.method a.args ∧ ∀ v ∈ a.args, S.Admits a.receiver v) ∨
    L.Hoisted a.receiver a.method a.args
  sized : a.method.code.length < UInt64.size

/-- Harmless methods only drift. -/
structure Enters (S : Scene) (fuel : Nat) (enter : Enter) : Prop where
  known : ∃ depth, enter = Run.enter fuel depth
  drifts : ∀ a L m, S.Ready a L m → S.Clear m → Ends (enter a) m fun v m' => S.Drift fuel m m' ∧ S.Admits a.receiver v

/-- A computation only drifts wherever an object is one of the class, and its values have a property. -/
def Calm {α : Type} (S : Scene) (fuel r : Nat) (L : LoadedClass) (x : Run α) (P : α → Prop) : Prop :=
  ∀ m, S.At r L m → S.Clear m → Ends x m fun v m' => S.Drift fuel m m' ∧ P v

theorem At.drift (hat : S.At r L m) {m' : Machine} (h : S.Drift fuel m m') : S.At r L m' := hat.of_images h.quiet.images

section

variable {α β : Type} {P : α → Prop} {Q : β → Prop}

theorem Calm.imp {x : Run α} {P' : α → Prop} (hx : S.Calm fuel r L x P) (h : ∀ v, P v → P' v) : S.Calm fuel r L x P' :=
  fun m hat hclear => (hx m hat hclear).imp fun v _ hv => ⟨hv.1, h v hv.2⟩

theorem calm_pure {v : α} (h : P v) : S.Calm fuel r L (pure v) P := fun m _ _ => ends_pure ⟨.refl m, h⟩

theorem calm_fail {e : RuntimeError} : S.Calm fuel r L (fail e : Run α) P := fun _ _ _ => ends_throw

theorem Calm.bind {x : Run α} {f : α → Run β} (hx : S.Calm fuel r L x P) (hf : ∀ v, P v → S.Calm fuel r L (f v) Q) :
    S.Calm fuel r L (x >>= f) Q := by
  intro m hat hclear
  refine (hx m hat hclear).bind fun v m₁ h₁ => ?_
  refine (hf v h₁.2 m₁ (hat.drift h₁.1) (h₁.1.clear hclear)).imp fun _ _ h₂ => ?_
  exact ⟨h₁.1.trans h₂.1, h₂.2⟩

/-- A computation that changes nothing is calm. -/
theorem calm_of_same {x : Run α} (h : ∀ m, S.Clear m → Ends x m fun v m' => m' = m ∧ P v) : S.Calm fuel r L x P := by
  intro m _ hclear
  refine (h m hclear).imp ?_
  rintro v _ ⟨rfl, hv⟩
  exact ⟨.refl _, hv⟩

theorem calm_ofOption {e : RuntimeError} {o : Option α} (h : ∀ v, o = some v → P v) :
    S.Calm fuel r L (ofOption e o) P :=
  calm_of_same fun _ _ => ends_ofOption.imp fun v _ hv => ⟨hv.1, h v hv.2⟩

theorem calm_ofExcept {x : Except RuntimeError α} (h : ∀ v, x = .ok v → P v) : S.Calm fuel r L (ofExcept x) P :=
  calm_of_same fun _ _ => ends_ofExcept.imp fun v _ hv => ⟨hv.1, h v hv.2⟩

/-- What a field of the receiver holds. -/
theorem calm_loadField {field : String} : S.Calm fuel r L (loadField r field) (S.Admits r) := by
  refine calm_of_same fun m hclear => ends_loadField.imp fun v _ hv => ⟨hv.1, fun hplain hr => ?_⟩
  exact hclear field v (hr ▸ hv.2) hplain rfl

theorem calm_truth (v : Value) : S.Calm fuel r L (truth v) fun _ => True := calm_ofOption fun _ _ => trivial

end

/-! ### Calls -/

/-- A call of a method that is harmless if the class has it. -/
theorem ends_invoke (he : S.Enters fuel enter) {refreshing : List Nat} {object : Nat} {name : String}
    {args : List Value} {K : LoadedClass} (hat : S.At object K m) (hclear : S.Clear m)
    (h : ∀ method, K.image.methods.find? name = some method →
      K.Harmless object method args ∧ ∀ v ∈ args, S.Admits object v) :
    Ends (invoke enter refreshing object name args) m fun v m' => S.Drift fuel m m' ∧ S.Admits object v := by
  refine ends_instance.bind ?_
  rintro i _ ⟨rfl, hi⟩
  dsimp only
  rw [hat.image_eq hi]
  split
  · rename_i method hfind
    exact he.drifts ⟨method, object, args, refreshing⟩ K _
      ⟨hat, Or.inl (h method hfind), S.tame.sized K hat.mem name method (Or.inl hfind)⟩ hclear
  · split
    · refine ends_log.bind ?_
      rintro _ _ rfl
      exact ends_pure ⟨.logged _ rfl, fun _ _ => rfl⟩
    · split <;> exact ends_throw

theorem calm_invoke (he : S.Enters fuel enter) {refreshing : List Nat} {name : String} {args : List Value}
    (h : ∀ method, L.image.methods.find? name = some method → L.Harmless r method args)
    (hargs : ∀ v ∈ args, S.Admits r v) : S.Calm fuel r L (invoke enter refreshing r name args) (S.Admits r) :=
  fun _ hat hclear => ends_invoke he hat hclear fun method hfind => ⟨h method hfind, hargs⟩

/-- A call of a method that no class has instructions for. -/
theorem calm_invoke_of_lacks (he : S.Enters fuel enter) {refreshing : List Nat} {object : Nat} {name : String}
    {args : List Value} (hnear : S.plain → object = S.object) (h : ∀ K ∈ S.classes, K.Lacks name) :
    S.Calm fuel r L (invoke enter refreshing object name args) (S.Admits object) := by
  intro m hat hclear
  cases hi : m.objects[object]? with
  | none =>
    refine ends_instance.bind ?_
    rintro i _ ⟨rfl, hi'⟩
    rw [hi] at hi'
    cases hi'
  | some i =>
    obtain ⟨K, hK, -⟩ := hat.holds.exists_at hnear hi
    refine ends_invoke he hK hclear fun method hfind => ?_
    rw [h K hK.mem] at hfind
    cases hfind

theorem calm_read (he : S.Enters fuel enter) (refreshing : List Nat) {object : Nat}
    (hnear : S.plain → object = S.object) (property : String) :
    S.Calm fuel r L (read enter refreshing object property) (S.Admits object) := by
  intro m hat hclear
  refine ends_accessor.bind ?_
  rintro getter _ ⟨rfl, i, p, hi, hp, hgetter⟩
  obtain ⟨K, hK, himage⟩ := hat.holds.exists_at hnear hi
  exact ends_invoke he hK hclear fun method hfind => ⟨hK.loads.harmless_getter (himage ▸ hp) hgetter hfind, nofun⟩

/-- What is read of a value that the receiver may have. -/
theorem calm_readOf (he : S.Enters fuel enter) (refreshing : List Nat) (name : String) {v : Value} (hv : S.Admits r v) :
    S.Calm fuel r L (readOf enter refreshing name v) (S.Admits r) := by
  cases v with
  | object id =>
    intro m hat
    have hnear : S.plain → id = S.object := fun hplain => nomatch hv hplain (hat.near hplain)
    refine (calm_read he refreshing hnear name).imp (fun _ _ hplain hr => ?_) m hat
    cases hv hplain hr
  | string s => exact calm_ofExcept fun _ h _ _ => Value.isObject_stringMember h
  | _ => exact calm_fail

/-- What is called on a value that the receiver may have, no class having instructions for it. -/
theorem calm_callOn (he : S.Enters fuel enter) (refreshing : List Nat) {name : String} (args : List Value) {v : Value}
    (hv : S.Admits r v) (h : ∀ K ∈ S.classes, K.Lacks name) :
    S.Calm fuel r L (callOn enter refreshing name args v) (S.Admits r) := by
  cases v with
  | object id =>
    intro m hat
    have hnear : S.plain → id = S.object := fun hplain => nomatch hv hplain (hat.near hplain)
    refine (calm_invoke_of_lacks he hnear h).imp (fun _ _ hplain hr => ?_) m hat
    cases hv hplain hr
  | string s => exact calm_ofExcept fun _ h _ _ => Value.isObject_stringMember h
  | _ => exact calm_fail

/-- A call on the instance of a method that its class has no instructions for. -/
theorem calm_callOn_self (he : S.Enters fuel enter) (refreshing : List Nat) {name : String} (args : List Value)
    (h : L.Lacks name) : S.Calm fuel r L (callOn enter refreshing name args (.object r)) (S.Admits r) := by
  intro m hat hclear
  refine ends_invoke he hat hclear fun method hfind => ?_
  rw [h] at hfind
  cases hfind

theorem calm_applyStatic (he : S.Enters fuel enter) (refreshing : List Nat) (function : String) :
    S.Calm fuel r L (applyStatic enter refreshing r function) (S.Admits r) := by
  intro m hat hclear
  refine ends_instance.bind ?_
  rintro i _ ⟨rfl, hi⟩
  refine ends_ofOption.bind ?_
  rintro f _ ⟨rfl, hf⟩
  rw [hat.image_eq hi] at hf
  exact he.drifts ⟨f, r, [.object r], refreshing⟩ L _
    ⟨hat, Or.inr (hat.loads.hoisted_function hf), S.tame.sized L hat.mem function f (Or.inr hf)⟩ hclear

/-! ### Commands and hooks -/

theorem calm_enablement (he : S.Enters fuel enter) (refreshing : List Nat) {object : Nat}
    (hnear : S.plain → object = S.object) (property : String) :
    S.Calm fuel r L (enablement enter refreshing object property) fun _ => True :=
  (calm_read he refreshing hnear property).bind fun _ _ => calm_ofOption fun _ _ => trivial

/-- The commands are evaluated that a property of the object enables. -/
theorem ends_refreshAll (he : S.Enters fuel enter) (property : String) (ids : List Nat) {m : Machine} (hlive : S.Live m) :
    Ends (refreshAll enter [] S.object property ids) m fun _ m' => S.Evaluated fuel property ids m m' := by
  obtain ⟨depth, rfl⟩ := he.known
  induction ids generalizing m with
  | nil => exact ends_pure (.nil m)
  | cons id rest ih =>
    rw [refreshAll, if_neg (by simp)]
    have henable : Ends (enablement (enter fuel depth) [id] S.object property) m fun enabled m' =>
        enablement (enter fuel depth) [id] S.object property m = .ok enabled m' ∧ S.Drift fuel m m' := by
      intro enabled m' hrun
      exact ⟨hrun, (calm_enablement he [id] (fun _ => rfl) property m hlive.located hlive.clear enabled m' hrun).1⟩
    refine henable.bind fun enabled m₁ h₁ => ?_
    have hset : Ends (setEnabled id enabled) m₁ fun _ m' => setEnabled id enabled m₁ = .ok () m' := fun _ _ h => h
    refine hset.bind fun _ m₂ h₂ => ?_
    have hlive₂ : S.Live m₂ := (hlive.drift h₁.2).of_objects (ends_setEnabled _ _ h₂).1
    exact (ih hlive₂).imp fun _ _ h₃ => .cons h₁.1 h₁.2 h₂ h₃

/-- The change of a property of the object is announced. -/
theorem ends_raiseChanged (he : S.Enters fuel enter) (hlive : S.Live m) (property : String) :
    Ends (raiseChanged enter [] S.object property) m fun _ m' => S.Raised fuel property m m' := by
  refine ends_log.bind ?_
  rintro _ _ rfl
  refine ends_get.bind ?_
  rintro _ _ ⟨rfl, rfl⟩
  exact ends_refreshAll he property _ (hlive.logged _)

/-- A change hook that the class implements is a harmless method. -/
theorem calm_callHook (he : S.Enters fuel enter) {model : ClassModel} (hmodel : L.model = some model)
    (refreshing : List Nat) {property hook : String}
    (hhook : hook ∈ [Naming.changingHook property, Naming.changedHook property])
    (himpl : L.declaration.implements hook = true) {args : List Value} (hargs : ∀ v ∈ args, S.Admits r v) :
    S.Calm fuel r L (callHook enter refreshing r hook args) fun _ => True := by
  have hlog : S.Calm fuel r L (log (.hook r hook args)) fun _ => True := by
    intro m _ _
    refine ends_log.imp ?_
    rintro _ _ rfl
    exact ⟨.logged m rfl, trivial⟩
  have hinstance : S.Calm fuel r L (instance_ r) fun _ => True :=
    calm_of_same fun m _ => ends_instance.imp fun _ _ h => ⟨h.1, trivial⟩
  refine hlog.bind fun _ _ => hinstance.bind fun i _ => ?_
  split
  · intro m hat hclear
    have hinvoke : S.Calm fuel r L (invoke enter refreshing r hook args) (S.Admits r) :=
      calm_invoke he (fun method hfind => hat.loads.harmless_hook hmodel hhook himpl hfind args) hargs
    exact Ends.discard ((hinvoke m hat hclear).imp fun _ _ h => ⟨h.1, trivial⟩)
  · exact calm_pure trivial

/-! ### Expressions -/

variable {a : Activation} {scope : Scope} {index : String → Option Nat}

/-- What names stand for in an activation: a parameter of a scope without an instance is the receiver, another one is a
value that the receiver may have. -/
structure Sees (S : Scene) (scope : Scope) (index : String → Option Nat) (a : Activation) : Prop where
  params : ∀ n, (index n).isNone = (scope.param? n).isNone
  instances : scope.hasThis = false → ∀ n i, index n = some i → a.args[i]? = some (.object a.receiver)
  admitted : scope.hasThis = true → ∀ n i v, index n = some i → a.args[i]? = some v → S.Admits a.receiver v

theorem Sees.hostName_eq (h : S.Sees scope index a) (e : Expr) : hostName index e = scope.host? e := by
  cases e with
  | name n s => rw [hostName, Scope.host?, h.params]
  | _ => rfl

theorem Sees.mem_params (h : S.Sees scope index a) {n : String} : n ∈ scope.params ↔ (index n).isSome = true := by
  rw [← Option.not_isNone, h.params, Scope.param?, Option.isNone_map, Option.not_isNone, List.isSome_idxOf?]

/-- The value of the instance is the receiver. -/
theorem evaluate_instance (h : S.Sees scope index a) {e : Expr} (hself : scope.isInstance e = true) :
    evaluate enter a index e = pure (.object a.receiver) := by
  cases e with
  | this s => rw [evaluate]
  | name n s =>
    obtain ⟨hthis, hmem⟩ : scope.hasThis = false ∧ n ∈ scope.params := by
      simpa [Scope.isInstance] using hself
    obtain ⟨i, hi⟩ := Option.isSome_iff_exists.mp (h.mem_params.mp hmem)
    rw [evaluate, nameValue, hi]
    show ofOption _ a.args[i]? = _
    rw [h.instances hthis n i hi]
    rfl
  | _ => cases hself

/-- The value of the expression is not the instance, if the scene leaves objects out. -/
def Guards (S : Scene) (a : Activation) (scope : Scope) (e : Expr) : Prop :=
  S.plain → a.receiver = S.object → e.withholds scope = true

theorem calm_nameValue (hsees : S.Sees scope index a) (he : S.Enters fuel enter) {n : String} {s : Span}
    (hguards : S.Guards a scope (.name n s)) :
    S.Calm fuel a.receiver L (nameValue enter a index n) (S.Admits a.receiver) := by
  unfold nameValue
  split
  · rename_i i hi
    refine calm_ofOption fun v hv hplain hr => ?_
    cases hthis : scope.hasThis with
    | true => exact hsees.admitted hthis n i v hi hv hplain hr
    | false =>
      have hmem : n ∈ scope.params := hsees.mem_params.mpr (by rw [hi]; rfl)
      have hhidden := hguards hplain hr
      simp [Expr.withholds, Scope.isInstance, hthis, hmem] at hhidden
  · split
    · exact calm_fail
    · exact fun m hat => calm_read he a.refreshing hat.near n m hat

mutual

/-- An expression is calm whose calls are of methods without instructions. -/
theorem calm_evaluate (hsees : S.Sees scope index a) (he : S.Enters fuel enter) : ∀ e : Expr,
    e.CallsOnly scope L.Lacks (fun n => ∀ K ∈ S.classes, K.Lacks n) → S.Guards a scope e →
      S.Calm fuel a.receiver L (evaluate enter a index e) (S.Admits a.receiver)
  | .literal v _, _, _ => by
    rw [evaluate]
    exact calm_pure fun _ _ => v.isObject_value
  | .name n _, _, hguards => by
    rw [evaluate]
    exact calm_nameValue hsees he hguards
  | .this _, _, hguards => by
    rw [evaluate]
    refine calm_pure fun hplain hr => ?_
    cases hguards hplain hr
  | .member object n _, h, hguards => by
    rw [Expr.CallsOnly] at h
    cases hhost : hostName index object with
    | some host =>
      rw [evaluate_host hhost]
      exact calm_ofExcept fun _ hw _ _ => Value.isObject_callHost (by simp) hw
    | none =>
      rw [evaluate_member hhost]
      by_cases hself : scope.isInstance object = true
      · intro m hat hclear
        rw [evaluate_instance hsees hself, pure_bind]
        exact calm_read he a.refreshing hat.near n m hat hclear
      · refine (calm_evaluate hsees he object h fun hplain hr => ?_).bind fun v hv => calm_readOf he a.refreshing n hv
        simpa [Expr.withholds, hself] using hguards hplain hr
  | .call callee args _, h, hguards => by
    rw [Expr.CallsOnly] at h
    rw [evaluate]
    have hparts (hplain : S.plain) (hr : a.receiver = S.object) :
        callee.calleeWithholds scope = true ∧ Expr.allWithhold scope args = true := by
      simpa [Expr.withholds] using hguards hplain hr
    intro m hat hclear
    refine (ends_target hsees he callee h.1 (fun hplain hr => (hparts hplain hr).1) hat hclear).bind
      fun call m₁ h₁ => ?_
    have hall := calm_evaluateAll hsees he args h.2 fun hplain hr => (hparts hplain hr).2
    refine ((hall.bind h₁.2) m₁ (hat.drift h₁.1) (h₁.1.clear hclear)).imp fun _ _ h₂ => ?_
    exact ⟨h₁.1.trans h₂.1, h₂.2⟩
  | .unary op e _, h, hguards => by
    rw [Expr.CallsOnly] at h
    rw [evaluate]
    exact (calm_evaluate hsees he e h hguards).bind fun _ _ => calm_ofExcept fun _ hw _ _ => Value.isObject_unary hw
  | .binary op l r' _, h, hguards => by
    rw [Expr.CallsOnly] at h
    have hparts (hplain : S.plain) (hr : a.receiver = S.object) : l.withholds scope = true ∧ r'.withholds scope = true := by
      simpa [Expr.withholds] using hguards hplain hr
    have hl := calm_evaluate hsees he l h.1 fun hplain hr => (hparts hplain hr).1
    have hr := calm_evaluate hsees he r' h.2 fun hplain hr => (hparts hplain hr).2
    cases hop : StrictOp.ofBinary? op with
    | some strict =>
      rw [evaluate_strict hop]
      exact hl.bind fun _ _ => hr.bind fun _ _ => calm_ofExcept fun _ hw _ _ => Value.isObject_binary hw
    | none =>
      cases op <;> try cases hop
      · rw [evaluate]
        refine hl.bind fun v _ => (calm_truth v).bind fun c _ => ?_
        cases c <;> first | exact hr | exact calm_pure fun _ _ => rfl
      · rw [evaluate]
        refine hl.bind fun v _ => (calm_truth v).bind fun c _ => ?_
        cases c <;> first | exact hr | exact calm_pure fun _ _ => rfl
      · rw [evaluate]
        refine hl.bind fun v hv => ?_
        split
        · exact hr
        · exact calm_pure hv
  | .conditional c t e _, h, hguards => by
    rw [Expr.CallsOnly] at h
    rw [evaluate]
    have hparts (hplain : S.plain) (hr : a.receiver = S.object) :
        c.withholds scope = true ∧ t.withholds scope = true ∧ e.withholds scope = true := by
      simpa [Expr.withholds] using hguards hplain hr
    refine (calm_evaluate hsees he c h.1 fun hplain hr => (hparts hplain hr).1).bind fun v _ =>
      (calm_truth v).bind fun d _ => ?_
    have ht := calm_evaluate hsees he t h.2.1 fun hplain hr => (hparts hplain hr).2.1
    have hf := calm_evaluate hsees he e h.2.2 fun hplain hr => (hparts hplain hr).2.2
    cases d <;> assumption
  | .lambda _ _ _ _, _, _ => by
    rw [evaluate]
    exact calm_fail

/-- What a call calls is found by drifting, and calm whatever the arguments are that the receiver may have. -/
theorem ends_target (hsees : S.Sees scope index a) (he : S.Enters fuel enter) : ∀ (e : Expr) {m : Machine},
    e.CalleeOnly scope L.Lacks (fun n => ∀ K ∈ S.classes, K.Lacks n) →
      (S.plain → a.receiver = S.object → e.calleeWithholds scope = true) → S.At a.receiver L m → S.Clear m →
        Ends (target enter a index e) m fun call m' => S.Drift fuel m m' ∧
          ∀ args, (∀ v ∈ args, S.Admits a.receiver v) → S.Calm fuel a.receiver L (call args) (S.Admits a.receiver)
  | .name n s, m, h, _, _, _ => by
    rw [Expr.CalleeOnly] at h
    rw [target]
    split
    · exact ends_pure ⟨.refl m, fun args _ => calm_callOn_self he a.refreshing args h⟩
    · exact ends_throw
  | .member object n _, m, h, hguards, hat, hclear => by
    rw [Expr.CalleeOnly] at h
    obtain ⟨hobject, hcall⟩ := h
    rw [target]
    cases hhost : hostName index object with
    | some host =>
      refine ends_pure ⟨.refl m, fun args hargs => calm_ofExcept fun _ hw hplain hr => ?_⟩
      exact Value.isObject_callHost (fun v hv => hargs v hv hplain hr) hw
    | none =>
      dsimp only
      by_cases hself : scope.isInstance object = true
      · rw [if_pos hself] at hcall
        rw [evaluate_instance hsees hself, pure_bind]
        exact ends_pure ⟨.refl _, fun args _ => calm_callOn_self he a.refreshing args hcall⟩
      · rw [if_neg hself, ← hsees.hostName_eq, hhost] at hcall
        obtain hcall | hcall := hcall
        · cases hcall
        · have hvalue := calm_evaluate hsees he object hobject fun hplain hr => by
            simpa [Expr.calleeWithholds, hself] using hguards hplain hr
          refine (hvalue m hat hclear).bind fun v m₁ h₁ => ?_
          exact ends_pure ⟨h₁.1, fun args _ => calm_callOn he a.refreshing args h₁.2 hcall⟩
  | .literal .., _, _, _, _, _ | .this _, _, _, _, _, _ | .call .., _, _, _, _, _ | .unary .., _, _, _, _, _
  | .binary .., _, _, _, _, _ | .conditional .., _, _, _, _, _ | .lambda .., _, _, _, _, _ => by
    rw [target]
    · exact ends_throw
    all_goals nofun

theorem calm_evaluateAll (hsees : S.Sees scope index a) (he : S.Enters fuel enter) : ∀ es : List Expr,
    Expr.AllCallOnly scope L.Lacks (fun n => ∀ K ∈ S.classes, K.Lacks n) es →
      (S.plain → a.receiver = S.object → Expr.allWithhold scope es = true) →
        S.Calm fuel a.receiver L (evaluateAll enter a index es) fun vs => ∀ v ∈ vs, S.Admits a.receiver v
  | [], _, _ => by
    rw [evaluateAll]
    exact calm_pure nofun
  | e :: es, h, hguards => by
    rw [Expr.AllCallOnly] at h
    rw [evaluateAll]
    have hparts (hplain : S.plain) (hr : a.receiver = S.object) :
        e.withholds scope = true ∧ Expr.allWithhold scope es = true := by
      simpa [Expr.allWithhold] using hguards hplain hr
    refine (calm_evaluate hsees he e h.1 fun hplain hr => (hparts hplain hr).1).bind fun v hv => ?_
    refine (calm_evaluateAll hsees he es h.2 fun hplain hr => (hparts hplain hr).2).bind fun vs hvs => ?_
    refine calm_pure fun w hw => ?_
    obtain rfl | hw := List.mem_cons.mp hw
    · exact hv
    · exact hvs w hw

end

/-! ### Bodies -/

/-- A projection has no value itself. -/
theorem ends_evaluate_projection {e : Expr} {param : String} {projected : Expr}
    (h : e.staticProjection? = some (param, projected)) {P : Value → Machine → Prop} :
    Ends (evaluate enter a index e) m P := by
  unfold Expr.staticProjection? at h
  split at h
  · split at h
    · rename_i callee p body s s' hprojector
      obtain ⟨object, s₁, rfl⟩ : ∃ object s₁, callee = .member object "To" s₁ := by
        cases callee <;> simp [Expr.isProjector] at hprojector
        exact ⟨_, _, by rw [hprojector.1]⟩
      rw [evaluate]
      refine Ends.bind (P := fun _ _ => True) (fun _ _ _ => trivial) fun call m₁ _ => ?_
      simp only [evaluateAll, evaluate]
      exact ends_throw.bind (P := fun _ _ => False) fun _ _ h => h.elim
    · cases h
  · cases h

/-- The value of a declared body. -/
theorem calm_body (hL : L ∈ S.classes) (he : S.Enters fuel enter) {name : String} {params : List String} {body : Expr}
    (hbody : L.declaration.HasBody name params body) (hsees : S.Sees (.ofInstance params) index a)
    (hguards : body.staticProjection? = none → S.Guards a (.ofInstance params) body) :
    S.Calm fuel a.receiver L (evaluate enter a index body) (S.Admits a.receiver) := by
  cases hprojection : body.staticProjection? with
  | none =>
    exact calm_evaluate hsees he body (S.tame.bodies L hL name params body hbody hprojection) (hguards hprojection)
  | some projection => exact fun m _ _ => ends_evaluate_projection hprojection

/-- The value of what an observable helper in a declared body is built from. -/
theorem calm_helper (hL : L ∈ S.classes) (he : S.Enters fuel enter) {name : String} {params : List String} {body : Expr}
    (hbody : L.declaration.HasBody name params body) (hsees : S.Sees (.ofInstance params) index a)
    (hguards : S.Guards a (.ofInstance params) body.helper) :
    S.Calm fuel a.receiver L (evaluate enter a index body.helper) (S.Admits a.receiver) := by
  cases hprojection : body.staticProjection? with
  | none => exact calm_evaluate hsees he body.helper (S.tame.bodies L hL name params body hbody hprojection).helper hguards
  | some projection =>
    have hhelper : body.helper = body := by
      unfold Expr.helper
      split
      · cases hprojection
      · rfl
    rw [hhelper]
    exact fun m _ _ => ends_evaluate_projection hprojection

theorem sees_ofInstance {params : List String} (hargs : ∀ v ∈ a.args, S.Admits a.receiver v) :
    S.Sees (.ofInstance params) (Scope.ofInstance params).index a :=
  ⟨fun _ => Option.isNone_map, nofun, fun _ _ _ v _ hv => hargs v (List.mem_of_getElem? hv)⟩

theorem sees_nil : S.Sees (.ofInstance []) ([] : List String).idxOf? a := ⟨fun _ => rfl, nofun, nofun⟩

/-- What a derived value is computed from. -/
theorem calm_operandValue (hL : L ∈ S.classes) (hown : a.receiver = S.object → L = S.own) (he : S.Enters fuel enter)
    {model : ClassModel} (hmodel : L.model = some model) {d : DerivedProperty} (hd : d ∈ model.derived) {value : Operand}
    (hvalue : model.operand? d = some value) :
    S.Calm fuel a.receiver L (operandValue enter a [] value) (S.Admits a.receiver) := by
  obtain ⟨-, hanalyzed⟩ := (S.tame.loads L hL).generated hmodel
  obtain ⟨recompute, hrecompute, hoperand⟩ := Option.map_eq_some_iff.mp hvalue
  have hguards {body : Expr} (heq : recompute = .inline body) : S.Guards a (.ofInstance []) body := by
    intro hplain hr
    obtain rfl := hown hr
    have hown := S.generated
    rw [hmodel] at hown
    cases hown
    exact (S.withholds hplain).values d hd body (heq ▸ hrecompute)
  cases hwritten : (hanalyzed.derived d hd).written _ hrecompute with
  | getter declared flat =>
    cases hoperand
    exact calm_body hL he (.getter declared) sees_nil fun _ => hguards rfl
  | helper declared =>
    cases hoperand
    exact calm_helper hL he (.getter declared) sees_nil (hguards rfl)
  | projection declared hoisted projects =>
    cases hoperand
    exact calm_applyStatic he a.refreshing _
  | method declared =>
    cases hoperand
    refine calm_invoke he (fun method hfind => ?_) nofun
    refine (S.tame.loads L hL).harmless_value hmodel hd hrecompute (fun heq => ?_) hfind
    exact S.tame.values L hL model hmodel d hd (heq ▸ hrecompute)

/-! ### Getters -/

variable {declares : String → Bool}

theorem interpretBody_ret (params : List String) (value : Operand) :
    interpretBody enter a declares params [.ret value] = operandValue enter a params value := by
  funext m
  simp only [interpretBody, interpretAll, interpret, bind_assoc, pure_bind, Flow.follow, bind_pure]

/-- Reading a lazy value that has not been computed computes it. -/
theorem calm_lazy (declares : String → Bool) (hL : L ∈ S.classes) (hown : a.receiver = S.object → L = S.own)
    (he : S.Enters fuel enter) {model : ClassModel} (hmodel : L.model = some model) {d : DerivedProperty}
    (hd : d ∈ model.derived) {value : Operand} (hvalue : model.operand? d = some value) {slot : DerivedSlot}
    (hslot : d.slot = some slot) {flag : String} (hflag : slot.flag = some flag) (names : Table Value) :
    S.Calm fuel a.receiver L (interpret enter a declares [] names
      (.ifUnset flag [.store slot.value value, .store flag (.bool true)])) fun flow => ∃ names, flow = .next names := by
  obtain ⟨depth, rfl⟩ := he.known
  intro m hat hclear
  simp only [interpret, interpretAll, operandValue, bind_assoc, pure_bind, Flow.follow]
  refine ends_loadField.bind ?_
  rintro v _ ⟨rfl, hset⟩
  refine ends_ofOption.bind ?_
  rintro c m ⟨rfl, hv⟩
  cases c with
  | true => exact ends_pure ⟨.refl _, _, rfl⟩
  | false =>
    obtain rfl : v = .bool false := by
      cases v <;> cases hv
      rfl
    have hcalm := calm_operandValue (a := a) hL hown he hmodel hd hvalue m hat hclear
    have hrun : Ends (operandValue (enter fuel depth) a [] value) m fun fresh m₁ =>
        operandValue (enter fuel depth) a [] value m = .ok fresh m₁ ∧ S.Drift fuel m m₁ ∧ S.Admits a.receiver fresh :=
      fun fresh m₁ h => ⟨h, hcalm fresh m₁ h⟩
    refine hrun.bind fun fresh m₁ h₁ => ?_
    refine ends_storeField.bind ?_
    rintro _ _ ⟨rfl, -⟩
    refine ends_storeField.bind ?_
    rintro _ _ ⟨rfl, -⟩
    exact ends_pure ⟨.computed hat hmodel hd hslot hflag hvalue hset rfl h₁.1 h₁.2.1 h₁.2.2, _, rfl⟩

theorem calm_helperValue (he : S.Enters fuel enter) (params : List String) (slot : String) (type : TypeRef) :
    S.Calm fuel a.receiver L (operandValue enter a params (.helperValue slot type)) (S.Admits a.receiver) := by
  refine Calm.bind calm_loadField fun v hv => ?_
  split
  · exact calm_pure fun _ _ => Value.isObject_defaultOf _
  · exact calm_readOf he a.refreshing "Value" hv

/-- The first read of a command creates it. -/
theorem calm_returnCommand (declares : String → Bool) (he : S.Enters fuel enter) {model : ClassModel}
    (hmodel : L.model = some model) {c : CommandModel} (hc : c ∈ model.commands) :
    S.Calm fuel a.receiver L (interpretBody enter a declares [] [.returnCommand c.slot c.factory]) (S.Admits a.receiver) := by
  obtain ⟨depth, rfl⟩ := he.known
  intro m hat hclear
  simp only [interpretBody, interpretAll, interpret, bind_assoc]
  refine ends_loadField.bind ?_
  rintro current m ⟨rfl, hcurrent⟩
  split
  · rename_i hnull
    subst hnull
    simp only [bind_assoc, pure_bind, Flow.follow]
    have hnew : Ends (newCommand (enter fuel depth) a.refreshing a.receiver c.factory.spec) m fun id m₂ =>
        ∃ enabled m₁, Gated fuel a.receiver m c.factory.enablement enabled m₁ ∧ S.Drift fuel m m₁ ∧
          id = m₁.commands.length ∧ m₂ = m₁.withCommand a.receiver c.factory.spec enabled := by
      have hadd {enabled : Bool} {m₁ : Machine} : Ends (addCommand a.receiver c.factory.spec enabled) m₁ fun id m₂ =>
          id = m₁.commands.length ∧ m₂ = m₁.withCommand a.receiver c.factory.spec enabled := by
        refine ends_get.bind ?_
        rintro _ m₁ ⟨rfl, rfl⟩
        rintro _ _ ⟨⟩
        exact ⟨rfl, rfl⟩
      unfold newCommand
      split
      · rename_i property hgate
        have hgated : c.factory.enablement = some property := hgate
        have hcalm := calm_enablement he a.refreshing hat.near property m hat hclear
        refine Ends.bind (P := fun enabled m₁ => Gated fuel a.receiver m c.factory.enablement enabled m₁ ∧
          S.Drift fuel m m₁) (fun enabled m₁ hrun => ?_) fun enabled m₁ h₁ => ?_
        · exact ⟨hgated ▸ .read hrun, (hcalm enabled m₁ hrun).1⟩
        · exact hadd.imp fun id m₂ h₂ => ⟨enabled, m₁, h₁.1, h₁.2, h₂⟩
      · rename_i hgate
        have hfree : c.factory.enablement = none := hgate
        exact hadd.imp fun id m₂ h₂ => ⟨true, m, hfree ▸ .free, .refl m, h₂⟩
    refine hnew.bind ?_
    rintro _ _ ⟨enabled, m₁, hgate, hdrift, rfl, rfl⟩
    refine ends_storeField.bind ?_
    rintro _ _ ⟨rfl, -⟩
    exact ends_pure ⟨.created hat hmodel hc hcurrent hgate hdrift, fun _ _ => rfl⟩
  · simp only [pure_bind, Flow.follow]
    refine ends_pure ⟨.refl _, fun hplain hr => ?_⟩
    exact hclear _ _ (hr ▸ hcurrent) hplain rfl

/-- A getter is calm. -/
theorem calm_getter (hL : L ∈ S.classes) (hown : a.receiver = S.object → L = S.own) (he : S.Enters fuel enter)
    {model : ClassModel} (hmodel : L.model = some model) {body : List Statement} (hbody : model.GetterBody body) :
    S.Calm fuel a.receiver L (interpretBody enter a declares [] body) (S.Admits a.receiver) := by
  cases hbody with
  | mutable p mem =>
    rw [interpretBody_ret]
    exact calm_loadField
  | derived d mem value computed =>
    unfold ClassModel.getterBody
    split
    · rw [interpretBody_ret]
      exact calm_operandValue hL hown he hmodel mem computed
    · rename_i slot hslot
      split
      · rw [interpretBody_ret]
        exact calm_helperValue he [] slot.value d.type
      · split
        · rename_i flag hcache hflag
          have hlazy := calm_lazy declares hL hown he hmodel mem computed hslot hflag []
          have hreturned : S.Calm fuel a.receiver L
              (interpretAll enter a declares [] [] ([.ifUnset flag [.store slot.value value, .store flag (.bool true)]] ++
                [.ret (.slot slot.value)])) fun flow => ∃ v, flow = .returned v ∧ S.Admits a.receiver v := by
            rw [List.singleton_append, interpretAll]
            refine hlazy.bind ?_
            rintro _ ⟨names, rfl⟩
            simp only [Flow.follow, interpretAll, interpret, operandValue, bind_assoc, pure_bind]
            exact calm_loadField.bind fun v hv => calm_pure ⟨v, rfl, hv⟩
          rw [interpretBody]
          refine hreturned.bind ?_
          rintro _ ⟨v, rfl, hv⟩
          exact calm_pure hv
        · rw [List.nil_append, interpretBody_ret]
          exact calm_loadField
  | command c mem => exact calm_returnCommand declares he hmodel mem

/-! ### Methods -/

/-- What a method does that simulates something is what that does. -/
theorem ends_body {x : Run Value} {fuel : Nat} {P : Value → Machine → Prop}
    (hsim : Simulates enter a (.start a.method) x .returned) (hx : Ends x m P) :
    Ends (body enter a fuel (.start a.method)) m P := by
  intro v m' h
  obtain heq | ⟨-, m₁, heq⟩ := body_or_exhausted hsim fuel m
  · exact hx v m' (heq ▸ h)
  · rw [heq] at h
    cases h

theorem localCountAll_getterBody {model : ClassModel} {body : List Statement} (h : model.GetterBody body) :
    Statement.localCountAll body = 0 := by
  cases h with
  | mutable p mem => rfl
  | derived d mem value computed =>
    unfold ClassModel.getterBody
    repeat' split
    all_goals rfl
  | command c mem => rfl

theorem simulates_fieldGetter {property field : String} {receiver : Nat} {args : List Value} {refreshing : List Nat} :
    Simulates enter ⟨ClassImage.fieldGetter property field, receiver, args, refreshing⟩
      (.start (ClassImage.fieldGetter property field)) (loadField receiver field) .returned := by
  refine Simulates.bind (y := pure) (Simulates.instruction (i := .loadField field) rfl
    (step_loadField _ _ _ _ _ _) fun _ => Nat.lt_succ_self _) ?_ nofun |> fun h => by rwa [bind_pure] at h
  rintro v f' - ⟨⟩
  exact .return_ rfl rfl v rfl

/-- Names in a hoisted function. -/
theorem sees_detached {param : String} (h : a.args = [.object a.receiver]) :
    S.Sees (.detached [param]) (Scope.detached [param]).index a := by
  refine ⟨fun _ => Option.isNone_map, fun _ n i hi => ?_, nofun⟩
  obtain ⟨j, hj, rfl⟩ := Option.map_eq_some_iff.mp hi
  obtain ⟨k, hk, rfl⟩ := Option.map_eq_some_iff.mp hj
  obtain rfl : k = 0 := by
    have hlt := (List.idxOf?_eq_some_iff.mp hk).1
    exact Nat.lt_one_iff.mp hlt
  rw [h]
  rfl

/-- With one more call open, harmless methods still only drift. -/
theorem Enters.body (he : S.Enters fuel enter) :
    ∀ a L m, S.Ready a L m → S.Clear m → Ends (Run.body enter a fuel (.start a.method)) m
      fun v m' => S.Drift fuel m m' ∧ S.Admits a.receiver v := by
  rintro ⟨method, receiver, args, refreshing⟩ L m ⟨hat, hharmless, hsized⟩ hclear
  obtain ⟨hharmless, hargs⟩ | ⟨happlied, model, f, generated, hoisted, compiled⟩ := hharmless
  · replace hharmless : L.Harmless receiver method args := hharmless
    cases hharmless with
    | @body name params body _ args declared compiled =>
      refine ends_body (simulates_ofBody compiled hsized) (calm_body hat.mem he declared (sees_ofInstance hargs) ?_ m hat hclear)
      intro hflat hplain hr
      obtain rfl := hat.own hr
      exact (S.withholds hplain).bodies name params body declared hflat
    | autoGetter property args => exact ends_body simulates_fieldGetter (calm_loadField m hat hclear)
    | autoSetter property =>
      intro v m' h
      -- Without an argument the first instruction fails.
      cases fuel with
      | zero => cases h
      | succ fuel => cases h
    | getter args generated method getter params compiled =>
      have hlocals := localCountAll_getterBody getter
      have hsim := (compiled.realizes method hsized (by rw [hlocals]; decide)).simulates enter receiver args refreshing
      rw [params] at hsim
      exact ends_body hsim (calm_getter hat.mem hat.own he generated getter m hat hclear)
    | setter generated mem compiled =>
      have hsim := (compiled.realizes (.mutableSetter _ mem) hsized
        (show 0 < UInt16.size by decide)).simulates enter receiver [] refreshing
      refine ends_body hsim ?_
      intro v m' h
      cases h
  · replace happlied : args = [.object receiver] := happlied
    subst happlied
    refine ends_body (simulates_ofBody compiled hsized) ?_
    obtain ⟨name, body, hgetter, hprojects⟩ := ((hat.loads.generated generated).2).statics _ hoisted
    have hcalls := S.tame.projections L hat.mem _ _ _ (.getter hgetter) _ _ hprojects
    refine calm_evaluate (a := ⟨method, receiver, [.object receiver], refreshing⟩) (sees_detached rfl) he _ hcalls
      (fun hplain hr => ?_) m hat hclear
    obtain ⟨rfl, rfl⟩ := hat.own_model hr generated
    exact (S.withholds hplain).functions f hoisted

/-- Harmless methods only drift. -/
theorem enters (S : Scene) (fuel : Nat) : ∀ depth : Nat, S.Enters fuel (Run.enter fuel depth)
  | 0 => ⟨⟨0, rfl⟩, fun _ _ _ _ _ => ends_throw⟩
  | depth + 1 => ⟨⟨depth + 1, rfl⟩, (S.enters fuel depth).body⟩

end Reactive.Scene
