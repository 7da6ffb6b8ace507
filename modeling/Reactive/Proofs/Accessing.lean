import Reactive.Proofs.Tracking

/-!
# Reactive.Proofs.Accessing — what getters give

* `Setting.follows_operand`: a derived value is computed from the values of members.
* `Setting.follows_reactive`, `Setting.follows_derived`: what is read of a reactive property and of a derived value.
* `Setting.reliable`: with enough open calls and instructions reading them gives their values, and fails if there are none.
  By induction on what a value is computed from.
-/

namespace Reactive

open Stateful Run

namespace Setting

variable {T : Setting} {lax : Prop} {C : PropertyId → Prop} {ρ : Reading} {m m' : Machine} {fuel k : Nat} {a : Activation}
  {N : String → Prop}

/-! ### Methods -/

/-- A method that simulates a computation does what that does, if there are enough open calls and instructions. -/
theorem follows_enter (hk : lax ∨ 1 ≤ k ∧ UInt64.size ≤ fuel) (hsized : a.method.code.length < UInt64.size)
    {o : Option Value} (h : ∀ j, k = j + 1 → ∃ x, Simulates (enter fuel j) a (.start a.method) x .returned ∧
      T.Follows lax C ρ x o Shows) : T.Follows lax C ρ (enter fuel k a) o Shows := by
  cases k with
  | zero => exact fun m _ _ => Or.inl (hk.resolve_right fun hsome => absurd hsome.1 (by decide))
  | succ j =>
    obtain ⟨x, hsim, hx⟩ := h j rfl
    intro m hlive hρ
    have hm := hx m hlive hρ
    unfold Gives at hm ⊢
    obtain heq | ⟨hle, m₁, heq⟩ := body_or_exhausted hsim fuel m
    · rw [show enter fuel (j + 1) a m = x m from heq]
      cases hrun : x m with
      | error e m' =>
        rw [hrun] at hm
        exact hm
      | ok v m' =>
        rw [hrun] at hm
        obtain ⟨hgiven, htracked, hrepeats⟩ := hm
        refine ⟨hgiven, htracked, fun n hn => ?_⟩
        obtain heq' | ⟨-, n', heq'⟩ := body_or_exhausted hsim fuel n
        · rw [show enter fuel (j + 1) a n = x n from heq']
          exact hrepeats n hn
        · rw [show enter fuel (j + 1) a n = .error .exhausted n' from heq']
    · rw [show enter fuel (j + 1) a m = .error .exhausted m₁ from heq]
      refine Or.inl (hk.resolve_right fun hsome => ?_)
      have hsize := hsome.2
      omega

theorem faces_nil (h : a.receiver = T.object) : T.Faces (.ofInstance []) ([] : List String).idxOf? a :=
  ⟨h, Scene.sees_nil, fun _ _ _ hi => nomatch hi⟩

theorem faces_ofInstance (params : List String) (h : a.receiver = T.object) (hargs : a.args = []) :
    T.Faces (.ofInstance params) (Scope.ofInstance params).index a := by
  refine ⟨h, Scene.sees_ofInstance fun v hv => ?_, fun _ n i _ => by rw [hargs]; rfl⟩
  rw [hargs] at hv
  cases hv

theorem faces_detached {param : String} (h : a.receiver = T.object) (hargs : a.args = [.object a.receiver]) :
    T.Faces (.detached [param]) (Scope.detached [param]).index a := ⟨h, Scene.sees_detached hargs, nofun⟩

theorem follows_projection {enter : Enter} {scope : Scope} {index : String → Option Nat} {e : Expr} {param : String}
    {projected : Expr} (h : e.staticProjection? = some (param, projected)) :
    T.Follows lax C ρ (evaluate enter a index e) (e.denote scope T.own.image.externs ρ) Shows := by
  rw [Expr.denote_projection h]
  intro m _ _
  have hnever : Ends (evaluate enter a index e) m fun _ _ => False := Scene.ends_evaluate_projection h
  unfold Gives
  cases hrun : evaluate enter a index e m with
  | ok v m' => exact (hnever v m' hrun).elim
  | error e m' => exact Or.inr rfl

/-- A declared body gives the value that it denotes. -/
theorem follows_body {enter : Enter} {index : String → Option Nat} {name : String} {params : List String} {body : Expr}
    (hbody : T.own.declaration.HasBody name params body) (hf : T.Faces (.ofInstance params) index a)
    (hr : T.Reliable lax C ρ enter N) (hN : ∀ n ∈ body.readNames (.ofInstance params), N n) :
    T.Follows lax C ρ (evaluate enter a index body) (body.denote (.ofInstance params) T.own.image.externs ρ) Shows := by
  cases hprojection : body.staticProjection? with
  | some projection => exact follows_projection hprojection
  | none =>
    exact follows_evaluate hf hr body (T.tame.bodies _ T.mem name params body hbody hprojection)
      ((T.withholds T.leaves).bodies name params body hbody hprojection) hN

/-- A method that is declared, if it has instructions, gives the value of its formula. -/
theorem follows_method (hk : lax ∨ 1 ≤ k ∧ UInt64.size ≤ fuel)
    (hr : ∀ j, k = j + 1 → T.Reliable lax C ρ (enter fuel j) N) {name : String}
    (hdeclared : ∀ method, T.own.image.methods.find? name = some method → ∃ params body,
      T.own.declaration.HasBody name params body ∧ CompiledMethod.ofBody name (.ofInstance params) body = .ok method)
    (hN : ∀ φ, T.own.methodFormula? name = some φ → ∀ n ∈ φ.readNames, N n) (refreshing : List Nat) :
    T.Follows lax C ρ (invoke (enter fuel k) refreshing T.object name [])
      ((T.own.methodFormula? name).bind fun φ => φ.value T.own.image.externs ρ) Shows := by
  refine follows_image (fun i himage => by dsimp only; rw [himage]) ?_
  cases hfind : T.own.image.methods.find? name with
  | none =>
    rw [LoadedClass.methodFormula?, hfind]
    dsimp only
    split
    · exact (follows_log rfl).seq fun _ _ => follows_pure ⟨rfl, rfl⟩
    · split <;> exact follows_fail
  | some method =>
    obtain ⟨params, body, hbody, hcompiled⟩ := hdeclared method hfind
    have hφ : T.own.methodFormula? name = some (.code (.ofInstance params) body) := by
      rw [LoadedClass.methodFormula?, hfind]
      dsimp only
      rw [T.distinct.body?_of_hasBody hbody]
      rfl
    have hsized := T.tame.sized _ T.mem name method (Or.inl hfind)
    rw [hφ]
    refine follows_enter hk hsized fun j hj => ⟨_, simulates_ofBody hcompiled hsized, ?_⟩
    exact follows_body hbody (faces_ofInstance params rfl rfl) (hr j hj) (hN _ hφ)

/-! ### What derived values are computed from -/

/-- A declared method that has not the name of the init method is as it is declared. -/
theorem hasBody_of_declared {name : String} (hdeclared : T.own.declaration.HasMethod name) (hinit : name ≠ T.model.initMethod)
    {method : CompiledMethod} (hfind : T.own.image.methods.find? name = some method) : ∃ params body,
      T.own.declaration.HasBody name params body ∧ CompiledMethod.ofBody name (.ofInstance params) body = .ok method := by
  obtain ⟨hgen, hanalyzed⟩ := T.own_generated
  obtain ⟨member, hmem, hname, decl, hkind⟩ := hdeclared
  have hnames : name ∈ T.own.declaration.names := hname ▸ List.mem_map_of_mem hmem
  have hapart := T.distinct.methods member hmem decl hkind
  rw [hname] at hapart
  obtain ⟨hm, ⟨signature, body, hmethod, hsignature, -⟩ | ⟨hdefines, -⟩⟩ := hgen.methods _ _ hfind
  · exfalso
    cases hmethod with
    | raiseAndSet p mem =>
      obtain rfl : Naming.raiseAndSet p.name = name := hsignature
      exact (hanalyzed.mutable p mem).own hnames
    | mutableGetter p mem => exact (hapart p.name).1 hsignature.symm
    | mutableSetter p mem => exact (hapart p.name).2 hsignature.symm
    | derivedGetter e mem => exact (hapart e.name).1 hsignature.symm
    | recompute e mem slot hslot _ _ hown =>
      obtain rfl : Naming.recompute e.name = name := hsignature
      refine (hanalyzed.derived e mem).own hown ?_ hnames
      by_contra hcached
      rw [(hanalyzed.derived e mem).uncached (by simpa using hcached)] at hslot
      cases hslot
    | commandGetter c mem => exact (hapart c.property).1 hsignature.symm
    | init => exact hinit hsignature.symm
  · cases hdefines with
    | @body name' params body _ declared compiled =>
      obtain rfl : name' = name := (name_ofBody compiled).symm.trans hm
      exact ⟨params, body, declared, compiled⟩
    | autoGetter property => exact absurd hm.symm (hapart property).1
    | autoSetter property => exact absurd hm.symm (hapart property).2

/-- The method of a derived value is declared. -/
theorem hasBody_of_method {d : DerivedProperty} (hd : d ∈ T.model.derived) {name : String}
    (hrecompute : d.recompute = some (.method name)) {method : CompiledMethod}
    (hfind : T.own.image.methods.find? name = some method) : ∃ params body,
      T.own.declaration.HasBody name params body ∧ CompiledMethod.ofBody name (.ofInstance params) body = .ok method := by
  have hdeclared : T.own.declaration.HasMethod name := by
    cases (T.own_generated.2.derived d hd).written _ hrecompute with
    | method declared => exact declared
  refine hasBody_of_declared hdeclared (fun heq => ?_) hfind
  exact T.tame.values _ T.mem _ T.generated d hd (heq ▸ hrecompute)

/-- What a derived value is computed from gives what it would be. -/
theorem follows_operand (hk : lax ∨ 1 ≤ k ∧ UInt64.size ≤ fuel)
    (hr : ∀ j, j ≤ k → k ≤ j + 1 → T.Reliable lax C ρ (enter fuel j) N) {d : DerivedProperty} (hd : d ∈ T.model.derived)
    (hN : ∀ φ, T.own.formula? T.model d = some φ → ∀ n ∈ φ.readNames, N n) {value : Operand}
    (hvalue : T.model.operand? d = some value) (ha : a.receiver = T.object) :
    T.Follows lax C ρ (operandValue (enter fuel k) a [] value) (T.result ρ d) Shows := by
  obtain ⟨hgen, hanalyzed⟩ := T.own_generated
  obtain ⟨recompute, hrecompute, hoperand⟩ := Option.map_eq_some_iff.mp hvalue
  have hformula : T.own.formula? T.model d = T.own.recomputeFormula? T.model recompute :=
    LoadedClass.formula?_of_some hrecompute
  have hdirect := hr k (Nat.le_refl k) (Nat.le_succ k)
  rw [result, hformula]
  cases hwritten : (hanalyzed.derived d hd).written _ hrecompute with
  | getter declared flat =>
    cases hoperand
    exact follows_body (.getter declared) (faces_nil ha) hdirect (hN _ hformula)
  | @helper name body declared =>
    cases hoperand
    cases hprojection : body.staticProjection? with
    | some projection =>
      have hhelper : body.helper = body := by
        unfold Expr.helper
        split
        · cases hprojection
        · rfl
      exact follows_projection (hhelper ▸ hprojection)
    | none =>
      exact follows_evaluate (faces_nil ha) hdirect body.helper
        (T.tame.bodies _ T.mem _ [] body (.getter declared) hprojection).helper
        ((T.withholds T.leaves).values d hd _ hrecompute) (hN _ hformula)
  | @projection name body id f declared hoisted projects =>
    cases hoperand
    have hf := List.mem_of_getElem? hoisted
    obtain ⟨method, hfind⟩ := Table.has_iff.mp (hgen.hoisted f hf)
    obtain ⟨f', hf', hname, hcompiled⟩ := hgen.statics _ _ hfind
    obtain rfl := List.inj_on_of_nodup_map T.orderly.functions hf' hf hname
    have hφ : T.own.recomputeFormula? T.model (.hoisted id) = some (.code (.detached [f'.param]) f'.body) := by
      rw [LoadedClass.recomputeFormula?, hoisted]
      rfl
    rw [hφ] at hformula ⊢
    dsimp only
    rw [hoisted, operandValue, ha]
    refine follows_image (fun i himage => by dsimp only; rw [himage]) ?_
    rw [show ((some f').map (·.name)).getD "" = f'.name from rfl, hfind]
    rw [show (ofOption (.unknownMember T.own.image.name f'.name) (some method) : Run CompiledMethod) = pure method from rfl,
      pure_bind]
    have hsized := T.tame.sized _ T.mem f'.name _ (Or.inr hfind)
    refine follows_enter hk hsized fun j hj => ⟨_, simulates_ofBody hcompiled hsized, ?_⟩
    exact follows_evaluate (faces_detached rfl rfl) (hr j (by omega) (by omega)) _
      (T.tame.projections _ T.mem _ _ _ (.getter declared) _ _ projects)
      ((T.withholds T.leaves).functions f' hf) (hN _ hformula)
  | method declared =>
    cases hoperand
    rw [operandValue, ha]
    exact follows_method hk (fun j hj => hr j (by omega) (by omega)) (fun method hfind => hasBody_of_method hd hrecompute hfind)
      (fun φ hφ => hN φ (hformula.trans hφ)) a.refreshing

/-! ### Getters -/

/-- A generated method that has the name of a getter is one. -/
theorem getter_cases {x : String} (hinit : Naming.getter x ≠ T.model.initMethod) {signature : MethodSignature}
    {body : List Statement} (h : T.model.HasMethod signature body) (hname : signature.name = Naming.getter x) :
    (∃ p ∈ T.model.mutableProperties, p.name = x ∧ signature = .getter p.name p.type ∧ body = [.ret (.slot p.slot)]) ∨
      (∃ d ∈ T.model.derived, d.name = x ∧ ∃ value, T.model.operand? d = some value ∧
        signature = .getter d.name d.type ∧ body = ClassModel.getterBody d value) ∨
      ∃ c ∈ T.model.commands, c.property = x ∧
        signature = ⟨Naming.getter c.property, .commandGetter c.property, [], some c.type⟩ ∧
          body = [.returnCommand c.slot c.factory] := by
  cases h with
  | raiseAndSet p mem => exact absurd hname.symm (Naming.getter_ne_raiseAndSet _ _)
  | mutableGetter p mem => exact Or.inl ⟨p, mem, Naming.getter_inj hname, rfl, rfl⟩
  | mutableSetter p mem => exact absurd hname.symm (Naming.getter_ne_setter _ _)
  | derivedGetter d mem value computed =>
    exact Or.inr (Or.inl ⟨d, mem, Naming.getter_inj hname, value, computed, rfl, rfl⟩)
  | recompute d mem => exact absurd hname.symm (Naming.getter_ne_recompute _ _)
  | commandGetter c mem => exact Or.inr (Or.inr ⟨c, mem, Naming.getter_inj hname, rfl, rfl⟩)
  | init => exact absurd hname.symm hinit

/-- Only the getter of a derived value that is computed has its name. -/
theorem getter_unique {d : DerivedProperty} (hd : d ∈ T.model.derived) {value : Operand}
    (hvalue : T.model.operand? d = some value) (hinit : Naming.getter d.name ≠ T.model.initMethod)
    {signature : MethodSignature} {body : List Statement} (h : T.model.HasMethod signature body)
    (hname : signature.name = Naming.getter d.name) :
    signature = .getter d.name d.type ∧ body = ClassModel.getterBody d value := by
  obtain ⟨p, hp, hpd, -⟩ | ⟨e, he, hed, value', hvalue', rfl, rfl⟩ | ⟨c, hc, hcd, -⟩ := getter_cases hinit h hname
  · exact absurd hpd (T.orderly.apart p hp d hd)
  · obtain rfl := eq_of_names he hd hed
    obtain rfl := Option.some.inj (hvalue.symm.trans hvalue')
    exact ⟨rfl, rfl⟩
  · exact absurd hcd ((T.commands c hc).2 d hd)

/-- A call of a generated getter gives what its statements say. -/
theorem follows_getter (hk : lax ∨ 1 ≤ k ∧ UInt64.size ≤ fuel) {signature : MethodSignature} {body : List Statement}
    (hmethod : T.model.HasMethod signature body) (hgetter : T.model.GetterBody body) (hparams : signature.params = [])
    (hunique : ∀ signature' body', T.model.HasMethod signature' body' → signature'.name = signature.name →
      signature' = signature ∧ body' = body) {o : Option Value} (refreshing : List Nat)
    (h : ∀ j, k = j + 1 → ∀ method, T.Follows lax C ρ (interpretBody (enter fuel j)
      ⟨method, T.object, [], refreshing⟩ T.own.declaration.implements [] body) o Shows) :
    T.Follows lax C ρ (invoke (enter fuel k) refreshing T.object signature.name []) o Shows := by
  refine follows_image (fun i himage => by dsimp only; rw [himage]) ?_
  obtain ⟨method, hfind⟩ := Table.has_iff.mp (T.own_generated.1.present signature body hmethod)
  rw [hfind]
  obtain ⟨-, ⟨signature', body', hmethod', hname, hcompiled⟩ | ⟨-, hother⟩⟩ := T.own_generated.1.methods _ _ hfind
  · obtain ⟨rfl, rfl⟩ := hunique signature' body' hmethod' hname
    have hsized := T.tame.sized _ T.mem _ method (Or.inl hfind)
    have hlocals : Statement.localCountAll body' < UInt16.size := by
      rw [Scene.localCountAll_getterBody hgetter]
      decide
    have hsim := (hcompiled.realizes hmethod' hsized hlocals).simulates
    rw [hparams] at hsim
    exact follows_enter hk hsized fun j hj => ⟨_, hsim (enter fuel j) T.object [] refreshing, h j hj method⟩
  · exact absurd rfl (hother signature body hmethod)

/-- What the getter of a property gives is read. -/
theorem follows_read {enter : Enter} {refreshing : List Nat} {x : String} (h : T.own.Exposes x →
    Naming.getter x ≠ T.model.initMethod → T.Follows lax C ρ (invoke enter refreshing T.object (Naming.getter x) []) (ρ x) Shows) :
    T.Follows lax C ρ (read enter refreshing T.object x) (ρ x) Shows := by
  refine .of_reading fun m₀ hρ => ?_
  have haccessor : T.Follows lax C ρ (accessor T.object x PropertyDef.getter)
      ((T.own.image.properties.find? x).bind PropertyDef.getter) Eq := by
    refine follows_image (fun i himage => by rw [himage]) ?_
    exact follows_ofOption
  cases hgetter : (T.own.image.properties.find? x).bind PropertyDef.getter with
  | none =>
    have hnone : ρ x = none := by
      refine Option.eq_none_iff_forall_ne_some.mpr fun v hv => ?_
      obtain ⟨p, getter, hp, hpick⟩ := (reading_eq_some_iff.mp (hρ ▸ hv) : T.Reads m₀ x v).exposed
      rw [hp, Option.bind_some, hpick] at hgetter
      cases hgetter
    rw [hgetter] at haccessor
    rw [hnone]
    exact haccessor.stop
  | some getter =>
    obtain ⟨p, hp, hpick⟩ := Option.bind_eq_some_iff.mp hgetter
    obtain ⟨rfl, hinit⟩ := T.own_generated.1.getters x p getter hp hpick
    rw [hgetter] at haccessor
    refine haccessor.seq ?_
    rintro _ rfl
    exact h ⟨p, _, hp, hpick⟩ hinit

/-- Reading a reactive property gives what its field holds. -/
theorem follows_reactive (hk : lax ∨ 1 ≤ k ∧ UInt64.size ≤ fuel) {p : MutableProperty}
    (hp : p ∈ T.model.mutableProperties) (refreshing : List Nat) :
    T.Follows lax C ρ (read (enter fuel k) refreshing T.object p.name) (ρ p.name) Shows := by
  refine follows_read fun hexposed hinit => ?_
  refine follows_getter hk (.mutableGetter p hp) (.mutable p hp) rfl (fun signature body h hname => ?_) refreshing
    fun j _ method => ?_
  · obtain ⟨q, hq, hqp, rfl, rfl⟩ | ⟨d, hd, hdp, -⟩ | ⟨c, hc, hcp, -⟩ := getter_cases hinit h hname
    · obtain rfl := List.inj_on_of_nodup_map T.own_generated.2.distinct hq hp hqp
      exact ⟨rfl, rfl⟩
    · exact absurd hdp.symm (T.orderly.apart p hp d hd)
    · exact absurd hcp ((T.commands c hc).1 p hp)
  · rw [Scene.interpretBody_ret]
    exact follows_loadField fun m _ v => (reads_reactive_iff hp hexposed).symm

/-! ### Lazy values -/

theorem interpretBody_lazy {enter : Enter} {declares : String → Bool} {slot flag : String} {value : Operand} :
    interpretBody enter a declares [] ([.ifUnset flag [.store slot value, .store flag (.bool true)]] ++ [.ret (.slot slot)]) =
      loadField a.receiver flag >>= fun v => truth v >>= fun c =>
        if c then loadField a.receiver slot
        else operandValue enter a [] value >>= fun fresh => storeField a.receiver slot fresh >>= fun _ =>
          storeField a.receiver flag (.bool true) >>= fun _ => loadField a.receiver slot := by
  simp only [interpretBody, interpretAll, interpret, operandValue, List.singleton_append, bind_assoc, pure_bind]
  congr 1
  funext v
  congr 1
  funext c
  cases c <;> simp [Flow.follow]

/-- The value of what is open is what would be computed. -/
theorem reading_of_open {d : DerivedProperty} (hd : d ∈ T.model.derived) (hexposed : T.own.Exposes d.name)
    (hopen : T.Open d m) (hwritten : d.recompute = none → ¬ T.own.IsAutomatic d.name) :
    T.reading m d.name = T.result (T.reading m) d :=
  Option.ext fun _ => reading_eq_some_iff.trans (reads_open_iff hd hexposed hopen hwritten)

theorem storeField_of_present (h : m.objects[T.object]?.isSome) (field : String) (v : Value) :
    storeField T.object field v m = .ok () (m.store T.object field v) := by
  obtain ⟨i, hi⟩ := Option.isSome_iff_exists.mp h
  have hrun : discard (instance_ T.object) m = .ok .unit m := by rw [discard_apply, instance_of_some hi]
  rw [storeField, bind_of_ok hrun]
  rfl

/-- A lazy value has none unless its flag says whether it has been computed. -/
theorem reading_of_unflagged {d : DerivedProperty} (hd : d ∈ T.model.derived) {slot : DerivedSlot}
    (hslot : d.slot = some slot) {flag : String} (hflag : slot.flag = some flag)
    (h : ∀ b, m.field? T.object flag ≠ some (.bool b)) : T.reading m d.name = none := by
  refine Option.eq_none_iff_forall_ne_some.mpr fun v hv => ?_
  replace hv := reading_eq_some_iff.mp hv
  generalize hx : d.name = x at hv
  cases hv with
  | reactive mem => exact absurd hx.symm (T.orderly.apart _ mem d hd)
  | stored mem _ slotted settled =>
    obtain rfl := eq_of_names hd mem hx
    obtain rfl := Option.some.inj (hslot.symm.trans slotted)
    obtain heager | ⟨flag', hflag', hset⟩ := settled
    · rw [cache_of_flag hd hslot hflag] at heager
      cases heager
    · obtain rfl := Option.some.inj (hflag.symm.trans hflag')
      exact h true hset
  | automatic mem _ announced =>
    obtain rfl := eq_of_names hd mem hx
    rw [slot_of_announced hd announced] at hslot
    cases hslot
  | computed mem _ opened =>
    obtain rfl := eq_of_names hd mem hx
    obtain ⟨flag', hflag', hunset⟩ := opened slot hslot
    obtain rfl := Option.some.inj (hflag.symm.trans hflag')
    exact h false hunset

/-- A lazy value is computed as it is. -/
theorem Tracked.store (h : T.Tracked C m m') {d : DerivedProperty} (hd : d ∈ T.model.derived) (hC : C d.property)
    {slot : DerivedSlot} (hslot : d.slot = some slot) {flag : String} (hflag : slot.flag = some flag)
    (hunset : m.field? T.object flag = some (.bool false)) {v : Value} (hv : T.Yields m d v)
    (hplain : v.isObject = false) :
    T.Tracked C m ((m'.store T.object slot.value v).store T.object flag (.bool true)) := by
  obtain ⟨i, hi, -⟩ := h.live.located.image
  refine ⟨h.toSettles.store hd hC hslot hflag hunset hv (by rw [hi]; rfl), (h.toInside.store _ _).store _ _,
    (h.live.store fun _ _ => hplain).store fun _ _ => rfl, fun c hc => ?_⟩
  have hapart := (T.nodup_fields.2.2.2 c hc).2 d hd
  rw [Machine.field?_store, if_neg, Machine.field?_store, if_neg, h.slots c hc]
  · rintro ⟨-, heq, -⟩
    exact hapart (heq ▸ Scene.value_mem_fieldNames hslot)
  · rintro ⟨-, heq, -⟩
    exact hapart (heq ▸ Scene.flag_mem_fieldNames hslot hflag)

/-- A lazy value that has been computed is given. -/
theorem repeats_lazy {d : DerivedProperty} (hd : d ∈ T.model.derived) {slot : DerivedSlot} (hslot : d.slot = some slot)
    {flag : String} (hflag : slot.flag = some flag) (hset : m.field? T.object flag = some (.bool true)) {v : Value}
    (hv : m.field? T.object slot.value = some v) (rest : Run Value) :
    T.Repeats C m (loadField T.object flag >>= fun w => truth w >>= fun c =>
      if c then loadField T.object slot.value else rest) v := by
  intro n hn
  obtain ⟨hvalue, hflag'⟩ | ⟨hunset, -⟩ := hn.computed d hd slot hslot flag hflag
  · rw [bind_of_ok (loadField_of_some (hflag'.trans hset)), bind_of_ok (show truth (.bool true) n = .ok true n from rfl),
      if_pos rfl, loadField_of_some (hvalue.trans hv)]
    exact ⟨rfl, .refl n⟩
  · rw [hset] at hunset
    cases hunset

/-- Reading a lazy value gives it; if it has not been computed, this computes it. -/
theorem follows_lazy {enter : Enter} {declares : String → Bool} {d : DerivedProperty} (hd : d ∈ T.model.derived)
    (hC : C d.property) (hexposed : T.own.Exposes d.name) {slot : DerivedSlot} (hslot : d.slot = some slot) {flag : String}
    (hflag : slot.flag = some flag) {value : Operand} (ha : a.receiver = T.object)
    (hfresh : T.Follows lax C ρ (operandValue enter a [] value) (T.result ρ d) Shows) :
    T.Follows lax C ρ (interpretBody enter a declares []
      ([.ifUnset flag [.store slot.value value, .store flag (.bool true)]] ++ [.ret (.slot slot.value)])) (ρ d.name)
        Shows := by
  rw [interpretBody_lazy, ha]
  rintro m hlive rfl
  unfold Gives
  cases hv : m.field? T.object flag with
  | none =>
    obtain ⟨e, m', hrun⟩ := loadField_of_none hv
    rw [bind_of_error hrun]
    exact Or.inr (reading_of_unflagged hd hslot hflag fun b hb => by rw [hv] at hb; cases hb)
  | some v =>
    rw [bind_of_ok (loadField_of_some hv)]
    cases hbool : v.bool? with
    | none =>
      have hrun : truth v m = .error (.failed (.typeFault (.condition v.typeName))) m := by
        rw [truth, hbool]
        rfl
      rw [bind_of_error hrun]
      refine Or.inr (reading_of_unflagged hd hslot hflag fun b hb => ?_)
      rw [hv] at hb
      cases hb
      cases hbool
    | some b =>
      obtain rfl : v = .bool b := by
        cases v <;> cases hbool
        rfl
      rw [bind_of_ok (show truth (.bool b) m = .ok b m from rfl)]
      cases b with
      | true =>
        have hreads (w : Value) : T.Reads m d.name w ↔ m.field? T.object slot.value = some w :=
          reads_stored_iff hd hexposed hslot (Or.inr ⟨flag, hflag, hv⟩)
        rw [if_pos rfl]
        cases hvalue : m.field? T.object slot.value with
        | none =>
          obtain ⟨e, m', hrun⟩ := loadField_of_none hvalue
          rw [hrun]
          refine Or.inr (Option.eq_none_iff_forall_ne_some.mpr fun w hw => ?_)
          rw [(hreads w).mp (reading_eq_some_iff.mp hw)] at hvalue
          cases hvalue
        | some w =>
          rw [loadField_of_some hvalue]
          exact ⟨⟨w, reading_eq_some_iff.mpr ((hreads w).mpr hvalue), rfl, isObject_of_field hlive hvalue⟩, .refl hlive,
            repeats_lazy hd hslot hflag hv hvalue _⟩
      | false =>
        have hopen : T.Open d m := fun slot' hslot' =>
          Option.some.inj (hslot.symm.trans hslot') ▸ ⟨flag, hflag, hv⟩
        have hread := reading_of_open hd hexposed hopen (written_of_slot hd hslot)
        have h := hfresh m hlive rfl
        unfold Gives at h
        rw [if_neg Bool.false_ne_true]
        cases hrun : operandValue enter a [] value m with
        | error e m₁ =>
          rw [hrun] at h
          rw [bind_of_error hrun]
          exact h.imp id hread.trans
        | ok fresh m₁ =>
          rw [hrun] at h
          obtain ⟨⟨w, hw, rfl, hplain⟩, htracked, -⟩ := h
          obtain ⟨i, hi, -⟩ := htracked.live.located.image
          have hpresent : m₁.objects[T.object]?.isSome := by rw [hi]; rfl
          have hpresent' : (m₁.store T.object slot.value fresh).objects[T.object]?.isSome := by
            rw [Machine.store, List.getElem?_modify, hi]
            rfl
          have hloaded : ((m₁.store T.object slot.value fresh).store T.object flag (.bool true)).field? T.object
              slot.value = some fresh := by
            rw [Machine.field?_store, if_neg fun hsame => T.flag_ne_value hd hslot hflag hsame.2.1.symm,
              Machine.field?_store, if_pos ⟨rfl, rfl, hpresent⟩]
          have hset : ((m₁.store T.object slot.value fresh).store T.object flag (.bool true)).field? T.object
              flag = some (.bool true) := by
            rw [Machine.field?_store, if_pos ⟨rfl, rfl, hpresent'⟩]
          rw [bind_of_ok hrun, bind_of_ok (storeField_of_present hpresent _ _),
            bind_of_ok (storeField_of_present hpresent' _ _), loadField_of_some hloaded]
          exact ⟨⟨fresh, hread.trans hw, rfl, hplain⟩, htracked.store hd hC hslot hflag hv hw hplain,
            repeats_lazy hd hslot hflag hset hloaded _⟩

/-! ### Reading derived values -/

/-- The getter that is written for a value that is only announced. -/
theorem hasBody_of_announced {d : DerivedProperty} (hd : d ∈ T.model.derived) (hannounced : d.recompute = none)
    (hauto : ¬ T.own.IsAutomatic d.name) (hinit : Naming.getter d.name ≠ T.model.initMethod) {method : CompiledMethod}
    (hfind : T.own.image.methods.find? (Naming.getter d.name) = some method) : ∃ params body,
      T.own.declaration.HasBody (Naming.getter d.name) params body ∧
        CompiledMethod.ofBody (Naming.getter d.name) (.ofInstance params) body = .ok method := by
  obtain ⟨hm, ⟨signature, body, hmethod, hsignature, -⟩ | ⟨hdefines, -⟩⟩ := T.own_generated.1.methods _ _ hfind
  · exfalso
    obtain ⟨p, hp, hname, -⟩ | ⟨e, he, hname, value, hvalue, -⟩ | ⟨c, hc, hname, -⟩ := getter_cases hinit hmethod hsignature
    · exact T.orderly.apart p hp d hd hname
    · obtain rfl := eq_of_names he hd hname
      rw [ClassModel.operand?, hannounced] at hvalue
      cases hvalue
    · exact (T.commands c hc).2 d hd hname
  · cases hdefines with
    | @body name params body _ declared compiled =>
      obtain rfl : name = Naming.getter d.name := (name_ofBody compiled).symm.trans hm
      exact ⟨params, body, declared, compiled⟩
    | autoGetter property =>
      obtain rfl := Naming.getter_inj hm
      exact absurd hfind hauto
    | autoSetter property => exact absurd hm.symm (Naming.getter_ne_setter _ _)

/-- Reading a derived value gives what it is, if reading what it is computed from does. -/
theorem follows_derived (hk : lax ∨ 2 ≤ k ∧ UInt64.size ≤ fuel)
    (hr : ∀ j, j < k → k ≤ j + 2 → T.Reliable lax C ρ (enter fuel j) N) {d : DerivedProperty} (hd : d ∈ T.model.derived)
    (hC : C d.property) (hN : ∀ φ, T.own.formula? T.model d = some φ → ∀ n ∈ φ.readNames, N n) (refreshing : List Nat) :
    T.Follows lax C ρ (read (enter fuel k) refreshing T.object d.name) (ρ d.name) Shows := by
  have hk' : lax ∨ 1 ≤ k ∧ UInt64.size ≤ fuel := hk.imp id fun h => ⟨by omega, h.2⟩
  refine .of_reading fun m hρ => follows_read fun hexposed hinit => ?_
  cases hvalue : T.model.operand? d with
  | some value =>
    have hwritten (hannounced : d.recompute = none) : ¬ T.own.IsAutomatic d.name := by
      rw [ClassModel.operand?, hannounced] at hvalue
      cases hvalue
    refine follows_getter hk' (.derivedGetter d hd value hvalue) (.derived d hd value hvalue) rfl
      (fun _ _ h hname => getter_unique hd hvalue hinit h hname) refreshing fun j hj method => ?_
    have hfresh : T.Follows lax C ρ (operandValue (enter fuel j) ⟨method, T.object, [], refreshing⟩ [] value)
        (T.result ρ d) Shows :=
      follows_operand (hk.imp id fun h => ⟨by omega, h.2⟩) (fun i hi hi' => hr i (by omega) (by omega)) hd hN hvalue rfl
    unfold ClassModel.getterBody
    split
    · rename_i hslot
      have hread := reading_of_open (m := m) hd hexposed (fun slot h => by rw [hslot] at h; cases h) hwritten
      rw [Scene.interpretBody_ret, ← hρ, hread, hρ]
      exact hfresh
    · rename_i slot hslot
      rw [if_neg (by simp [T.unobserved d hd])]
      split
      · rename_i flag _ hflag
        exact follows_lazy hd hC hexposed hslot hflag rfl hfresh
      · rename_i hother
        -- The value is cached, and it is not lazy, for then it would have a flag.
        have hfits := T.own_generated.2.derived d hd
        have heager : d.cache = .eager := by
          cases hcache : d.cache with
          | eager => rfl
          | disabled =>
            rw [hfits.uncached (by rw [hcache]; rfl)] at hslot
            cases hslot
          | lazy =>
            obtain ⟨flag, hflag⟩ := Option.isSome_iff_exists.mp ((hfits.lazy slot hslot).mpr hcache)
            exact (hother flag hcache hflag).elim
        rw [List.nil_append, Scene.interpretBody_ret]
        exact follows_loadField fun m _ v => (reads_stored_iff hd hexposed hslot (Or.inl heager)).symm
  | none =>
    have hannounced : d.recompute = none := Option.map_eq_none_iff.mp hvalue
    by_cases hauto : T.own.IsAutomatic d.name
    · refine follows_image (fun i himage => by dsimp only; rw [himage, hauto]) ?_
      refine follows_enter hk' ?_ fun j _ => ⟨_, Scene.simulates_fieldGetter, ?_⟩
      · exact show 2 < UInt64.size by decide
      exact follows_loadField fun m _ v => (reads_automatic_iff hd hexposed hannounced hauto).symm
    · have hread := reading_of_open (m := m) hd hexposed
        (fun slot h => by rw [slot_of_announced hd hannounced] at h; cases h) fun _ => hauto
      have hφ : T.own.formula? T.model d = T.own.methodFormula? (Naming.getter d.name) := by
        rw [LoadedClass.formula?, hannounced]
        exact if_neg hauto
      rw [hρ, result, hφ] at hread
      rw [hread]
      exact follows_method hk' (fun j hj => hr j (by omega) (by omega))
        (fun method hfind => hasBody_of_announced hd hannounced hauto hinit hfind) (fun φ h => hN φ (hφ.trans h)) refreshing

/-! ### Everything that is read -/

/-- The name stands for a reactive property or a derived value of a set of properties. -/
def Among (T : Setting) (C : PropertyId → Prop) (x : String) : Prop :=
  (∃ p ∈ T.model.mutableProperties, p.name = x ∧ C p.id) ∨ ∃ e ∈ T.model.derived, e.name = x ∧ C e.property

/-- With some number of open calls reading a member gives its value. -/
def Attains (T : Setting) (lax : Prop) (C : PropertyId → Prop) (x : String) (bound : Nat) : Prop :=
  ∀ k fuel, (lax ∨ bound ≤ k ∧ UInt64.size ≤ fuel) → ∀ ρ refreshing,
    T.Follows lax C ρ (read (enter fuel k) refreshing T.object x) (ρ x) Shows

theorem Attains.mono {x : String} {b b' : Nat} (h : T.Attains lax C x b) (hle : b ≤ b') : T.Attains lax C x b' :=
  fun k fuel hk => h k fuel (hk.imp id fun hb => ⟨by omega, hb.2⟩)

theorem exists_attains {xs : List String} (h : ∀ x ∈ xs, ∃ b, T.Attains lax C x b) : ∃ b, ∀ x ∈ xs, T.Attains lax C x b := by
  induction xs with
  | nil => exact ⟨0, nofun⟩
  | cons x xs ih =>
    obtain ⟨b, hb⟩ := h x List.mem_cons_self
    obtain ⟨b', hb'⟩ := ih fun y hy => h y (List.mem_cons_of_mem _ hy)
    refine ⟨max b b', fun y hy => ?_⟩
    obtain rfl | hy := List.mem_cons.mp hy
    · exact hb.mono (by omega)
    · exact (hb' y hy).mono (by omega)

theorem exists_attains_formula {o : Option Formula} (h : ∀ φ, o = some φ → ∀ n ∈ φ.readNames, ∃ b, T.Attains lax C n b) :
    ∃ b, ∀ φ, o = some φ → ∀ n ∈ φ.readNames, T.Attains lax C n b := by
  cases o with
  | none => exact ⟨0, nofun⟩
  | some φ =>
    obtain ⟨b, hb⟩ := exists_attains (h φ rfl)
    exact ⟨b, fun φ' h' => by cases h'; exact hb⟩

/-- A derived value is attained if what it is computed from is. -/
theorem attains_derived {d : DerivedProperty} (hd : d ∈ T.model.derived) (hC : C d.property)
    (h : ∀ φ, T.own.formula? T.model d = some φ → ∀ n ∈ φ.readNames, ∃ b, T.Attains lax C n b) :
    ∃ b, T.Attains lax C d.name b := by
  obtain ⟨b, hb⟩ := exists_attains_formula h
  refine ⟨b + 2, fun k fuel hk ρ refreshing => ?_⟩
  refine follows_derived (N := fun n => T.Attains lax C n b) (hk.imp id fun h => ⟨by omega, h.2⟩) (fun j _ hj x hx => ?_) hd
    hC hb refreshing
  exact fun refreshing => hx j fuel (hk.imp id fun h => ⟨by omega, h.2⟩) ρ refreshing

/-- **Reading is reliable.**  With some number of open calls reading a reactive property or a derived value gives its
value. -/
theorem reliable (lax : Prop) (hclosed : T.model.Closed C) {x : String} (hx : T.Among C x) : ∃ b, T.Attains lax C x b := by
  have hreactive {p : MutableProperty} (hp : p ∈ T.model.mutableProperties) : ∃ b, T.Attains lax C p.name b :=
    ⟨1, fun k fuel hk ρ refreshing => follows_reactive hk hp refreshing⟩
  have hderived (i : DerivedId) : ∀ d, T.model.derived[i]? = some d → C d.property → ∃ b, T.Attains lax C d.name b := by
    induction i using (ClassModel.wellFounded_feeds T.orderly).induction with
    | h i ih =>
      intro d hi hC
      have hd := List.mem_of_getElem? hi
      refine attains_derived hd hC fun φ hφ n hn => ?_
      obtain ⟨p, hp, rfl, -⟩ | ⟨e, he, rfl, hsource⟩ := T.source_of_read hd hφ hn
      · exact hreactive hp
      · obtain ⟨j, hj⟩ := List.mem_iff_getElem?.mp he
        exact ih j ⟨e, d, hj, hi, hsource⟩ e hj (hclosed d hd hC _ hsource)
  obtain ⟨p, hp, rfl, -⟩ | ⟨e, he, rfl, hC⟩ := hx
  · exact hreactive hp
  · obtain ⟨j, hj⟩ := List.mem_iff_getElem?.mp he
    exact hderived j e hj hC

/-- A member that is read gives its value, and lazy values may have been computed. -/
theorem ends_read {x : String} (hx : T.Among (fun _ => True) x) (hlive : T.Live m) {refreshing : List Nat} :
    Ends (read (enter fuel k) refreshing T.object x) m fun v m' => T.Tracked (fun _ => True) m m' ∧ T.Reads m x v := by
  intro v m' hrun
  obtain ⟨b, hb⟩ := reliable True ClassModel.closed_all hx
  have hgives := hb k fuel (Or.inl trivial) (T.reading m) refreshing m hlive rfl
  rw [Gives, hrun] at hgives
  obtain ⟨⟨w, hw, rfl, -⟩, htracked, -⟩ := hgives
  exact ⟨htracked, reading_eq_some_iff.mp hw⟩

/-! ### Computing derived values -/

/-- With some number of open calls computing a derived value gives what it would be. -/
theorem attains_operand (lax : Prop) (hclosed : T.model.Closed C) {d : DerivedProperty} (hd : d ∈ T.model.derived)
    (hC : ∀ i ∈ d.sources, C i) {value : Operand} (hvalue : T.model.operand? d = some value) :
    ∃ b, ∀ k fuel, (lax ∨ b ≤ k ∧ UInt64.size ≤ fuel) → ∀ (ρ : Reading) (a : Activation), a.receiver = T.object →
      T.Follows lax C ρ (operandValue (enter fuel k) a [] value) (T.result ρ d) Shows := by
  obtain ⟨b, hb⟩ : ∃ b, ∀ φ, T.own.formula? T.model d = some φ → ∀ n ∈ φ.readNames, T.Attains lax C n b := by
    refine exists_attains_formula fun φ hφ n hn => reliable lax hclosed ?_
    obtain ⟨p, hp, hname, hsource⟩ | ⟨e, he, hname, hsource⟩ := T.source_of_read hd hφ hn
    · exact Or.inl ⟨p, hp, hname, hC _ hsource⟩
    · exact Or.inr ⟨e, he, hname, hC _ hsource⟩
  refine ⟨b + 1, fun k fuel hk ρ a ha => ?_⟩
  refine follows_operand (N := fun n => T.Attains lax C n b) (hk.imp id fun h => ⟨by omega, h.2⟩) (fun j _ hj x hx => ?_)
    hd hb hvalue ha
  exact fun refreshing => hx j fuel (hk.imp id fun h => ⟨by omega, h.2⟩) ρ refreshing

/-- What a derived value is computed to be is what it would be. -/
theorem ends_operandValue (hclosed : T.model.Closed C) {d : DerivedProperty} (hd : d ∈ T.model.derived)
    (hC : ∀ i ∈ d.sources, C i) {value : Operand} (hvalue : T.model.operand? d = some value) (ha : a.receiver = T.object)
    (hlive : T.Live m) : Ends (operandValue (enter fuel k) a [] value) m fun v m' => T.Yields m d v ∧ T.Tracked C m m' := by
  obtain ⟨b, hb⟩ := attains_operand True hclosed hd hC hvalue
  intro v m' hrun
  have h := hb k fuel (Or.inl trivial) _ a ha m hlive rfl
  rw [Gives, hrun] at h
  obtain ⟨⟨w, hw, rfl, -⟩, htracked, -⟩ := h
  exact ⟨hw, htracked⟩

/-- What a derived value would be is computed, with enough open calls and instructions. -/
theorem exists_operandValue {d : DerivedProperty} (hd : d ∈ T.model.derived) {value : Operand}
    (hvalue : T.model.operand? d = some value) (hlive : T.Live m) {v : Value} (hv : T.Yields m d v) :
    ∃ b, ∀ k fuel, b ≤ k → UInt64.size ≤ fuel → ∀ a : Activation, a.receiver = T.object →
      ∃ m', operandValue (enter fuel k) a [] value m = .ok v m' := by
  obtain ⟨b, hb⟩ := attains_operand False ClassModel.closed_all hd (fun _ _ => trivial) hvalue
  refine ⟨b, fun k fuel hk hfuel a ha => ?_⟩
  have h := hb k fuel (Or.inr ⟨hk, hfuel⟩) _ a ha m hlive rfl
  unfold Gives at h
  cases hrun : operandValue (enter fuel k) a [] value m with
  | error e m' =>
    rw [hrun] at h
    rw [Yields, h.resolve_left id] at hv
    cases hv
  | ok w m' =>
    rw [hrun] at h
    obtain ⟨⟨u, hu, rfl, -⟩, -⟩ := h
    rw [Yields, hu] at hv
    cases hv
    exact ⟨m', rfl⟩

end Setting

end Reactive
