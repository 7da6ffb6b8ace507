import Reactive.Proofs.Generated

/-!
# Reactive.Proofs.Loaded — classes that are loaded together

* `LoadedClass.Loads`: a class is loaded as it is declared, or with the patch module of its model.
* `Expr.CallsOnly`: which methods an expression calls.
* `Uncalled`: loaded classes whose declared bodies call no method that has instructions; `Tame` ones have no derived
  value that is the result of the init method either.
* `LoadedClass.Harmless`, `LoadedClass.Hoisted`: declared bodies and getters, and hoisted functions; what a getter, a hook
  or a derived value runs is one of them.
* `LoadedClass.load?`: a declared class with the patch module of its own model.
-/

namespace Reactive

/-! ### Names -/

namespace Naming

theorem append_ne {p q : String} (x y : String) (hp : 2 ≤ p.toList.length) (hq : 2 ≤ q.toList.length)
    (h : p.toList.take 2 ≠ q.toList.take 2) : p ++ x ≠ q ++ y := by
  intro heq
  have htake := congrArg (fun s : String => s.toList.take 2) heq
  simp only [String.toList_append] at htake
  rw [List.take_append_of_le_length hp, List.take_append_of_le_length hq] at htake
  exact h htake

theorem getter_inj {x y : String} (h : getter x = getter y) : x = y := (String.append_right_inj _).mp h

theorem setter_inj {x y : String} (h : setter x = setter y) : x = y := (String.append_right_inj _).mp h

theorem raiseAndSet_inj {x y : String} (h : raiseAndSet x = raiseAndSet y) : x = y := (String.append_right_inj _).mp h

theorem recompute_inj {x y : String} (h : recompute x = recompute y) : x = y := (String.append_right_inj _).mp h

theorem autoField_inj {x y : String} (h : autoField x = autoField y) : x = y :=
  (String.append_right_inj _).mp ((String.append_left_inj _).mp h)

theorem getter_ne_setter (x y : String) : getter x ≠ setter y := append_ne x y (by decide) (by decide) (by decide)

theorem getter_ne_raiseAndSet (x y : String) : getter x ≠ raiseAndSet y :=
  append_ne x y (by decide) (by decide) (by decide)

theorem getter_ne_recompute (x y : String) : getter x ≠ recompute y := append_ne x y (by decide) (by decide) (by decide)

theorem setter_ne_raiseAndSet (x y : String) : setter x ≠ raiseAndSet y :=
  append_ne x y (by decide) (by decide) (by decide)

theorem setter_ne_recompute (x y : String) : setter x ≠ recompute y := append_ne x y (by decide) (by decide) (by decide)

theorem raiseAndSet_ne_recompute (x y : String) : raiseAndSet x ≠ recompute y :=
  append_ne x y (by decide) (by decide) (by decide)

/-- A change hook has a name of its own. -/
theorem hook_ne {property hook : String} (h : hook ∈ [changingHook property, changedHook property]) (x : String) :
    hook ≠ getter x ∧ hook ≠ setter x ∧ hook ≠ raiseAndSet x ∧ hook ≠ recompute x := by
  have hon (rest : String) : "On" ++ rest ≠ getter x ∧ "On" ++ rest ≠ setter x ∧ "On" ++ rest ≠ raiseAndSet x ∧
      "On" ++ rest ≠ recompute x :=
    ⟨append_ne _ _ (by decide) (by decide) (by decide), append_ne _ _ (by decide) (by decide) (by decide),
      append_ne _ _ (by decide) (by decide) (by decide), append_ne _ _ (by decide) (by decide) (by decide)⟩
  simp only [List.mem_cons, List.not_mem_nil, or_false] at h
  obtain rfl | rfl := h
  · rw [changingHook, String.append_assoc]
    exact hon _
  · rw [changedHook, String.append_assoc]
    exact hon _

end Naming

/-! ### Calls -/

/-- The expression is the instance: `this`, or the parameter of a function without one. -/
def Scope.isInstance (scope : Scope) : Expr → Bool
  | .this _ => true
  | .name n _ => !scope.hasThis && scope.params.contains n
  | _ => false

namespace Expr

variable (scope : Scope) (own other : String → Prop)

mutual

/-- The methods that an expression calls on the instance, and on other values.  Host helpers are no methods, and a lambda
is not run. -/
def CallsOnly : Expr → Prop
  | literal .. | name .. | this _ | lambda .. => True
  | member object _ _ => CallsOnly object
  | call callee args _ => CalleeOnly callee ∧ AllCallOnly args
  | unary _ e _ => CallsOnly e
  | binary _ l r _ => CallsOnly l ∧ CallsOnly r
  | conditional c t e _ => CallsOnly c ∧ CallsOnly t ∧ CallsOnly e

/-- What is called is a method of the instance or of another value; nothing else can be called. -/
def CalleeOnly : Expr → Prop
  | name n _ => own n
  | member object n _ =>
    CallsOnly object ∧ if scope.isInstance object then own n else (scope.host? object).isSome ∨ other n
  | _ => True

/-- The methods that expressions call. -/
def AllCallOnly : List Expr → Prop
  | [] => True
  | e :: es => CallsOnly e ∧ AllCallOnly es

end

/-- What an observable helper is built from calls nothing else than the whole expression. -/
theorem CallsOnly.helper {scope : Scope} {own other : String → Prop} {e : Expr} (h : e.CallsOnly scope own other) :
    e.helper.CallsOnly scope own other := by
  unfold Expr.helper
  split
  · rename_i object n s s'
    split
    · rw [CallsOnly, CalleeOnly] at h
      exact h.1.1
    · exact h
  · exact h

mutual

/-- The value of the expression is not the instance itself: that is named only where a member of it is read or called. -/
def withholds (scope : Scope) : Expr → Bool
  | literal .. | lambda .. => true
  | this _ => false
  | name n s => !scope.isInstance (name n s)
  | member object _ _ => scope.isInstance object || withholds scope object
  | call callee args _ => calleeWithholds scope callee && allWithhold scope args
  | unary _ e _ => withholds scope e
  | binary _ l r _ => withholds scope l && withholds scope r
  | conditional c t e _ => withholds scope c && (withholds scope t && withholds scope e)

/-- The receiver of a call is a member of the instance or of another value. -/
def calleeWithholds (scope : Scope) : Expr → Bool
  | member object _ _ => scope.isInstance object || withholds scope object
  | _ => true

/-- The values of the expressions are not the instance itself. -/
def allWithhold (scope : Scope) : List Expr → Bool
  | [] => true
  | e :: es => withholds scope e && allWithhold scope es

end

end Expr

/-! ### Loaded classes -/

/-- A class as it is declared, what is generated for it if anything is, and as it is loaded. -/
structure LoadedClass where
  declaration : ClassDecl
  model : Option ClassModel
  image : ClassImage

namespace LoadedClass

/-- How a class is loaded: as it is declared, or with the patch module of its model. -/
inductive Loads : LoadedClass → Prop
  | plain {d : ClassDecl} {conventions : Conventions} {image : ClassImage}
    (compiled : ClassImage.baseline d conventions = .ok image) : Loads ⟨d, none, image⟩
  | patched {s : DeclarationSet} {d : ClassDecl} {model : ClassModel} {module : PatchModule} {image : ClassImage}
    (analyzed : (s.analyzeClass d).1 = some model) (generated : PatchModule.ofModel model = .ok module)
    (applied : ClassImage.ofPatched d s.conventions module = .ok image) : Loads ⟨d, some model, image⟩

variable {L : LoadedClass}

/-- The class has no instructions for a method. -/
def Lacks (L : LoadedClass) (method : String) : Prop := L.image.methods.find? method = none

/-- A model of the class. -/
theorem Loads.generated {model : ClassModel} (h : L.Loads) (hmodel : L.model = some model) :
    L.image.Generated L.declaration model ∧ model.Analyzed L.declaration := by
  cases h with
  | plain => cases hmodel
  | patched analyzed generated applied =>
    cases hmodel
    exact ⟨ClassImage.ofPatched_generated (fun p _ hook hhook => declaresHook_eq analyzed hhook) generated applied,
      (analyzeClass_eq_some analyzed).1⟩

/-- A class without a model is as it is declared. -/
theorem Loads.baseline (h : L.Loads) (hmodel : L.model = none) : L.image.Baseline L.declaration := by
  cases h with
  | plain compiled => exact (ClassImage.baseline_eq_ok compiled).1
  | patched => cases hmodel

end LoadedClass

/-- Loaded classes, the places of whose instructions are machine words.  No declared body calls a method that has
instructions. -/
structure Uncalled (classes : List LoadedClass) : Prop where
  loads : ∀ L ∈ classes, L.Loads
  sized : ∀ L ∈ classes, ∀ n m, L.image.methods.find? n = some m ∨ L.image.statics.find? n = some m →
    m.code.length < UInt64.size
  bodies : ∀ L ∈ classes, ∀ name params body, L.declaration.HasBody name params body →
    body.staticProjection? = none →
      body.CallsOnly (.ofInstance params) L.Lacks fun n => ∀ K ∈ classes, K.Lacks n
  projections : ∀ L ∈ classes, ∀ name params body, L.declaration.HasBody name params body →
    ∀ param projected, body.staticProjection? = some (param, projected) →
      projected.CallsOnly (.detached [param]) L.Lacks fun n => ∀ K ∈ classes, K.Lacks n

/-- Classes of which no derived value is the result of a method of the name of the init method, either. -/
structure Tame (classes : List LoadedClass) : Prop extends Uncalled classes where
  values : ∀ L ∈ classes, ∀ model, L.model = some model → ∀ d ∈ model.derived,
    d.recompute ≠ some (.method model.initMethod)

/-- Bodies of a class, whose values are not the instance itself. -/
structure LoadedClass.Withholds (L : LoadedClass) (model : ClassModel) : Prop where
  bodies : ∀ name params body, L.declaration.HasBody name params body → body.staticProjection? = none →
    body.withholds (.ofInstance params) = true
  values : ∀ d ∈ model.derived, ∀ body, d.recompute = some (.inline body) → body.withholds (.ofInstance []) = true
  functions : ∀ f ∈ model.statics, f.body.withholds (.detached [f.param]) = true

/-! ### Harmless methods -/

/-- The statements of a getter. -/
inductive ClassModel.GetterBody (m : ClassModel) : List Statement → Prop
  | mutable (p : MutableProperty) (mem : p ∈ m.mutableProperties) : GetterBody m [.ret (.slot p.slot)]
  | derived (d : DerivedProperty) (mem : d ∈ m.derived) (value : Operand) (computed : m.operand? d = some value) :
    GetterBody m (getterBody d value)
  | command (c : CommandModel) (mem : c ∈ m.commands) : GetterBody m [.returnCommand c.slot c.factory]

/-- What runs without an announcement: declared bodies, getters, and setters without an argument. -/
inductive LoadedClass.Harmless (L : LoadedClass) (receiver : Nat) : CompiledMethod → List Value → Prop
  | body {name : String} {params : List String} {body : Expr} {m : CompiledMethod} (args : List Value)
    (declared : L.declaration.HasBody name params body)
    (compiled : CompiledMethod.ofBody name (.ofInstance params) body = .ok m) : Harmless L receiver m args
  | autoGetter (property : String) (args : List Value) :
    Harmless L receiver (ClassImage.fieldGetter property (Naming.autoField property)) args
  | autoSetter (property : String) :
    Harmless L receiver (ClassImage.fieldSetter property (Naming.autoField property)) []
  | getter {model : ClassModel} {signature : MethodSignature} {body : List Statement} {m : CompiledMethod}
    (args : List Value) (generated : L.model = some model) (method : model.HasMethod signature body)
    (getter : model.GetterBody body) (params : signature.params = [])
    (compiled : model.Compiles L.declaration signature body m) : Harmless L receiver m args
  | setter {model : ClassModel} {p : MutableProperty} {m : CompiledMethod} (generated : L.model = some model)
    (mem : p ∈ model.mutableProperties) (compiled : model.Compiles L.declaration (.setter p.name p.type)
      [.callMethod (Naming.raiseAndSet p.name) true] m) : Harmless L receiver m []

/-- A hoisted function, which is applied to the instance. -/
structure LoadedClass.Hoisted (L : LoadedClass) (receiver : Nat) (m : CompiledMethod) (args : List Value) : Prop where
  applied : args = [.object receiver]
  function : ∃ model f, L.model = some model ∧ f ∈ model.statics ∧
    CompiledMethod.ofBody f.name (.detached [f.param]) f.body = .ok m

namespace LoadedClass

variable {L : LoadedClass} {receiver : Nat} {m : CompiledMethod}

theorem harmless_of_defines (h : L.declaration.Defines m) : L.Harmless receiver m [] := by
  cases h with
  | body declared compiled => exact .body [] declared compiled
  | autoGetter property => exact .autoGetter property []
  | autoSetter property => exact .autoSetter property

/-- A generated method is harmless without arguments, unless it stores, recomputes or initializes. -/
theorem harmless_of_compiles {model : ClassModel} {signature : MethodSignature} {body : List Statement}
    (hmodel : L.model = some model) (hmethod : model.HasMethod signature body)
    (hcompiled : model.Compiles L.declaration signature body m)
    (hstore : ∀ p ∈ model.mutableProperties, signature.name ≠ Naming.raiseAndSet p.name)
    (hrecompute : ∀ d ∈ model.derived, d.isObservable = false → d.slot.isSome → signature.name ≠ Naming.recompute d.name)
    (hinit : signature.name ≠ model.initMethod) : L.Harmless receiver m [] := by
  cases hmethod with
  | raiseAndSet p mem => exact absurd rfl (hstore p mem)
  | mutableGetter p mem => exact .getter [] hmodel (.mutableGetter p mem) (.mutable p mem) rfl hcompiled
  | mutableSetter p mem => exact .setter hmodel mem hcompiled
  | derivedGetter d mem value computed =>
    exact .getter [] hmodel (.derivedGetter d mem value computed) (.derived d mem value computed) rfl hcompiled
  | recompute d mem slot cached value computed own =>
    exact absurd rfl (hrecompute d mem own (by rw [cached]; rfl))
  | commandGetter c mem => exact .getter [] hmodel (.commandGetter c mem) (.command c mem) rfl hcompiled
  | init => exact absurd rfl hinit

/-- What the getter of a property runs is harmless. -/
theorem Loads.harmless_getter (h : L.Loads) {property getter : String} {p : PropertyDef}
    (hproperty : L.image.properties.find? property = some p) (hgetter : p.getter = some getter)
    (hfind : L.image.methods.find? getter = some m) : L.Harmless receiver m [] := by
  cases hmodel : L.model with
  | none => exact harmless_of_defines ((h.baseline hmodel).methods _ _ hfind).1
  | some model =>
    have hgen := (h.generated hmodel).1
    obtain ⟨rfl, hinit⟩ := hgen.getters _ _ _ hproperty hgetter
    obtain ⟨-, ⟨signature, body, hmethod, hname, hcompiled⟩ | ⟨hdefines, -⟩⟩ := hgen.methods _ _ hfind
    · refine harmless_of_compiles hmodel hmethod hcompiled (fun p _ => ?_) (fun d _ _ _ => ?_) (hname ▸ hinit)
      · exact hname ▸ Naming.getter_ne_raiseAndSet _ _
      · exact hname ▸ Naming.getter_ne_recompute _ _
    · exact harmless_of_defines hdefines

/-- What the method of a derived value runs is harmless, unless it is the init method. -/
theorem Loads.harmless_value (h : L.Loads) {model : ClassModel} (hmodel : L.model = some model) {d : DerivedProperty}
    (hd : d ∈ model.derived) {method : String} (hvalue : d.recompute = some (.method method))
    (hinit : method ≠ model.initMethod) (hfind : L.image.methods.find? method = some m) : L.Harmless receiver m [] := by
  obtain ⟨hgen, hanalyzed⟩ := h.generated hmodel
  have hdeclared : method ∈ L.declaration.names := by
    cases (hanalyzed.derived d hd).written _ hvalue with
    | method declared =>
      obtain ⟨member, hmem, rfl, -⟩ := declared
      exact List.mem_map_of_mem hmem
  obtain ⟨-, ⟨signature, body, hmethod, hname, hcompiled⟩ | ⟨hdefines, -⟩⟩ := hgen.methods _ _ hfind
  · refine harmless_of_compiles hmodel hmethod hcompiled (fun p hp heq => ?_) (fun d' hd' hown hslot heq => ?_)
      (hname ▸ hinit)
    · exact (hanalyzed.mutable p hp).own (heq ▸ hname ▸ hdeclared)
    · have hcached : d'.cache.isCached = true := by
        by_contra hno
        rw [(hanalyzed.derived d' hd').uncached (Bool.eq_false_iff.mpr hno)] at hslot
        cases hslot
      exact (hanalyzed.derived d' hd').own hown hcached (heq ▸ hname ▸ hdeclared)
  · exact harmless_of_defines hdefines

/-- What a change hook runs is harmless. -/
theorem Loads.harmless_hook (h : L.Loads) {model : ClassModel} (hmodel : L.model = some model) {property hook : String}
    (hhook : hook ∈ [Naming.changingHook property, Naming.changedHook property])
    (himpl : L.declaration.implements hook = true) (hfind : L.image.methods.find? hook = some m) (args : List Value) :
    L.Harmless receiver m args := by
  have hgen := (h.generated hmodel).1
  obtain ⟨hm, ⟨signature, body, hmethod, hname, -⟩ | ⟨hdefines, -⟩⟩ := hgen.methods _ _ hfind
  · cases hmethod with
    | raiseAndSet p mem => exact absurd hname.symm (Naming.hook_ne hhook p.name).2.2.1
    | mutableGetter p mem => exact absurd hname.symm (Naming.hook_ne hhook p.name).1
    | mutableSetter p mem => exact absurd hname.symm (Naming.hook_ne hhook p.name).2.1
    | derivedGetter d mem => exact absurd hname.symm (Naming.hook_ne hhook d.name).1
    | recompute d mem => exact absurd hname.symm (Naming.hook_ne hhook d.name).2.2.2
    | commandGetter c mem => exact absurd hname.symm (Naming.hook_ne hhook c.property).1
    | init => exact absurd hname.symm (hgen.bodies hook himpl)
  · cases hdefines with
    | body declared compiled => exact .body args declared compiled
    | autoGetter property => exact .autoGetter property args
    | autoSetter property => exact absurd hm.symm (Naming.hook_ne hhook property).2.1

/-- What is found as a hoisted function is one. -/
theorem Loads.hoisted_function (h : L.Loads) {function : String} (hfind : L.image.statics.find? function = some m) :
    L.Hoisted receiver m [.object receiver] := by
  cases hmodel : L.model with
  | none =>
    rw [(h.baseline hmodel).statics] at hfind
    cases hfind
  | some model =>
    obtain ⟨f, hf, rfl, hcompiled⟩ := (h.generated hmodel).1.statics _ _ hfind
    exact ⟨rfl, model, f, hmodel, hf, hcompiled⟩

/-! ### Classes with their own modules -/

/-- A declared class with the patch module of its model, if it has one that fits. -/
def load? (s : DeclarationSet) (d : ClassDecl) : Option LoadedClass :=
  match (s.analyzeClass d).1 with
  | none => none
  | some model =>
    match PatchModule.ofModel model, ClassImage.baseline d s.conventions with
    | .ok module, .ok base =>
      match module.edits.forM ClassImage.applyEdit base with
      | .ok _ image => if module.className = base.name then some ⟨d, some model, image⟩ else none
      | .error .. => none
    | _, _ => none

theorem exists_of_load? {s : DeclarationSet} {d : ClassDecl} (h : load? s d = some L) :
    ∃ model module, L = ⟨d, some model, L.image⟩ ∧ (s.analyzeClass d).1 = some model ∧
      PatchModule.ofModel model = .ok module ∧ ClassImage.ofPatched d s.conventions module = .ok L.image := by
  unfold load? at h
  split at h
  · cases h
  · rename_i model hmodel
    split at h
    · rename_i module base hmodule hbase
      split at h
      · rename_i u image hrun
        split at h
        · rename_i hname
          cases h
          obtain ⟨a, -, rfl⟩ := Assembly.ofModel_eq_ok hmodule
          exact ⟨model, _, rfl, hmodel, hmodule, ClassImage.ofPatched_of_forM hbase hname hrun⟩
        · cases h
      · cases h
    · cases h

theorem load?_eq_some {s : DeclarationSet} {d : ClassDecl} (h : load? s d = some L) :
    L.Loads ∧ L.declaration = d ∧ (s.analyzeClass d).1 = L.model ∧ L.model.isSome = true := by
  obtain ⟨model, module, hL, analyzed, generated, applied⟩ := exists_of_load? h
  rw [hL]
  exact ⟨.patched analyzed generated applied, rfl, analyzed, rfl⟩

end LoadedClass

namespace Expr

/-- The expression calls nothing. -/
def isCallFree : Expr → Bool
  | literal .. | name .. | this _ | lambda .. => true
  | member object _ _ => object.isCallFree
  | call .. => false
  | unary _ e _ => e.isCallFree
  | binary _ l r _ => l.isCallFree && r.isCallFree
  | conditional c t e _ => c.isCallFree && t.isCallFree && e.isCallFree

theorem callsOnly_of_isCallFree {scope : Scope} {own other : String → Prop} :
    ∀ e : Expr, e.isCallFree = true → e.CallsOnly scope own other
  | literal .., _ | name .., _ | this _, _ | lambda .., _ => trivial
  | member object _ _, h => callsOnly_of_isCallFree object h
  | unary _ e _, h => callsOnly_of_isCallFree e h
  | binary _ l r _, h => by
    rw [isCallFree, Bool.and_eq_true] at h
    exact ⟨callsOnly_of_isCallFree l h.1, callsOnly_of_isCallFree r h.2⟩
  | conditional c t e _, h => by
    rw [isCallFree, Bool.and_eq_true, Bool.and_eq_true] at h
    exact ⟨callsOnly_of_isCallFree c h.1.1, callsOnly_of_isCallFree t h.1.2, callsOnly_of_isCallFree e h.2⟩

theorem staticProjection?_of_isCallFree {e : Expr} (h : e.isCallFree = true) : e.staticProjection? = none := by
  cases e with
  | call => cases h
  | _ => rfl

end Expr

namespace ClassDecl

/-- The bodies of getters and methods. -/
def bodies (d : ClassDecl) : List Expr :=
  d.members.filterMap fun m =>
    match m.kind with
    | .property p => p.getterBody?
    | .method decl => decl.body

theorem HasBody.mem_bodies {d : ClassDecl} {name : String} {params : List String} {body : Expr}
    (h : d.HasBody name params body) : body ∈ d.bodies := by
  cases h with
  | getter declared =>
    obtain ⟨m, hm, -, p, hp, hbody⟩ := declared
    exact List.mem_filterMap.mpr ⟨m, hm, by rw [hp]; exact hbody⟩
  | method mem kind written => exact List.mem_filterMap.mpr ⟨_, mem, by rw [kind]; exact written⟩

end ClassDecl

/-- No derived value is the result of a method of the name of the init method. -/
def ClassModel.sparesInit (m : ClassModel) : Bool :=
  m.derived.all fun d =>
    match d.recompute with
    | some (.method method) => method ≠ m.initMethod
    | _ => true

namespace LoadedClass

variable {L : LoadedClass}

/-- The places of all instructions are machine words. -/
def isSized (L : LoadedClass) : Bool :=
  (L.image.methods ++ L.image.statics).all fun entry => entry.2.code.length < UInt64.size

/-- A class without calls in its bodies, alone. -/
theorem uncalled_singleton (h : L.Loads) (hsized : L.isSized = true)
    (hfree : L.declaration.bodies.all Expr.isCallFree = true) : Uncalled [L] := by
  have hbody {name : String} {params : List String} {body : Expr} (hb : L.declaration.HasBody name params body) :
      body.isCallFree = true := List.all_eq_true.mp hfree body hb.mem_bodies
  refine ⟨fun K hK => ?_, fun K hK n m hm => ?_, fun K hK name params body hb _ => ?_,
    fun K hK name params body hb param projected hprojected => ?_⟩ <;> obtain rfl := List.mem_singleton.mp hK
  · exact h
  · have hmem : (n, m) ∈ K.image.methods ++ K.image.statics :=
      List.mem_append.mpr (hm.imp Table.mem_of_find? Table.mem_of_find?)
    exact of_decide_eq_true (List.all_eq_true.mp hsized _ hmem)
  · exact Expr.callsOnly_of_isCallFree body (hbody hb)
  · rw [Expr.staticProjection?_of_isCallFree (hbody hb)] at hprojected
    cases hprojected

theorem tame_singleton {model : ClassModel} (h : Uncalled [L]) (hmodel : L.model = some model)
    (hspares : model.sparesInit = true) : Tame [L] := by
  refine ⟨h, fun K hK model' hmodel' d hd heq => ?_⟩
  obtain rfl := List.mem_singleton.mp hK
  rw [hmodel] at hmodel'
  cases hmodel'
  have hspared := List.all_eq_true.mp hspares d hd
  rw [heq] at hspared
  exact of_decide_eq_true hspared rfl

end LoadedClass

end Reactive
