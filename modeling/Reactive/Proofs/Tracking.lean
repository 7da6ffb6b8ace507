import Reactive.Proofs.Harmless
import Reactive.Proofs.Reading

/-!
# Reactive.Proofs.Tracking — members are read as they are

* `Setting.Tracked`: what reading members does to a machine: lazy values may be computed, and methods without a body may
  be called.
* `Setting.Repeats`: once more a computation gives the same and does nothing at all.
* `Setting.Follows`: a computation does nothing but what reading members does, gives what it should give, and can be
  repeated; it fails if there is nothing to give, a lax one also without a reason.
* `Setting.follows_evaluate`: an expression gives the value that it denotes.
* `Setting.Reliable`: members are read as they are, and reading one fails only if it has no value.
-/

namespace Reactive

open Stateful Run

/-- A method without a body was called. -/
def Event.isInvocation : Event → Bool
  | .invoked .. => true
  | _ => false

namespace Machine

/-- Nothing has changed; methods without a body may have been called. -/
def Idle (m m' : Machine) : Prop :=
  ∃ log, m' = { m with events := m.events ++ log } ∧ ∀ e ∈ log, e.isInvocation = true

/-- Only fields of one object have changed; methods without a body may have been called. -/
structure Inside (object : Nat) (m m' : Machine) : Prop where
  classes : m'.classes = m.classes
  others : ∀ r, r ≠ object → m'.objects[r]? = m.objects[r]?
  length : m'.objects.length = m.objects.length
  commands : m'.commands = m.commands
  locales : m'.locales = m.locales
  events : ∃ log, m'.events = m.events ++ log ∧ ∀ e ∈ log, e.isInvocation = true

variable {object : Nat} {m m' m'' : Machine}

theorem Idle.refl (m : Machine) : m.Idle m := ⟨[], by rw [List.append_nil], nofun⟩

theorem Idle.trans (h : m.Idle m') (h' : m'.Idle m'') : m.Idle m'' := by
  obtain ⟨log, rfl, hlog⟩ := h
  obtain ⟨log', rfl, hlog'⟩ := h'
  refine ⟨log ++ log', by rw [List.append_assoc], fun e he => ?_⟩
  exact (List.mem_append.mp he).elim (hlog e) (hlog' e)

theorem idle_logged {e : Event} (h : e.isInvocation = true) : m.Idle (m.logged e) :=
  ⟨[e], rfl, fun _ he => List.mem_singleton.mp he ▸ h⟩

theorem Idle.objects (h : m.Idle m') : m'.objects = m.objects := by
  obtain ⟨log, rfl, -⟩ := h
  rfl

theorem Idle.inside (h : m.Idle m') : m.Inside object m' := by
  obtain ⟨log, rfl, hlog⟩ := h
  exact ⟨rfl, fun _ _ => rfl, rfl, rfl, rfl, log, rfl, hlog⟩

theorem Inside.trans (h : m.Inside object m') (h' : m'.Inside object m'') : m.Inside object m'' := by
  obtain ⟨log, hevents, hlog⟩ := h.events
  obtain ⟨log', hevents', hlog'⟩ := h'.events
  refine ⟨h'.classes.trans h.classes, fun r hr => (h'.others r hr).trans (h.others r hr), h'.length.trans h.length,
    h'.commands.trans h.commands, h'.locales.trans h.locales, log ++ log', ?_, fun e he => ?_⟩
  · rw [hevents', hevents, List.append_assoc]
  · exact (List.mem_append.mp he).elim (hlog e) (hlog' e)

theorem Inside.store (h : m.Inside object m') (field : String) (v : Value) :
    m.Inside object (m'.store object field v) := by
  refine ⟨h.classes, fun r hr => ?_, ?_, h.commands, h.locales, h.events⟩
  · rw [getElem?_store_of_ne m' field v hr]
    exact h.others r hr
  · rw [Machine.store, List.length_modify]
    exact h.length

end Machine

namespace Setting

variable (T : Setting)

/-- Reading members computes lazy values of a set of properties, as they are, and does nothing else; methods without a
body may be called. -/
structure Tracked (C : PropertyId → Prop) (m m' : Machine) : Prop extends T.Settles C m m', m.Inside T.object m' where
  live : T.Live m'
  slots : ∀ c ∈ T.model.commands, m'.field? T.object c.slot = m.field? T.object c.slot

/-- Whatever else is read meanwhile, a computation gives a value once more, and nothing changes; or it is cut off. -/
def Repeats {α : Type} (C : PropertyId → Prop) (m : Machine) (x : Run α) (v : α) : Prop :=
  ∀ n, T.Tracked C m n →
    match x n with
    | .ok w n' => w = v ∧ n.Idle n'
    | .error e _ => e = .exhausted

/-- In a machine, a computation does nothing but what reading members does, gives what it should give, and can be
repeated.  It fails if there is nothing to give; a lax one may always fail. -/
def Gives {α β : Type} (lax : Prop) (C : PropertyId → Prop) (m : Machine) (x : Run α) (o : Option β) (R : α → β → Prop) :
    Prop :=
  match x m with
  | .ok v m' => (∃ w, o = some w ∧ R v w) ∧ T.Tracked C m m' ∧ T.Repeats C m' x v
  | .error .. => lax ∨ o = none

/-- A computation gives what it should give wherever members have some values. -/
def Follows {α β : Type} (lax : Prop) (C : PropertyId → Prop) (ρ : Reading) (x : Run α) (o : Option β) (R : α → β → Prop) :
    Prop := ∀ m, T.Live m → T.reading m = ρ → T.Gives lax C m x o R

/-- The value is the one in question, and no object. -/
def Shows (v w : Value) : Prop := v = w ∧ v.isObject = false

/-- Reading some members gives their values. -/
def Reliable (lax : Prop) (C : PropertyId → Prop) (ρ : Reading) (enter : Enter) (N : String → Prop) : Prop :=
  ∀ x, N x → ∀ refreshing, T.Follows lax C ρ (read enter refreshing T.object x) (ρ x) Shows

variable {T} {lax : Prop} {C : PropertyId → Prop} {ρ : Reading} {m m' m'' : Machine}

theorem tracked_of_idle (hlive : T.Live m) (h : m.Idle m') : T.Tracked C m m' :=
  ⟨.of_objects h.objects, h.inside, hlive.of_objects h.objects, fun _ _ => by rw [Machine.field?, h.objects]; rfl⟩

theorem Tracked.refl (h : T.Live m) : T.Tracked C m m := tracked_of_idle h (.refl m)

theorem Tracked.trans (h : T.Tracked C m m') (h' : T.Tracked C m' m'') : T.Tracked C m m'' :=
  ⟨h.toSettles.trans h'.toSettles, h.toInside.trans h'.toInside, h'.live,
    fun c hc => (h'.slots c hc).trans (h.slots c hc)⟩

theorem Tracked.idle (h : T.Tracked C m m') (hidle : m'.Idle m'') : T.Tracked C m m'' :=
  h.trans (tracked_of_idle h.live hidle)

/-! ### Computations -/

section

variable {α β γ δ : Type} {R : α → β → Prop} {Q : γ → δ → Prop}

theorem repeats_pure (v : α) : T.Repeats C m (pure v) v := fun n _ => ⟨rfl, .refl n⟩

theorem Repeats.bind {x : Run α} {f : α → Run γ} {v : α} {u : γ} (hx : T.Repeats C m x v)
    (htracked : T.Tracked C m m') (hf : T.Repeats C m' (f v) u) : T.Repeats C m' (x >>= f) u := by
  intro n hn
  have h := hx n (htracked.trans hn)
  cases hrun : x n with
  | error e n' =>
    rw [hrun] at h
    rw [bind_of_error hrun]
    exact h
  | ok w n' =>
    rw [hrun] at h
    obtain ⟨rfl, hidle⟩ := h
    have h' := hf n' (hn.idle hidle)
    rw [bind_of_ok hrun]
    cases hrun' : f w n' with
    | error e n'' =>
      rw [hrun'] at h'
      exact h'
    | ok z n'' =>
      rw [hrun'] at h'
      exact ⟨h'.1, hidle.trans h'.2⟩

theorem Gives.bind_ok {x : Run α} {f : α → Run γ} {o : Option δ} {v : α} (hrun : x m = .ok v m')
    (htracked : T.Tracked C m m') (hrepeats : T.Repeats C m' x v) (h : T.Gives lax C m' (f v) o Q) :
    T.Gives lax C m (x >>= f) o Q := by
  unfold Gives at h ⊢
  rw [bind_of_ok hrun]
  cases hrun' : f v m' with
  | error e m₂ =>
    rw [hrun'] at h
    exact h
  | ok u m₂ =>
    rw [hrun'] at h
    obtain ⟨hgiven, htracked', hrepeats'⟩ := h
    exact ⟨hgiven, htracked.trans htracked', hrepeats.bind htracked' hrepeats'⟩

theorem Gives.bind_error {x : Run α} {f : α → Run γ} {o : Option δ} {e : Stop} (hrun : x m = .error e m')
    (h : lax ∨ o = none) : T.Gives lax C m (x >>= f) o Q := by
  unfold Gives
  rw [bind_of_error hrun]
  exact h

theorem follows_pure {v : α} {w : β} (h : R v w) : T.Follows lax C ρ (pure v) (some w) R :=
  fun _ hlive _ => ⟨⟨w, rfl, h⟩, .refl hlive, repeats_pure v⟩

theorem follows_fail {e : RuntimeError} : T.Follows lax C ρ (fail e : Run α) (none : Option β) R :=
  fun _ _ _ => Or.inr rfl

theorem Follows.bind_of_some {x : Run α} {o : Option β} {f : α → Run γ} {g : β → Option δ}
    (hx : T.Follows lax C ρ x o R) (hf : ∀ v w, o = some w → R v w → T.Follows lax C ρ (f v) (g w) Q) :
    T.Follows lax C ρ (x >>= f) (o.bind g) Q := by
  intro m hlive hρ
  have h := hx m hlive hρ
  unfold Gives at h
  cases hrun : x m with
  | error e m₁ =>
    rw [hrun] at h
    exact .bind_error hrun (h.imp id fun hnone => by rw [hnone, Option.bind_none])
  | ok v m₁ =>
    rw [hrun] at h
    obtain ⟨⟨w, rfl, hR⟩, htracked, hrepeats⟩ := h
    exact .bind_ok hrun htracked hrepeats (hf v w rfl hR m₁ htracked.live (htracked.reading_eq.trans hρ))

theorem Follows.bind {x : Run α} {o : Option β} {f : α → Run γ} {g : β → Option δ} (hx : T.Follows lax C ρ x o R)
    (hf : ∀ v w, R v w → T.Follows lax C ρ (f v) (g w) Q) : T.Follows lax C ρ (x >>= f) (o.bind g) Q :=
  hx.bind_of_some fun v w _ hR => hf v w hR

/-- Behind a computation that gives what is known nothing else matters. -/
theorem Follows.seq {x : Run α} {u : β} {f : α → Run γ} {o : Option δ} (hx : T.Follows lax C ρ x (some u) R)
    (hf : ∀ v, R v u → T.Follows lax C ρ (f v) o Q) : T.Follows lax C ρ (x >>= f) o Q :=
  hx.bind_of_some (g := fun _ => o) fun v _ hw hR => hf v (Option.some.inj hw ▸ hR)

/-- Behind a computation that has nothing to give there is nothing, either. -/
theorem Follows.stop {x : Run α} {f : α → Run γ} (hx : T.Follows lax C ρ x (none : Option β) R) :
    T.Follows lax C ρ (x >>= f) (none : Option δ) Q :=
  hx.bind_of_some (g := fun _ => none) fun _ _ hw => nomatch hw

theorem Follows.of_reading {x : Run α} {o : Option β} (h : ∀ m, T.reading m = ρ → T.Follows lax C ρ x o R) :
    T.Follows lax C ρ x o R := fun m hlive hρ => h m hρ m hlive hρ

theorem follows_ofOption {e : RuntimeError} {o : Option α} : T.Follows lax C ρ (ofOption e o) o Eq := by
  cases o with
  | none => exact follows_fail
  | some v => exact follows_pure rfl

theorem follows_ofExcept {x : Except RuntimeError Value} (h : ∀ v, x = .ok v → v.isObject = false) :
    T.Follows lax C ρ (ofExcept x) x.toOption Shows := by
  cases x with
  | error e => exact follows_fail
  | ok v => exact follows_pure ⟨rfl, h v rfl⟩

theorem follows_log {e : Event} (h : e.isInvocation = true) :
    T.Follows lax C ρ (log e) (some ()) fun _ _ => True :=
  fun _ hlive _ => ⟨⟨(), rfl, trivial⟩, tracked_of_idle hlive (Machine.idle_logged h),
    fun _ _ => ⟨rfl, Machine.idle_logged h⟩⟩

theorem instance_of_some {object : Nat} {i : Instance} (h : m.objects[object]? = some i) :
    instance_ object m = .ok i m := by
  show (ofOption (.invalidObject object) m.objects[object]? : Run Instance) m = _
  rw [h]
  rfl

/-- The object of the scene is one of its class, and it is asked for nothing else. -/
theorem follows_image {f : Instance → Run α} {x : Run α} {o : Option β} (h : ∀ i, i.image = T.own.image → f i = x)
    (hx : T.Follows lax C ρ x o R) : T.Follows lax C ρ (instance_ T.object >>= f) o R := by
  have hrun {n : Machine} (hlive : T.Live n) : (instance_ T.object >>= f) n = x n := by
    obtain ⟨i, hi, himage⟩ := hlive.located.image
    rw [bind_of_ok (instance_of_some hi), h i himage]
  intro m hlive hρ
  have hm := hx m hlive hρ
  unfold Gives at hm ⊢
  rw [hrun hlive]
  cases hxm : x m with
  | error e m' =>
    rw [hxm] at hm
    exact hm
  | ok v m' =>
    rw [hxm] at hm
    obtain ⟨hgiven, htracked, hrepeats⟩ := hm
    exact ⟨hgiven, htracked, fun n hn => by rw [hrun hn.live]; exact hrepeats n hn⟩

end

/-- What a field of the object holds is no object. -/
theorem isObject_of_field (h : T.Live m) {field : String} {v : Value} (hv : m.field? T.object field = some v) :
    v.isObject = false := h.clear field v hv T.leaves rfl

theorem loadField_of_some {object : Nat} {field : String} {v : Value} (h : m.field? object field = some v) :
    loadField object field m = .ok v m := by
  obtain ⟨i, hi, hfield⟩ := Option.bind_eq_some_iff.mp h
  rw [loadField, bind_of_ok (instance_of_some hi), hfield]
  rfl

theorem loadField_of_none {object : Nat} {field : String} (h : m.field? object field = none) :
    ∃ e m', loadField object field m = .error e m' := by
  cases hrun : loadField object field m with
  | ok v m' =>
    obtain ⟨-, hsome⟩ := ends_loadField v m' hrun
    rw [h] at hsome
    cases hsome
  | error e m' => exact ⟨e, m', rfl⟩

/-- A field that holds the value of a member is loaded. -/
theorem follows_loadField {field x : String}
    (h : ∀ m, T.reading m = ρ → ∀ v, m.field? T.object field = some v ↔ T.Reads m x v) :
    T.Follows lax C ρ (loadField T.object field) (ρ x) Shows := by
  rintro m hlive rfl
  unfold Gives
  cases hfield : m.field? T.object field with
  | some v =>
    have hread := (h m rfl v).mp hfield
    rw [loadField_of_some hfield]
    refine ⟨⟨v, reading_eq_some_iff.mpr hread, rfl, isObject_of_field hlive hfield⟩, .refl hlive, fun n hn => ?_⟩
    rw [loadField_of_some ((h n hn.reading_eq v).mpr (hn.toSettles.reads hread))]
    exact ⟨rfl, .refl n⟩
  | none =>
    obtain ⟨e, m', hrun⟩ := loadField_of_none hfield
    rw [hrun]
    refine Or.inr (Option.eq_none_iff_forall_ne_some.mpr fun v hv => ?_)
    rw [(h m rfl v).mpr (reading_eq_some_iff.mp hv)] at hfield
    cases hfield

/-! ### Expressions -/

/-- A call of a method of the instance that the class has no instructions for. -/
theorem follows_callSelf {enter : Enter} {refreshing : List Nat} {name : String} (h : T.own.Lacks name)
    (args : List Value) : T.Follows lax C ρ (callOn enter refreshing name args (.object T.object))
      (Expr.callSelf T.own.image.externs name args) Shows := by
  refine follows_image (fun i himage => by dsimp only; rw [himage, h]) ?_
  rw [Expr.callSelf]
  dsimp only
  split
  · exact (follows_log rfl).seq fun _ _ => follows_pure ⟨rfl, rfl⟩
  · split <;> exact follows_fail

theorem follows_part {enter : Enter} {refreshing : List Nat} {name : String} {v : Value} (hv : v.isObject = false) :
    T.Follows lax C ρ (readOf enter refreshing name v) (v.part name []) Shows := by
  cases v with
  | object id => cases hv
  | string s => exact follows_ofExcept fun w hw => Value.isObject_stringMember hw
  | _ => exact follows_fail

theorem follows_callPart {enter : Enter} {refreshing : List Nat} {name : String} (args : List Value) {v : Value}
    (hv : v.isObject = false) : T.Follows lax C ρ (callOn enter refreshing name args v) (v.part name args) Shows := by
  cases v with
  | object id => cases hv
  | string s => exact follows_ofExcept fun w hw => Value.isObject_stringMember hw
  | _ => exact follows_fail

section

variable {enter : Enter} {a : Activation} {scope : Scope} {index : String → Option Nat} {N : String → Prop}

/-- An activation on the object in which names stand for the object or for its members. -/
structure Faces (T : Setting) (scope : Scope) (index : String → Option Nat) (a : Activation) : Prop where
  receiver : a.receiver = T.object
  sees : T.Sees scope index a
  bare : scope.hasThis = true → ∀ n i, index n = some i → a.args[i]? = none

theorem follows_name (hf : T.Faces scope index a) (hr : T.Reliable lax C ρ enter N) {n : String} {s : Span}
    (hheld : (Expr.name n s).withholds scope = true) (hnames : ∀ x ∈ (Expr.name n s).readNames scope, N x) :
    T.Follows lax C ρ (nameValue enter a index n) ((Expr.name n s).denote scope T.own.image.externs ρ) Shows := by
  rw [Expr.readNames] at hnames
  rw [Expr.denote, ← hf.sees.params]
  rw [← hf.sees.params] at hnames
  unfold nameValue
  split
  · rename_i i hi
    rw [hi]
    -- A parameter is the instance, which the expression withholds, or has no argument.
    cases hthis : scope.hasThis with
    | true =>
      show T.Follows lax C ρ (ofOption _ a.args[i]?) none Shows
      rw [hf.bare hthis n i hi]
      exact follows_fail
    | false =>
      have hmem : n ∈ scope.params := hf.sees.mem_params.mpr (by rw [hi]; rfl)
      simp [Expr.withholds, Scope.isInstance, hthis, hmem] at hheld
  · rename_i hnone
    rw [hnone] at hnames ⊢
    cases hhost : Expr.hostReceivers.contains n with
    | true =>
      rw [if_pos rfl]
      exact follows_fail
    | false =>
      rw [if_neg Bool.false_ne_true]
      have hread := hr n (hnames n (by rw [hhost]; exact List.mem_cons_self)) a.refreshing
      rw [hf.receiver]
      exact hread

theorem combine_strict {op : BinaryOp} {strict : StrictOp} (h : StrictOp.ofBinary? op = some strict) (v : Value)
    (right : Option Value) : v.combine op right = right.bind fun w => (Value.binary strict v w).toOption := by
  cases op <;> cases h <;> rfl

mutual

/-- An expression gives the value that it denotes. -/
theorem follows_evaluate (hf : T.Faces scope index a) (hr : T.Reliable lax C ρ enter N) : ∀ e : Expr,
    e.CallsOnly scope T.own.Lacks (fun n => ∀ K ∈ T.classes, K.Lacks n) → e.withholds scope = true →
      (∀ x ∈ e.readNames scope, N x) →
        T.Follows lax C ρ (evaluate enter a index e) (e.denote scope T.own.image.externs ρ) Shows
  | .literal v _, _, _, _ => by
    rw [evaluate, Expr.denote]
    exact follows_pure ⟨rfl, v.isObject_value⟩
  | .name n s, _, hheld, hnames => by
    rw [evaluate]
    exact follows_name hf hr hheld hnames
  | .this _, _, hheld, _ => nomatch hheld
  | .member object n s, hcalls, hheld, hnames => by
    rw [Expr.CallsOnly] at hcalls
    rw [Expr.readNames] at hnames
    rw [Expr.denote]
    cases hhost : hostName index object with
    | some host =>
      rw [evaluate_host hhost, ← hf.sees.hostName_eq, hhost]
      exact follows_ofExcept fun w hw => Value.isObject_callHost (by simp) hw
    | none =>
      rw [evaluate_member hhost]
      rw [hf.sees.hostName_eq] at hhost
      rw [hhost] at hnames ⊢
      dsimp only at hnames ⊢
      by_cases hself : scope.isInstance object = true
      · rw [if_pos hself] at hnames ⊢
        rw [Scene.evaluate_instance hf.sees hself, pure_bind, hf.receiver]
        exact hr n (hnames n List.mem_cons_self) a.refreshing
      · rw [if_neg hself] at hnames ⊢
        have hobject : object.withholds scope = true := by simpa [Expr.withholds, hself] using hheld
        refine (follows_evaluate hf hr object hcalls hobject hnames).bind ?_
        rintro v _ ⟨rfl, hv⟩
        exact follows_part hv
  | .call callee args _, hcalls, hheld, hnames => by
    rw [Expr.CallsOnly] at hcalls
    rw [Expr.readNames] at hnames
    have hparts : callee.calleeWithholds scope = true ∧ Expr.allWithhold scope args = true := by
      simpa [Expr.withholds] using hheld
    rw [evaluate, Expr.denote]
    refine (follows_target hf hr callee hcalls.1 hparts.1 fun x hx => hnames x (List.mem_append_left _ hx)).bind ?_
    intro call f hcall
    refine (follows_evaluateAll hf hr args hcalls.2 hparts.2 fun x hx => hnames x (List.mem_append_right _ hx)).bind ?_
    rintro vs _ ⟨rfl, hplain⟩
    exact hcall vs hplain
  | .unary op e _, hcalls, hheld, hnames => by
    rw [Expr.CallsOnly] at hcalls
    rw [Expr.readNames] at hnames
    rw [evaluate, Expr.denote]
    refine (follows_evaluate hf hr e hcalls hheld hnames).bind ?_
    rintro v _ ⟨rfl, -⟩
    exact follows_ofExcept fun w hw => Value.isObject_unary hw
  | .binary op l r s, hcalls, hheld, hnames => by
    rw [Expr.CallsOnly] at hcalls
    rw [Expr.readNames] at hnames
    have hparts : l.withholds scope = true ∧ r.withholds scope = true := by simpa [Expr.withholds] using hheld
    have hl := follows_evaluate hf hr l hcalls.1 hparts.1 fun x hx => hnames x (List.mem_append_left _ hx)
    have hright := follows_evaluate hf hr r hcalls.2 hparts.2 fun x hx => hnames x (List.mem_append_right _ hx)
    rw [Expr.denote]
    cases hop : StrictOp.ofBinary? op with
    | some strict =>
      rw [evaluate_strict hop]
      refine hl.bind ?_
      rintro v _ ⟨rfl, -⟩
      rw [combine_strict hop]
      refine hright.bind ?_
      rintro w _ ⟨rfl, -⟩
      exact follows_ofExcept fun u hu => Value.isObject_binary hu
    | none =>
      cases op <;> try cases hop
      · rw [evaluate]
        refine hl.bind ?_
        rintro v _ ⟨rfl, -⟩
        refine follows_ofOption.bind ?_
        rintro b _ rfl
        cases b with
        | true => exact hright
        | false => exact follows_pure ⟨rfl, rfl⟩
      · rw [evaluate]
        refine hl.bind ?_
        rintro v _ ⟨rfl, -⟩
        refine follows_ofOption.bind ?_
        rintro b _ rfl
        cases b with
        | true => exact follows_pure ⟨rfl, rfl⟩
        | false => exact hright
      · rw [evaluate]
        refine hl.bind ?_
        rintro v _ ⟨rfl, hv⟩
        rw [Value.combine]
        split
        · exact hright
        · exact follows_pure ⟨rfl, hv⟩
  | .conditional c t e s, hcalls, hheld, hnames => by
    rw [Expr.CallsOnly] at hcalls
    rw [Expr.readNames] at hnames
    have hparts : c.withholds scope = true ∧ t.withholds scope = true ∧ e.withholds scope = true := by
      simpa [Expr.withholds] using hheld
    have ht := follows_evaluate hf hr t hcalls.2.1 hparts.2.1 fun x hx =>
      hnames x (List.mem_append_right _ (List.mem_append_left _ hx))
    have he := follows_evaluate hf hr e hcalls.2.2 hparts.2.2 fun x hx =>
      hnames x (List.mem_append_right _ (List.mem_append_right _ hx))
    rw [evaluate, Expr.denote]
    refine (follows_evaluate hf hr c hcalls.1 hparts.1 fun x hx => hnames x (List.mem_append_left _ hx)).bind ?_
    rintro v _ ⟨rfl, -⟩
    refine follows_ofOption.bind ?_
    rintro b _ rfl
    cases b with
    | true => exact ht
    | false => exact he
  | .lambda _ _ _ _, _, _, _ => by
    rw [evaluate, Expr.denote]
    exact follows_fail

/-- What a call calls gives what it denotes, whatever the arguments are. -/
theorem follows_target (hf : T.Faces scope index a) (hr : T.Reliable lax C ρ enter N) : ∀ e : Expr,
    e.CalleeOnly scope T.own.Lacks (fun n => ∀ K ∈ T.classes, K.Lacks n) → e.calleeWithholds scope = true →
      (∀ x ∈ e.calleeNames scope, N x) →
        T.Follows lax C ρ (target enter a index e) (e.denoteCallee scope T.own.image.externs ρ) fun call f =>
          ∀ args, (∀ v ∈ args, v.isObject = false) → T.Follows lax C ρ (call args) (f args) Shows
  | .name n s, hcalls, _, _ => by
    rw [Expr.CalleeOnly] at hcalls
    rw [target, Expr.denoteCallee, hf.sees.params]
    split
    · refine follows_pure fun args _ => ?_
      rw [hf.receiver]
      exact follows_callSelf hcalls args
    · exact follows_fail
  | .member object n s, hcalls, hheld, hnames => by
    rw [Expr.CalleeOnly] at hcalls
    rw [Expr.calleeNames] at hnames
    obtain ⟨hobject, hcall⟩ := hcalls
    rw [target, Expr.denoteCallee]
    cases hhost : hostName index object with
    | some host =>
      rw [← hf.sees.hostName_eq, hhost]
      exact follows_pure fun args hargs => follows_ofExcept fun w hw => Value.isObject_callHost hargs hw
    | none =>
      rw [hf.sees.hostName_eq] at hhost
      rw [hhost] at hnames ⊢
      dsimp only at hnames ⊢
      by_cases hself : scope.isInstance object = true
      · rw [if_pos hself] at hcall ⊢
        rw [Scene.evaluate_instance hf.sees hself, pure_bind, hf.receiver]
        exact follows_pure fun args _ => follows_callSelf hcall args
      · rw [if_neg hself] at hnames ⊢
        have hwithheld : object.withholds scope = true := by simpa [Expr.calleeWithholds, hself] using hheld
        rw [Option.map_eq_bind]
        refine (follows_evaluate hf hr object hobject hwithheld hnames).bind ?_
        rintro v _ ⟨rfl, hv⟩
        exact follows_pure fun args _ => follows_callPart args hv
  | .literal .., _, _, _ | .this _, _, _, _ | .call .., _, _, _ | .unary .., _, _, _ | .binary .., _, _, _
  | .conditional .., _, _, _ | .lambda .., _, _, _ => by
    rw [target, Expr.denoteCallee]
    · exact follows_fail
    all_goals nofun

/-- Arguments give the values that they denote. -/
theorem follows_evaluateAll (hf : T.Faces scope index a) (hr : T.Reliable lax C ρ enter N) : ∀ es : List Expr,
    Expr.AllCallOnly scope T.own.Lacks (fun n => ∀ K ∈ T.classes, K.Lacks n) es → Expr.allWithhold scope es = true →
      (∀ x ∈ Expr.allNames scope es, N x) →
        T.Follows lax C ρ (evaluateAll enter a index es) (Expr.denoteAll scope T.own.image.externs ρ es) fun vs ws =>
          vs = ws ∧ ∀ v ∈ vs, v.isObject = false
  | [], _, _, _ => by
    rw [evaluateAll, Expr.denoteAll]
    exact follows_pure ⟨rfl, nofun⟩
  | e :: es, hcalls, hheld, hnames => by
    rw [Expr.AllCallOnly] at hcalls
    rw [Expr.allNames] at hnames
    have hparts : e.withholds scope = true ∧ Expr.allWithhold scope es = true := by
      simpa [Expr.allWithhold] using hheld
    rw [evaluateAll, Expr.denoteAll]
    refine (follows_evaluate hf hr e hcalls.1 hparts.1 fun x hx => hnames x (List.mem_append_left _ hx)).bind ?_
    rintro v _ ⟨rfl, hv⟩
    rw [Option.map_eq_bind]
    refine (follows_evaluateAll hf hr es hcalls.2 hparts.2 fun x hx => hnames x (List.mem_append_right _ hx)).bind ?_
    rintro vs _ ⟨rfl, hplain⟩
    refine follows_pure ⟨rfl, fun w hw => ?_⟩
    obtain rfl | hw := List.mem_cons.mp hw
    · exact hv
    · exact hplain w hw

end

end

end Setting

end Reactive
