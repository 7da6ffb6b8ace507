import Reactive.Proofs.Harmless
import Reactive.Proofs.Propagation

/-!
# Reactive.Proofs.Storing — what writing a reactive property leads through

* `Scene.Computes`: an operand is computed by harmless methods.
* `Scene.Recomputed`, `Scene.Refreshed`: what follows for a cached value, and for any derived value, after a write.
* `Scene.Written`: the machines that a write leads through: it changes nothing, or it is announced, stored and announced,
  and everything that depends on it follows in the order of propagation.
* `Scene.written_setProperty`: a write that succeeds leads through them.
-/

namespace Reactive

open Stateful Run

/-- The machine of which some more things were observed. -/
def Machine.loggedAll (m : Machine) (es : List Event) : Machine := { m with events := m.events ++ es }

namespace Scene

variable (S : Scene) (fuel : Nat)

/-- An operand of a derived value has a value, which harmless methods compute. -/
structure Computes (value : Operand) (m : Machine) (fresh : Value) (m' : Machine) : Prop where
  run : ∃ depth ≤ maxDepth, ∃ a : Activation, a.receiver = S.object ∧
    operandValue (enter fuel depth) a [] value m = .ok fresh m'
  drift : S.Drift fuel m m'
  admitted : S.Admits S.object fresh

/-- The machine in which a lazy value counts as computed. -/
def flagged (slot : DerivedSlot) (m : Machine) : Machine :=
  match slot.flag with
  | none => m
  | some flag => m.store S.object flag (.bool true)

/-- A cached value is computed again: it stays as it is, or is announced and stored. -/
inductive Recomputed (d : DerivedProperty) (m : Machine) : Machine → Prop
  | kept {slot : DerivedSlot} {value : Operand} {fresh current : Value} {m' : Machine} (slotted : d.slot = some slot)
    (computed : S.model.operand? d = some value) (run : S.Computes fuel value (S.flagged slot m) fresh m')
    (loaded : m'.field? S.object slot.value = some current) (equal : current.equals fresh = true) : Recomputed d m m'
  | stored {slot : DerivedSlot} {value : Operand} {fresh current : Value} {m₁ m' : Machine}
    (slotted : d.slot = some slot) (computed : S.model.operand? d = some value)
    (run : S.Computes fuel value (S.flagged slot m) fresh m₁)
    (loaded : m₁.field? S.object slot.value = some current) (unequal : current.equals fresh = false)
    (raised : S.Raised fuel d.name ((m₁.logged (.changing S.object d.name)).store S.object slot.value fresh) m') :
    Recomputed d m m'

/-- What follows for a derived value that a write affects. -/
inductive Refreshed (d : DerivedProperty) (m m' : Machine) : Prop
  | announced (uncached : d.cache = .disabled) (raised : S.Raised fuel d.name m m')
  | recomputed (cached : d.cache.isCached = true) (run : S.Recomputed fuel d m m')

/-- What follows for derived values, one after another. -/
inductive RefreshedAll : List DerivedProperty → Machine → Machine → Prop
  | nil (m : Machine) : RefreshedAll [] m m
  | cons {d : DerivedProperty} {ds : List DerivedProperty} {m m₁ m₂ : Machine} (first : S.Refreshed fuel d m m₁)
    (rest : RefreshedAll ds m₁ m₂) : RefreshedAll (d :: ds) m m₂

/-- The announcements before the values computed at every read change. -/
def changings (ds : List DerivedProperty) : List Event :=
  (ds.filter (·.cache = .disabled)).map fun d => .changing S.object d.name

/-- The machines that a write to a reactive property leads through. -/
inductive Written (p : MutableProperty) (v : Value) (m : Machine) : Machine → Prop
  | unchanged {current : Value} (checked : p.skipsEqualityCheck = false)
    (loaded : m.field? S.object p.slot = some current) (equal : current.equals v = true) : Written p v m m
  | changed {m₁ m₂ m₃ m' : Machine}
    (unequal : p.skipsEqualityCheck = false → ∃ current, m.field? S.object p.slot = some current ∧
      current.equals v = false)
    (before : S.Drift fuel (m.logged (.changing S.object p.name)) m₁)
    (raised : S.Raised fuel p.name ((m₁.loggedAll (S.changings (S.model.affected p))).store S.object p.slot v) m₂)
    (behind : S.Drift fuel m₂ m₃) (follow : S.RefreshedAll fuel (S.model.affected p) m₃ m') : Written p v m m'

variable {S fuel} {m m' : Machine}

/-! ### The object stays what it is -/

theorem Live.loggedAll (h : S.Live m) (es : List Event) : S.Live (m.loggedAll es) := h.of_objects rfl

theorem Live.flagged (h : S.Live m) (slot : DerivedSlot) : S.Live (S.flagged slot m) := by
  unfold Scene.flagged
  split
  · exact h
  · exact h.store fun _ _ => rfl

theorem Recomputed.live {d : DerivedProperty} (h : S.Recomputed fuel d m m') (hlive : S.Live m) : S.Live m' := by
  cases h with
  | kept _ _ run _ _ => exact (hlive.flagged _).drift run.drift
  | stored _ _ run _ _ raised =>
    exact raised.live ((((hlive.flagged _).drift run.drift).logged _).store run.admitted)

theorem Refreshed.live {d : DerivedProperty} (h : S.Refreshed fuel d m m') (hlive : S.Live m) : S.Live m' := by
  cases h with
  | announced _ raised => exact raised.live hlive
  | recomputed _ run => exact run.live hlive

theorem RefreshedAll.live {ds : List DerivedProperty} (h : S.RefreshedAll fuel ds m m') (hlive : S.Live m) : S.Live m' := by
  induction h with
  | nil m => exact hlive
  | cons first _ ih => exact ih (first.live hlive)

theorem Written.live {p : MutableProperty} {v : Value} (h : S.Written fuel p v m m') (hlive : S.Live m)
    (hv : S.Admits S.object v) : S.Live m' := by
  cases h with
  | unchanged => exact hlive
  | changed _ before raised behind follow =>
    exact follow.live ((raised.live ((((hlive.logged _).drift before).loggedAll _).store hv)).drift behind)

/-! ### Only the object is concerned -/

theorem Confined.flagged (slot : DerivedSlot) (m : Machine) : S.Confined m (S.flagged slot m) := by
  unfold Scene.flagged
  split
  · exact .refl m
  · exact .store m _ _

theorem Recomputed.confined (hplain : S.plain) {d : DerivedProperty} (h : S.Recomputed fuel d m m') :
    S.Confined m m' := by
  cases h with
  | kept _ _ run _ _ => exact (Confined.flagged _ m).trans (run.drift.confined hplain)
  | stored _ _ run _ _ raised =>
    refine Confined.trans ?_ (raised.confined hplain)
    exact ((Confined.flagged _ m).trans (run.drift.confined hplain)).trans ((Confined.logged _ _).trans (.store _ _ _))

theorem Refreshed.confined (hplain : S.plain) {d : DerivedProperty} (h : S.Refreshed fuel d m m') : S.Confined m m' := by
  cases h with
  | announced _ raised => exact raised.confined hplain
  | recomputed _ run => exact run.confined hplain

theorem RefreshedAll.confined (hplain : S.plain) {ds : List DerivedProperty} (h : S.RefreshedAll fuel ds m m') :
    S.Confined m m' := by
  induction h with
  | nil m => exact .refl m
  | cons first _ ih => exact (first.confined hplain).trans ih

theorem Written.confined (hplain : S.plain) {p : MutableProperty} {v : Value} (h : S.Written fuel p v m m') :
    S.Confined m m' := by
  cases h with
  | unchanged => exact .refl m
  | @changed m₁ m₂ m₃ _ _ before raised behind follow =>
    have hbefore : S.Confined m m₁ := (Confined.logged m _).trans (before.confined hplain)
    have hloggedAll : S.Confined m₁ (m₁.loggedAll (S.changings (S.model.affected p))) := .of_same (fun _ _ => rfl) rfl
    have hraised : S.Confined m₁ m₂ := (hloggedAll.trans (.store _ _ _)).trans (raised.confined hplain)
    exact (hbefore.trans hraised).trans ((behind.confined hplain).trans (follow.confined hplain))

/-! ### Statements that go on -/

/-- Statements that end well go on to the next one, with a property of what is kept under names and of the machine. -/
def Goes (x : Run Flow) (m : Machine) (P : Table Value → Machine → Prop) : Prop :=
  Ends x m fun flow m' => ∃ names, flow = .next names ∧ P names m'

section

variable {enter : Enter} {a : Activation} {declares : String → Bool} {params : List String}
  {P Q : Table Value → Machine → Prop}

theorem Goes.imp {x : Run Flow} (h : Goes x m P) (hPQ : ∀ names m', P names m' → Q names m') : Goes x m Q := by
  refine Ends.imp h ?_
  rintro flow m' ⟨names, hflow, hP⟩
  exact ⟨names, hflow, hPQ names m' hP⟩

theorem goes_nil {names : Table Value} (h : P names m) : Goes (interpretAll enter a declares params names []) m P := by
  rw [interpretAll]
  exact ends_pure ⟨names, rfl, h⟩

theorem goes_cons {names : Table Value} {s : Statement} {ss : List Statement}
    (hs : Goes (interpret enter a declares params names s) m P)
    (hss : ∀ names m', P names m' → Goes (interpretAll enter a declares params names ss) m' Q) :
    Goes (interpretAll enter a declares params names (s :: ss)) m Q := by
  rw [interpretAll]
  refine hs.bind ?_
  rintro _ m' ⟨names', rfl, h⟩
  exact hss names' m' h

theorem goes_append {names : Table Value} {ss ts : List Statement}
    (hs : Goes (interpretAll enter a declares params names ss) m P)
    (hts : ∀ names m', P names m' → Goes (interpretAll enter a declares params names ts) m' Q) :
    Goes (interpretAll enter a declares params names (ss ++ ts)) m Q := by
  have happend : interpretAll enter a declares params names (ss ++ ts) =
      interpretAll enter a declares params names ss >>= fun flow =>
        flow.follow fun names => interpretAll enter a declares params names ts := by
    clear hs
    induction ss generalizing names with
    | nil =>
      rw [List.nil_append, interpretAll, pure_bind]
      rfl
    | cons s ss ih =>
      rw [List.cons_append, interpretAll, interpretAll, bind_assoc]
      congr 1
      funext flow
      cases flow with
      | next names => exact ih
      | returned v => rw [Flow.follow, Flow.follow, pure_bind]; rfl
  rw [happend]
  refine hs.bind ?_
  rintro _ m' ⟨names', rfl, h⟩
  exact hts names' m' h

theorem goes_interpretBody {P : Machine → Prop} {ss : List Statement}
    (h : Goes (interpretAll enter a declares params [] ss) m fun _ m' => P m') :
    Ends (interpretBody enter a declares params ss) m fun _ m' => P m' := by
  refine h.bind ?_
  rintro _ m' ⟨names, rfl, h⟩
  exact ends_pure h

end

/-! ### Calls of generated methods -/

/-- A call of a generated method of the object does what the statements of the method say. -/
theorem ends_invoke_generated {depth : Nat} (hat : S.At S.object S.own m) {signature : MethodSignature}
    {body : List Statement} (hmethod : S.model.HasMethod signature body)
    (hunique : ∀ signature' body', S.model.HasMethod signature' body' → signature'.name = signature.name →
      signature' = signature ∧ body' = body)
    (hlocals : Statement.localCountAll body < UInt16.size) {args : List Value} {refreshing : List Nat}
    {P : Value → Machine → Prop} (h : ∀ k < depth, ∀ method, Ends (interpretBody (enter fuel k)
      ⟨method, S.object, args, refreshing⟩ S.own.declaration.implements (signature.params.map Prod.fst) body) m P) :
    Ends (invoke (enter fuel depth) refreshing S.object signature.name args) m P := by
  refine ends_instance.bind ?_
  rintro i m ⟨rfl, hi⟩
  dsimp only
  rw [hat.image_eq hi]
  obtain ⟨method, hfind⟩ := Table.has_iff.mp (S.own_generated.1.present signature body hmethod)
  rw [hfind]
  dsimp only
  obtain ⟨-, ⟨signature', body', hmethod', hname, hcompiled⟩ | ⟨-, hother⟩⟩ := S.own_generated.1.methods _ _ hfind
  · obtain ⟨rfl, rfl⟩ := hunique signature' body' hmethod' hname
    have hsized := S.tame.sized _ S.mem _ _ (Or.inl hfind)
    have hsim := (hcompiled.realizes hmethod' hsized hlocals).simulates
    cases depth with
    | zero => exact ends_throw
    | succ k =>
      intro v m' hrun
      obtain heq | ⟨-, m₁, heq⟩ := body_or_exhausted (hsim (enter fuel k) S.object args refreshing) fuel m
      · exact h k (Nat.lt_succ_self k) method v m' (heq ▸ hrun)
      · rw [show Run.enter fuel (k + 1) ⟨method, S.object, args, refreshing⟩ m = _ from heq] at hrun
        cases hrun
  · exact absurd rfl (hother signature body hmethod)

/-- Only the setter of a reactive property has its name. -/
theorem setter_unique {p : MutableProperty} (hp : p ∈ S.model.mutableProperties) {signature : MethodSignature}
    {body : List Statement} (h : S.model.HasMethod signature body) (hname : signature.name = Naming.setter p.name) :
    signature = .setter p.name p.type ∧ body = [.callMethod (Naming.raiseAndSet p.name) true] := by
  cases h with
  | mutableSetter q mem =>
    obtain rfl := List.inj_on_of_nodup_map S.own_generated.2.distinct mem hp (Naming.setter_inj hname)
    exact ⟨rfl, rfl⟩
  | raiseAndSet q mem => exact absurd hname.symm (Naming.setter_ne_raiseAndSet _ _)
  | mutableGetter q mem => exact absurd hname (Naming.getter_ne_setter _ _)
  | derivedGetter d mem => exact absurd hname (Naming.getter_ne_setter _ _)
  | recompute d mem => exact absurd hname.symm (Naming.setter_ne_recompute _ _)
  | commandGetter c mem => exact absurd hname (Naming.getter_ne_setter _ _)
  | init => cases S.own_generated.1.init _ _ (.mutableSetter p hp) hname.symm

/-- Only the method that stores a reactive property has its name. -/
theorem raiseAndSet_unique {p : MutableProperty} (hp : p ∈ S.model.mutableProperties) {signature : MethodSignature}
    {body : List Statement} (h : S.model.HasMethod signature body) (hname : signature.name = Naming.raiseAndSet p.name) :
    signature = ⟨Naming.raiseAndSet p.name, .raiseAndSet p.name, [("value", p.type)], none⟩ ∧
      body = S.model.raiseAndSetBody p := by
  cases h with
  | raiseAndSet q mem =>
    obtain rfl := List.inj_on_of_nodup_map S.own_generated.2.distinct mem hp (Naming.raiseAndSet_inj hname)
    exact ⟨rfl, rfl⟩
  | mutableSetter q mem => exact absurd hname (Naming.setter_ne_raiseAndSet _ _)
  | mutableGetter q mem => exact absurd hname (Naming.getter_ne_raiseAndSet _ _)
  | derivedGetter d mem => exact absurd hname (Naming.getter_ne_raiseAndSet _ _)
  | recompute d mem => exact absurd hname.symm (Naming.raiseAndSet_ne_recompute _ _)
  | commandGetter c mem => exact absurd hname (Naming.getter_ne_raiseAndSet _ _)
  | init => cases S.own_generated.1.init _ _ (.raiseAndSet p hp) hname.symm

/-- Only the method that recomputes a derived value has its name. -/
theorem recompute_unique (ho : S.model.Orderly) {d : DerivedProperty} (hd : d ∈ S.model.derived) {slot : DerivedSlot}
    (hslot : d.slot = some slot) {value : Operand} (hvalue : S.model.operand? d = some value)
    (hown : d.isObservable = false) {signature : MethodSignature} {body : List Statement}
    (h : S.model.HasMethod signature body) (hname : signature.name = Naming.recompute d.name) :
    signature = ⟨Naming.recompute d.name, .recompute d.name, [], none⟩ ∧ body = ClassModel.recomputeBody d slot value := by
  cases h with
  | recompute d' mem slot' hslot' value' hvalue' _ =>
    obtain rfl := List.inj_on_of_nodup_map ho.distinct mem hd (Naming.recompute_inj hname)
    rw [hslot] at hslot'
    rw [hvalue] at hvalue'
    cases hslot'
    cases hvalue'
    exact ⟨rfl, rfl⟩
  | raiseAndSet q mem => exact absurd hname (Naming.raiseAndSet_ne_recompute _ _)
  | mutableSetter q mem => exact absurd hname (Naming.setter_ne_recompute _ _)
  | mutableGetter q mem => exact absurd hname (Naming.getter_ne_recompute _ _)
  | derivedGetter d mem => exact absurd hname (Naming.getter_ne_recompute _ _)
  | commandGetter c mem => exact absurd hname (Naming.getter_ne_recompute _ _)
  | init => cases S.own_generated.1.init _ _ (.recompute d hd slot hslot value hvalue hown) hname.symm

/-! ### Recomputing -/

/-- The value of an operand is computed by harmless methods. -/
theorem ends_operandValue {depth : Nat} (hdepth : depth ≤ maxDepth) {a : Activation} (ha : a.receiver = S.object)
    (hlive : S.Live m) {d : DerivedProperty} (hd : d ∈ S.model.derived) {value : Operand}
    (hvalue : S.model.operand? d = some value) :
    Ends (operandValue (enter fuel depth) a [] value) m fun fresh m' => S.Computes fuel value m fresh m' := by
  intro fresh m' hrun
  have hcalm := calm_operandValue (a := a) S.mem (fun _ => rfl) (S.enters fuel depth) S.generated hd hvalue
  rw [ha] at hcalm
  obtain ⟨hdrift, hadmitted⟩ := hcalm m hlive.located hlive.clear fresh m' hrun
  exact ⟨⟨depth, hdepth, a, ha, hrun⟩, hdrift, hadmitted⟩

/-- The statement that stores a value if it differs. -/
theorem goes_setIfChanged {depth : Nat} (hdepth : depth ≤ maxDepth) {a : Activation} (ha : a.receiver = S.object)
    (hrefreshing : a.refreshing = []) {declares : String → Bool} {names : Table Value} {d : DerivedProperty}
    (hd : d ∈ S.model.derived) {slot : DerivedSlot} (hslot : d.slot = some slot) {value : Operand}
    (hvalue : S.model.operand? d = some value) (hlive : S.Live m) :
    Goes (interpret (enter fuel depth) a declares [] names (.setIfChanged slot.value value d.name)) (S.flagged slot m)
      fun _ m' => S.Recomputed fuel d m m' := by
  rw [interpret]
  refine (ends_operandValue hdepth ha (hlive.flagged slot) hd hvalue).bind fun fresh m₁ hrun => ?_
  rw [ha]
  refine ends_loadField.bind ?_
  rintro current m₁ ⟨rfl, hcurrent⟩
  dsimp only
  cases hequal : current.equals fresh with
  | true => exact ends_pure ⟨_, rfl, .kept hslot hvalue hrun hcurrent hequal⟩
  | false =>
    have hlive₁ : S.Live m₁ := (hlive.flagged slot).drift hrun.drift
    refine ends_log.bind ?_
    rintro _ _ rfl
    refine ends_storeField.bind ?_
    rintro _ _ ⟨rfl, -⟩
    rw [hrefreshing]
    refine (ends_raiseChanged (S.enters fuel depth) ((hlive₁.logged _).store hrun.admitted) d.name).bind
      fun _ m' hraised => ?_
    exact ends_pure ⟨_, rfl, .stored hslot hvalue hrun hcurrent hequal hraised⟩

/-- The method that recomputes a cached value. -/
theorem ends_recompute (ho : S.model.Orderly) {depth : Nat} (hdepth : depth ≤ maxDepth) (hlive : S.Live m)
    {d : DerivedProperty} (hd : d ∈ S.model.derived) (hcached : d.cache.isCached = true)
    (hown : d.isObservable = false) (args : List Value) :
    Ends (invoke (enter fuel depth) [] S.object (Naming.recompute d.name) args) m
      fun _ m' => S.Recomputed fuel d m m' := by
  obtain ⟨hsome, hrecompute⟩ := (S.own_generated.2.derived d hd).cached hcached
  obtain ⟨slot, hslot⟩ := Option.isSome_iff_exists.mp hsome
  obtain ⟨value, hvalue⟩ : ∃ value, S.model.operand? d = some value := by
    obtain ⟨recompute, hr⟩ := Option.isSome_iff_exists.mp hrecompute
    exact ⟨_, by rw [ClassModel.operand?, hr]; rfl⟩
  refine ends_invoke_generated hlive.located (.recompute d hd slot hslot value hvalue hown)
    (fun signature body h hname => recompute_unique ho hd hslot hvalue hown h hname) ?_ fun k hk method => ?_
  · rw [ClassModel.recomputeBody]
    cases slot.flag <;> exact (show 1 < UInt16.size by decide)
  · have hk : k ≤ maxDepth := by omega
    refine goes_interpretBody ?_
    rw [ClassModel.recomputeBody]
    refine goes_append (P := fun _ m' => m' = S.flagged slot m) ?_ ?_
    · unfold flagged
      cases slot.flag with
      | none => exact goes_nil rfl
      | some flag =>
        refine goes_cons ?_ fun names m' h => goes_nil h
        rw [interpret, operandValue, pure_bind]
        refine ends_storeField.bind ?_
        rintro _ _ ⟨rfl, -⟩
        exact ends_pure ⟨_, rfl, rfl⟩
    · rintro names _ rfl
      exact goes_cons (goes_setIfChanged hk rfl rfl hd hslot hvalue hlive) fun names m' h => goes_nil h

/-! ### Writing -/

/-- What a write affects is no observable helper. -/
theorem own_of_affected (ho : S.model.Orderly) {p : MutableProperty} {d : DerivedProperty}
    (h : d ∈ S.model.affected p) : d ∈ S.model.derived ∧ d.isObservable = false := by
  have hdepends := (ClassModel.mem_affected_iff S.own_generated.2 ho).mp h
  refine ⟨hdepends.mem, ?_⟩
  by_contra hobservable
  have hnone := (S.own_generated.2.derived d hdepends.mem).helper (by simpa using hobservable)
  cases hdepends with
  | direct _ hsource =>
    rw [hnone] at hsource
    cases hsource
  | through _ _ hsource =>
    rw [hnone] at hsource
    cases hsource

/-- What follows for one derived value. -/
theorem goes_refresh (ho : S.model.Orderly) {depth : Nat} (hdepth : depth ≤ maxDepth) {a : Activation}
    (ha : a.receiver = S.object) (hrefreshing : a.refreshing = []) {declares : String → Bool} {params : List String}
    {names : Table Value} {d : DerivedProperty} (hd : d ∈ S.model.derived) (hown : d.isObservable = false)
    (hlive : S.Live m) :
    Goes (interpret (enter fuel depth) a declares params names (ClassModel.refresh d)) m
      fun _ m' => S.Refreshed fuel d m m' := by
  unfold ClassModel.refresh
  split
  · rename_i hcached
    simp only [interpret, ha, hrefreshing, pure_bind, Bool.false_eq_true, if_false]
    refine ((ends_recompute ho hdepth hlive hd hcached hown []).discard
      (R := fun _ m' => S.Recomputed fuel d m m')).bind fun _ m' h => ?_
    exact ends_pure ⟨_, rfl, .recomputed hcached h⟩
  · rename_i hcached
    rw [interpret, ha, hrefreshing]
    refine (ends_raiseChanged (S.enters fuel depth) hlive d.name).bind fun _ m' h => ?_
    exact ends_pure ⟨_, rfl, .announced (by simpa [CachePolicy.isCached] using hcached) h⟩

/-- What follows for derived values. -/
theorem goes_refreshAll (ho : S.model.Orderly) {depth : Nat} (hdepth : depth ≤ maxDepth) {a : Activation}
    (ha : a.receiver = S.object) (hrefreshing : a.refreshing = []) {declares : String → Bool} {params : List String} :
    ∀ (ds : List DerivedProperty) {names : Table Value} {m : Machine},
      (∀ d ∈ ds, d ∈ S.model.derived ∧ d.isObservable = false) → S.Live m →
        Goes (interpretAll (enter fuel depth) a declares params names (ds.map ClassModel.refresh)) m
          fun _ m' => S.RefreshedAll fuel ds m m'
  | [], _, m, _, _ => goes_nil (.nil m)
  | d :: ds, names, m, hds, hlive => by
    obtain ⟨hd, hown⟩ := hds d List.mem_cons_self
    rw [List.map_cons]
    refine goes_cons (goes_refresh ho hdepth ha hrefreshing hd hown hlive) fun names m₁ h₁ => ?_
    have hrest : ∀ d' ∈ ds, d' ∈ S.model.derived ∧ d'.isObservable = false :=
      fun d' hd' => hds d' (List.mem_cons_of_mem _ hd')
    exact (goes_refreshAll ho hdepth ha hrefreshing ds hrest (h₁.live hlive)).imp fun names' m₂ h₂ => .cons h₁ h₂

/-- The announcements before the change of values that are computed at every read. -/
theorem goes_changings {enter : Enter} {a : Activation} (ha : a.receiver = S.object) {declares : String → Bool}
    {params : List String} {names : Table Value} : ∀ (ds : List DerivedProperty) {m : Machine},
      Goes (interpretAll enter a declares params names (ds.map fun d => .raiseChanging d.name)) m
        fun names' m' => names' = names ∧ m' = m.loggedAll (ds.map fun d => .changing S.object d.name)
  | [], m => goes_nil ⟨rfl, by rw [Machine.loggedAll, List.map_nil, List.append_nil]⟩
  | d :: ds, m => by
    rw [List.map_cons]
    refine goes_cons (P := fun names' m' => names' = names ∧ m' = m.logged (.changing S.object d.name)) ?_ ?_
    · rw [interpret, ha]
      refine ends_log.bind ?_
      rintro _ _ rfl
      exact ends_pure ⟨_, rfl, rfl, rfl⟩
    · rintro _ _ ⟨rfl, rfl⟩
      refine (goes_changings ha ds).imp ?_
      rintro _ _ ⟨rfl, rfl⟩
      refine ⟨rfl, ?_⟩
      simp only [Machine.loggedAll, Machine.logged, List.map_cons, List.append_assoc, List.singleton_append]

/-- A change hook that the class implements only drifts; another one is not called. -/
theorem goes_callHook {depth : Nat} {a : Activation} (ha : a.receiver = S.object)
    (hargs : ∀ v ∈ a.args, S.Admits S.object v) {params : List String} {names : Table Value}
    (hold : S.Admits S.object (names.kept "oldValue")) {property hook : String}
    (hhook : hook ∈ [Naming.changingHook property, Naming.changedHook property]) (hlive : S.Live m) :
    Goes (interpret (enter fuel depth) a S.own.declaration.implements params names (.callHook hook)) m
      fun names' m' => names' = names ∧ S.Drift fuel m m' := by
  rw [interpret, ha]
  split
  · rename_i himpl
    refine ends_ofOption.bind ?_
    rintro value m ⟨rfl, hvalue⟩
    have hgiven : ∀ v ∈ [names.kept "oldValue", value], S.Admits S.object v := by
      simpa [hold] using hargs value (List.mem_of_getElem? hvalue)
    have hcalm := calm_callHook (S.enters fuel depth) S.generated a.refreshing hhook himpl hgiven
    refine (hcalm m hlive.located hlive.clear).bind fun _ m' h => ?_
    exact ends_pure ⟨_, rfl, rfl, h.1⟩
  · exact ends_pure ⟨_, rfl, rfl, .refl m⟩

/-- What a write does that is not checked, or changes something. -/
theorem goes_write (ho : S.model.Orderly) {depth : Nat} (hdepth : depth ≤ maxDepth) {a : Activation}
    (ha : a.receiver = S.object) (hrefreshing : a.refreshing = []) {v : Value} (hv : a.args = [v])
    (hadmitted : S.Admits S.object v) {params : List String} {names : Table Value} {p : MutableProperty}
    (hlive : S.Live m) :
    Goes (interpretAll (enter fuel depth) a S.own.declaration.implements params names
      ([.captureOld p.slot, .raiseChanging p.name, .callHook (Naming.changingHook p.name)]
        ++ ((S.model.affected p).filter (·.cache = .disabled)).map (fun d => .raiseChanging d.name)
        ++ [.storeValue p.slot, .raiseChanged p.name, .callHook (Naming.changedHook p.name)]
        ++ (S.model.affected p).map ClassModel.refresh)) m
      fun _ m' => ∃ m₁ m₂ m₃, S.Drift fuel (m.logged (.changing S.object p.name)) m₁ ∧
        S.Raised fuel p.name ((m₁.loggedAll (S.changings (S.model.affected p))).store S.object p.slot v) m₂ ∧
        S.Drift fuel m₂ m₃ ∧ S.RefreshedAll fuel (S.model.affected p) m₃ m' := by
  have hargs : ∀ w ∈ a.args, S.Admits S.object w := by simpa [hv] using hadmitted
  have hbefore : Goes (interpretAll (enter fuel depth) a S.own.declaration.implements params names
      [.captureOld p.slot, .raiseChanging p.name, .callHook (Naming.changingHook p.name)]) m
        fun names' m' => S.Admits S.object (names'.kept "oldValue") ∧
          S.Drift fuel (m.logged (.changing S.object p.name)) m' := by
    refine goes_cons (P := fun names' m' => S.Admits S.object (names'.kept "oldValue") ∧ m' = m) ?_ ?_
    · rw [interpret, ha]
      refine ends_loadField.bind ?_
      rintro current m ⟨rfl, hcurrent⟩
      refine ends_pure ⟨_, rfl, ?_, rfl⟩
      rw [Table.kept, Table.find?_put_self]
      exact hlive.clear _ _ hcurrent
    · rintro names m ⟨hold, rfl⟩
      refine goes_cons (P := fun names' m' => S.Admits S.object (names'.kept "oldValue") ∧
        m' = m.logged (.changing S.object p.name)) ?_ ?_
      · rw [interpret, ha]
        refine ends_log.bind ?_
        rintro _ _ rfl
        exact ends_pure ⟨_, rfl, hold, rfl⟩
      · rintro names _ ⟨hold, rfl⟩
        refine goes_cons (goes_callHook ha hargs hold List.mem_cons_self (hlive.logged _)) ?_
        rintro _ m' ⟨rfl, h⟩
        exact goes_nil ⟨hold, h⟩
  have hbehind {m₁ : Machine} (hlive₁ : S.Live m₁) {names : Table Value}
      (hold : S.Admits S.object (names.kept "oldValue")) :
      Goes (interpretAll (enter fuel depth) a S.own.declaration.implements params names
        [.storeValue p.slot, .raiseChanged p.name, .callHook (Naming.changedHook p.name)]) m₁
          fun _ m' => ∃ m₂, S.Raised fuel p.name (m₁.store S.object p.slot v) m₂ ∧ S.Drift fuel m₂ m' := by
    have hstored : S.Live (m₁.store S.object p.slot v) := hlive₁.store hadmitted
    refine goes_cons (P := fun names' m' => names' = names ∧ m' = m₁.store S.object p.slot v) ?_ ?_
    · rw [interpret, argument, hv, ha]
      refine ends_ofOption.bind ?_
      rintro _ m₁ ⟨rfl, ⟨⟩⟩
      refine ends_storeField.bind ?_
      rintro _ _ ⟨rfl, -⟩
      exact ends_pure ⟨_, rfl, rfl, rfl⟩
    · rintro names _ ⟨rfl, rfl⟩
      refine goes_cons (P := fun names' m' => names' = names ∧
        S.Raised fuel p.name (m₁.store S.object p.slot v) m') ?_ ?_
      · rw [interpret, ha, hrefreshing]
        refine (ends_raiseChanged (S.enters fuel depth) hstored p.name).bind fun _ m' h => ?_
        exact ends_pure ⟨_, rfl, rfl, h⟩
      · rintro names m₂ ⟨rfl, hraised⟩
        refine goes_cons (goes_callHook ha hargs hold (List.mem_cons_of_mem _ List.mem_cons_self)
          (hraised.live hstored)) ?_
        rintro _ m' ⟨rfl, h⟩
        exact goes_nil ⟨m₂, hraised, h⟩
  rw [List.append_assoc, List.append_assoc]
  refine goes_append hbefore ?_
  rintro names m₁ ⟨hold, h₁⟩
  have hlive₁ : S.Live m₁ := (hlive.logged _).drift h₁
  refine goes_append (goes_changings ha _) ?_
  rintro _ _ ⟨rfl, rfl⟩
  refine goes_append (hbehind (hlive₁.loggedAll _) hold) ?_
  rintro names m₃ ⟨m₂, hraised, h₃⟩
  have hlive₃ : S.Live m₃ := (hraised.live ((hlive₁.loggedAll _).store hadmitted)).drift h₃
  refine (goes_refreshAll ho hdepth ha hrefreshing _ (fun d hd => own_of_affected ho hd) hlive₃).imp fun _ m' hfollow => ?_
  exact ⟨m₁, m₂, m₃, h₁, hraised, h₃, hfollow⟩

/-- The method that stores a reactive property. -/
theorem ends_raiseAndSet (ho : S.model.Orderly) {depth : Nat} (hdepth : depth ≤ maxDepth) (hlive : S.Live m)
    {p : MutableProperty} (hp : p ∈ S.model.mutableProperties) {v : Value} (hv : S.Admits S.object v) :
    Ends (invoke (enter fuel depth) [] S.object (Naming.raiseAndSet p.name) [v]) m
      fun _ m' => S.Written fuel p v m m' := by
  refine ends_invoke_generated hlive.located (.raiseAndSet p hp)
    (fun signature body h hname => raiseAndSet_unique hp h hname) ?_ fun k hk method => ?_
  · rw [ClassModel.localCountAll_raiseAndSetBody]
    decide
  · have hk : k ≤ maxDepth := by omega
    have hchanged {m' : Machine} (hunequal : p.skipsEqualityCheck = false → ∃ current,
        m.field? S.object p.slot = some current ∧ current.equals v = false) (h : ∃ m₁ m₂ m₃,
          S.Drift fuel (m.logged (.changing S.object p.name)) m₁ ∧
          S.Raised fuel p.name ((m₁.loggedAll (S.changings (S.model.affected p))).store S.object p.slot v) m₂ ∧
          S.Drift fuel m₂ m₃ ∧ S.RefreshedAll fuel (S.model.affected p) m₃ m') : S.Written fuel p v m m' := by
      obtain ⟨m₁, m₂, m₃, h₁, h₂, h₃, hfollow⟩ := h
      exact .changed hunequal h₁ h₂ h₃ hfollow
    unfold ClassModel.raiseAndSetBody
    by_cases hskip : p.skipsEqualityCheck = true
    · rw [if_pos hskip, List.nil_append]
      refine goes_interpretBody ((goes_write ho hk rfl rfl rfl hv hlive).imp fun _ m' h => ?_)
      exact hchanged (fun hno => by rw [hskip] at hno; cases hno) h
    · rw [if_neg hskip, List.append_assoc, List.append_assoc, List.append_assoc, List.singleton_append,
        ← List.append_assoc, ← List.append_assoc, interpretBody, interpretAll, interpret, argument,
        bind_assoc, bind_assoc]
      refine ends_loadField.bind ?_
      rintro current m ⟨rfl, hcurrent⟩
      simp only [List.getElem?_cons_zero, ofOption, pure_bind]
      cases hequal : current.equals v with
      | true =>
        rw [if_pos rfl]
        simp only [Flow.follow, pure_bind]
        exact ends_pure (.unchanged (Bool.eq_false_iff.mpr hskip) hcurrent hequal)
      | false =>
        rw [if_neg Bool.false_ne_true]
        refine Ends.bind (goes_write ho hk rfl rfl rfl hv hlive) ?_
        rintro flow m' ⟨names', rfl, h⟩
        exact ends_pure (hchanged (fun _ => ⟨current, hcurrent, hequal⟩) h)

/-- A write to a reactive property that succeeds leads through the machines of `Written`. -/
theorem written_setProperty (ho : S.model.Orderly) (hlive : S.Live m) {p : MutableProperty}
    (hp : p ∈ S.model.mutableProperties) {v : Value} (hv : S.Admits S.object v) :
    Ends (setProperty fuel S.object p.name v) m fun _ m' => S.Written fuel p v m m' := by
  refine ends_accessor.bind ?_
  rintro setter m ⟨rfl, i, q, hi, hq, hsetter⟩
  obtain ⟨rfl, -⟩ := S.own_generated.1.setters _ _ _ (hlive.located.image_eq hi ▸ hq) hsetter
  refine Ends.discard (R := fun _ m' => S.Written fuel p v m m') ?_
  refine ends_invoke_generated hlive.located (.mutableSetter p hp)
    (fun signature body h hname => setter_unique hp h hname) (show 0 < UInt16.size by decide) fun k hk method => ?_
  refine goes_interpretBody (goes_cons (P := fun _ m' => S.Written fuel p v m m') ?_ fun names m' h => goes_nil h)
  simp only [interpret, argument, List.getElem?_cons_zero, ofOption, pure_bind, if_true]
  refine ((ends_raiseAndSet ho (Nat.le_of_lt hk) hlive hp hv).discard (R := fun _ m' => S.Written fuel p v m m')).bind
    fun _ m' h => ?_
  exact ends_pure ⟨_, rfl, h⟩

end Scene

end Reactive
