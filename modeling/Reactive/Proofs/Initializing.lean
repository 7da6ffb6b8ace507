import Reactive.Proofs.Freshness
import Reactive.Proofs.InitOrder

/-!
# Reactive.Proofs.Initializing — what the init method does

* `Scene.Prepared`, `Scene.PreparedAll`: what it does for a derived value, and for several, one after another.
* `Scene.Initialized`: the machines that it leads through; behind the derived values there are only registrations.
* `Scene.initialized_call`: a call of it that succeeds leads through them.
* `Setting.Halfway`: while it runs, what it has come past is fresh, and the lazy values before it have not been computed.
* `Setting.Halfway.initialized`: behind it all derived values are fresh.
-/

namespace Reactive

open Stateful Run

namespace Scene

variable (S : Scene) (fuel : Nat)

/-- What the init method does for a derived value.  An eager one is computed and stored, be it announced or not; one that
is not kept may be announced; a lazy one is left for later. -/
inductive Prepared (d : DerivedProperty) (m : Machine) : Machine → Prop
  | passed (other : d.cache ≠ .eager) : Prepared d m m
  | announced {m' : Machine} (uncached : d.cache = .disabled) (raised : S.Raised fuel d.name m m') : Prepared d m m'
  | recomputed {m' : Machine} (eager : d.cache = .eager) (run : S.Recomputed fuel d m m') : Prepared d m m'
  | stored {slot : DerivedSlot} {value : Operand} {fresh : Value} {m₁ : Machine} (eager : d.cache = .eager)
    (slotted : d.slot = some slot) (computed : S.model.operand? d = some value)
    (run : S.Computes fuel value m fresh m₁) : Prepared d m (m₁.store S.object slot.value fresh)

/-- What it does for derived values, one after another. -/
inductive PreparedAll : List DerivedProperty → Machine → Machine → Prop
  | nil (m : Machine) : PreparedAll [] m m
  | cons {d : DerivedProperty} {ds : List DerivedProperty} {m m₁ m₂ : Machine} (first : S.Prepared fuel d m m₁)
    (rest : PreparedAll ds m₁ m₂) : PreparedAll (d :: ds) m m₂

/-- The machines that the init method leads through; registrations change neither objects nor commands. -/
def Initialized (m m' : Machine) : Prop :=
  ∃ m₁, S.PreparedAll fuel S.model.initialized m m₁ ∧ m'.objects = m₁.objects ∧ m'.commands = m₁.commands

variable {S fuel} {m m' : Machine}

theorem Prepared.live {d : DerivedProperty} (h : S.Prepared fuel d m m') (hlive : S.Live m) : S.Live m' := by
  cases h with
  | passed => exact hlive
  | announced _ raised => exact raised.live hlive
  | recomputed _ run => exact run.live hlive
  | stored _ _ _ run => exact (hlive.drift run.drift).store run.admitted

theorem PreparedAll.live {ds : List DerivedProperty} (h : S.PreparedAll fuel ds m m') (hlive : S.Live m) : S.Live m' := by
  induction h with
  | nil m => exact hlive
  | cons first _ ih => exact ih (first.live hlive)

theorem Prepared.confined (hplain : S.plain) {d : DerivedProperty} (h : S.Prepared fuel d m m') : S.Confined m m' := by
  cases h with
  | passed => exact .refl m
  | announced _ raised => exact raised.confined hplain
  | recomputed _ run => exact run.confined hplain
  | stored _ _ _ run => exact (run.drift.confined hplain).trans (.store _ _ _)

theorem PreparedAll.confined (hplain : S.plain) {ds : List DerivedProperty} (h : S.PreparedAll fuel ds m m') :
    S.Confined m m' := by
  induction h with
  | nil m => exact .refl m
  | cons first _ ih => exact (first.confined hplain).trans ih

theorem Initialized.live (h : S.Initialized fuel m m') (hlive : S.Live m) : S.Live m' := by
  obtain ⟨m₁, hprepared, hobjects, -⟩ := h
  exact (hprepared.live hlive).of_objects hobjects

theorem Initialized.confined (hplain : S.plain) (h : S.Initialized fuel m m') : S.Confined m m' := by
  obtain ⟨m₁, hprepared, hobjects, hcommands⟩ := h
  exact (hprepared.confined hplain).trans (.of_same (fun r _ => by rw [hobjects]) hcommands)

/-! ### Registrations -/

section

variable {enter : Enter} {a : Activation} {declares : String → Bool} {params : List String}

theorem ends_addRegistration {owner : Nat} {registry : String} {grouping : Option String} :
    Ends (addRegistration owner registry grouping) m fun _ m' => m'.objects = m.objects ∧ m'.commands = m.commands := by
  refine ends_get.bind ?_
  rintro _ _ ⟨rfl, rfl⟩ _ _ ⟨⟩
  exact ⟨rfl, rfl⟩

theorem ends_addBinding {id : Nat} {entry : LocaleEntry} :
    Ends (addBinding id entry) m fun _ m' => m'.objects = m.objects ∧ m'.commands = m.commands := by
  refine ends_get.bind ?_
  rintro m _ ⟨rfl, rfl⟩
  refine Ends.bind (Ends.discard (R := fun _ m' => m' = m) (ends_ofOption.imp fun _ _ h => h.1)) ?_
  rintro _ _ rfl _ _ ⟨⟩
  exact ⟨rfl, rfl⟩

/-- The bindings of a locale object. -/
theorem goes_bindings {object : String} : ∀ (bindings : List LocaleBinding) {names : Table Value} {m : Machine},
    Goes (interpretAll enter a declares params names
      (bindings.map fun b => .addLocaleProperty object b.keyName b.targetName b.retain)) m
        fun _ m' => m'.objects = m.objects ∧ m'.commands = m.commands
  | [], _, _ => goes_nil ⟨rfl, rfl⟩
  | b :: bindings, names, m => by
    rw [List.map_cons]
    refine goes_cons (P := fun _ m' => m'.objects = m.objects ∧ m'.commands = m.commands) ?_ fun names m₁ h₁ => ?_
    · rw [interpret]
      split
      · exact ends_addBinding.bind fun _ m' h => ends_pure ⟨names, rfl, h⟩
      · exact ends_throw
    · exact (goes_bindings bindings).imp fun _ _ h => ⟨h.1.trans h₁.1, h.2.trans h₁.2⟩

/-- Registrations change neither objects nor commands. -/
theorem goes_registrations : ∀ (objects : List (String × LocaleGrouping)) {unnamed : Nat} {names : Table Value} {m : Machine},
    Goes (interpretAll enter a declares params names (ClassModel.registrations unnamed objects)) m
      fun _ m' => m'.objects = m.objects ∧ m'.commands = m.commands
  | [], _, _, _ => goes_nil ⟨rfl, rfl⟩
  | (registry, grouping) :: rest, unnamed, names, m => by
    rw [ClassModel.registrations]
    refine goes_append (P := fun _ m' => m'.objects = m.objects ∧ m'.commands = m.commands) ?_ fun names m₁ h₁ => ?_
    · rw [ClassModel.registration]
      refine goes_cons (P := fun _ m' => m'.objects = m.objects ∧ m'.commands = m.commands) ?_ fun names m₁ h₁ => ?_
      · rw [interpret]
        exact ends_addRegistration.bind fun _ m' h => ends_pure ⟨_, rfl, h⟩
      · exact (goes_bindings grouping.bindings).imp fun _ _ h => ⟨h.1.trans h₁.1, h.2.trans h₁.2⟩
    · exact (goes_registrations rest).imp fun _ _ h => ⟨h.1.trans h₁.1, h.2.trans h₁.2⟩

end

/-! ### Derived values -/

/-- What is done for one derived value. -/
theorem goes_initialSteps (ho : S.model.Orderly) {depth : Nat} (hdepth : depth ≤ maxDepth) {a : Activation}
    (ha : a.receiver = S.object) (hrefreshing : a.refreshing = []) {declares : String → Bool} {names : Table Value}
    {d : DerivedProperty} (hd : d ∈ S.model.derived) (hown : d.isObservable = false) (hlive : S.Live m) :
    Goes (interpretAll (enter fuel depth) a declares [] names (S.model.initialSteps d)) m
      fun _ m' => S.Prepared fuel d m m' := by
  unfold ClassModel.initialSteps
  cases hcache : d.cache with
  | lazy => exact goes_nil (.passed (by rw [hcache]; nofun))
  | disabled =>
    dsimp only
    split
    · refine goes_cons (P := fun _ m' => S.Raised fuel d.name m m') ?_ fun _ _ h => goes_nil (.announced hcache h)
      rw [interpret, ha, hrefreshing]
      exact (ends_raiseChanged (S.enters fuel depth) hlive d.name).bind fun _ _ h => ends_pure ⟨_, rfl, h⟩
    · exact goes_nil (.passed (by rw [hcache]; nofun))
  | eager =>
    have hcached : d.cache.isCached = true := by rw [hcache]; rfl
    obtain ⟨hslot, hrecompute⟩ := (S.own_generated.2.derived d hd).cached hcached
    obtain ⟨slot, hslot⟩ := Option.isSome_iff_exists.mp hslot
    obtain ⟨recompute, hrecompute⟩ := Option.isSome_iff_exists.mp hrecompute
    obtain ⟨value, hvalue⟩ : ∃ value, S.model.operand? d = some value := ⟨_, by rw [ClassModel.operand?, hrecompute]; rfl⟩
    simp only [hslot, hvalue]
    split
    · refine goes_cons (P := fun _ m' => S.Recomputed fuel d m m') ?_ fun _ _ h => goes_nil (.recomputed hcache h)
      simp only [interpret, ha, hrefreshing, pure_bind, Bool.false_eq_true, if_false]
      refine ((ends_recompute ho hdepth hlive hd hcached hown []).discard
        (R := fun _ m' => S.Recomputed fuel d m m')).bind fun _ _ h => ?_
      exact ends_pure ⟨_, rfl, h⟩
    · refine goes_cons (P := fun _ m' => S.Prepared fuel d m m') ?_ fun _ _ h => goes_nil h
      rw [interpret, ha]
      refine (ends_operandValue hdepth ha hlive hd hvalue).bind fun fresh m₁ hrun => ?_
      refine ends_storeField.bind ?_
      rintro _ _ ⟨rfl, -⟩
      exact ends_pure ⟨_, rfl, .stored hcache hslot hvalue hrun⟩

/-- What is done for derived values. -/
theorem goes_prepareAll (ho : S.model.Orderly) {depth : Nat} (hdepth : depth ≤ maxDepth) {a : Activation}
    (ha : a.receiver = S.object) (hrefreshing : a.refreshing = []) {declares : String → Bool} :
    ∀ (ds : List DerivedProperty) {names : Table Value} {m : Machine},
      (∀ d ∈ ds, d ∈ S.model.derived ∧ d.isObservable = false) → S.Live m →
        Goes (interpretAll (enter fuel depth) a declares [] names (ds.flatMap S.model.initialSteps)) m
          fun _ m' => S.PreparedAll fuel ds m m'
  | [], _, m, _, _ => goes_nil (.nil m)
  | d :: ds, names, m, hds, hlive => by
    obtain ⟨hd, hown⟩ := hds d List.mem_cons_self
    rw [List.flatMap_cons]
    refine goes_append (goes_initialSteps ho hdepth ha hrefreshing hd hown hlive) fun names m₁ h₁ => ?_
    have hrest : ∀ d' ∈ ds, d' ∈ S.model.derived ∧ d'.isObservable = false :=
      fun d' hd' => hds d' (List.mem_cons_of_mem _ hd')
    exact (goes_prepareAll ho hdepth ha hrefreshing ds hrest (h₁.live hlive)).imp fun _ _ h => .cons h₁ h

/-! ### The whole method -/

/-- Only the init method has its name. -/
theorem init_unique {signature : MethodSignature} {body : List Statement} (h : S.model.HasMethod signature body)
    (hname : signature.name = S.model.initMethod) :
    signature = ⟨S.model.initMethod, .init S.model.derivesExtensibleBase, [], none⟩ ∧ body = S.model.initBody := by
  have hkind := S.own_generated.1.init signature body h hname
  cases h with
  | init => exact ⟨rfl, rfl⟩
  | _ => cases hkind

/-- A call of the init method that succeeds leads through the machines of `Initialized`, if the locale objects can be
numbered. -/
theorem initialized_call (ho : S.model.Orderly) (hown : ∀ d ∈ S.model.derived, d.isObservable = false)
    (hlocales : S.model.localeObjects.length < UInt16.size) (hlive : S.Live m) (args : List Value) :
    Ends (call fuel S.object S.model.initMethod args) m fun _ m' => S.Initialized fuel m m' := by
  refine ends_invoke_generated hlive.located .init (fun signature body h hname => init_unique h hname) ?_
    fun k hk method => ?_
  · have hmodest : Statement.localCountAll S.model.initBody ≤ max 3 S.model.localeObjects.length :=
      (ClassModel.HasMethod.init (m := S.model)).modest.locals
    have hsize : 3 < UInt16.size := by decide
    omega
  · have hk : k ≤ maxDepth := Nat.le_of_lt hk
    have hds : ∀ d ∈ S.model.initialized, d ∈ S.model.derived ∧ d.isObservable = false := fun d hd =>
      have hmem := ClassModel.mem_of_mem_initialized hd
      ⟨hmem, hown d hmem⟩
    refine goes_interpretBody ?_
    rw [ClassModel.initBody]
    refine goes_append (goes_prepareAll ho hk rfl rfl S.model.initialized hds hlive) fun names m₁ h₁ => ?_
    exact (goes_registrations S.model.localeObjects).imp fun _ _ h => ⟨m₁, h₁, h⟩

end Scene

namespace Setting

variable {T : Setting} {C : PropertyId → Prop} {fuel : Nat} {m m' : Machine} {ds : List DerivedProperty}

/-- A lazy value that has not been computed is not computed together with others. -/
theorem Settles.opened (h : T.Settles C m m') {d : DerivedProperty} (hd : d ∈ T.model.derived) (hC : ¬ C d.property)
    (hopen : T.Open d m) : T.Open d m' := by
  intro slot hslot
  obtain ⟨flag, hflag, hunset⟩ := hopen slot hslot
  have hmem := Scene.flag_mem_fieldNames hslot hflag
  refine ⟨flag, hflag, (h.kept flag (fun e he hCe _ hfield => hC ?_) fun c hc heq => ?_).trans hunset⟩
  · rwa [Scene.eq_of_mem_fieldNames hd he hmem hfield]
  · exact (T.nodup_fields.2.2.2 c hc).2 d hd (heq ▸ hmem)

/-- While no command is of the object, nothing follows behind an announcement. -/
theorem eq_logged_of_raised (hnone : ∀ c ∈ m.commands, c.owner ≠ T.object) {property : String}
    (h : T.Raised fuel property m m') : m' = m.logged (.changed T.object property) := by
  have hgated : gated m.commands T.object property = [] := by
    refine List.filter_eq_nil_iff.mpr fun i _ => ?_
    cases hi : m.commands[i]? with
    | none => simp
    | some c => simp [hnone c (List.mem_of_getElem? hi)]
  rw [Scene.Raised, hgated] at h
  cases h
  rfl

/-- No command is of the object, and it has stored none. -/
structure Commandless (T : Setting) (m : Machine) : Prop where
  none : ∀ c ∈ m.commands, c.owner ≠ T.object
  slots : ∀ c ∈ T.model.commands, m.field? T.object c.slot = some .null

theorem Commandless.of_nil (hnone : m.commands = []) (hslots : ∀ c ∈ T.model.commands, m.field? T.object c.slot = some .null) :
    T.Commandless m := by
  refine ⟨fun c hc => ?_, hslots⟩
  rw [hnone] at hc
  cases hc

theorem Commandless.tracked (h : T.Commandless m) (htracked : T.Tracked C m m') : T.Commandless m' :=
  ⟨fun c hc => h.none c (htracked.commands ▸ hc), fun c hc => (htracked.slots c hc).trans (h.slots c hc)⟩

theorem Commandless.of_same (h : T.Commandless m) (hobjects : m'.objects = m.objects) (hcommands : m'.commands = m.commands) :
    T.Commandless m' := by
  refine ⟨fun c hc => h.none c (hcommands ▸ hc), fun c hc => ?_⟩
  rw [Machine.field?, hobjects]
  exact h.slots c hc

/-- A field of a derived value is written. -/
theorem Commandless.store (h : T.Commandless m) {d : DerivedProperty} (hd : d ∈ T.model.derived) {field : String}
    (hfield : field ∈ d.fieldNames) (v : Value) : T.Commandless (m.store T.object field v) := by
  refine ⟨h.none, fun c hc => ?_⟩
  rw [Machine.field?_store, if_neg, h.slots c hc]
  rintro ⟨-, rfl, -⟩
  exact (T.nodup_fields.2.2.2 c hc).2 d hd hfield

/-- Recomputing an eager value creates no command. -/
theorem Commandless.recomputed {d : DerivedProperty} (hd : d ∈ T.model.derived) (h : T.Commandless m) (hlive : T.Live m)
    (hrun : T.Recomputed fuel d m m') : T.Commandless m' := by
  have hflagged {slot : DerivedSlot} (hslot : d.slot = some slot) : T.Commandless (T.flagged slot m) := by
    unfold Scene.flagged
    split
    · exact h
    · rename_i flag hflag
      exact h.store hd (Scene.flag_mem_fieldNames hslot hflag) _
  cases hrun with
  | kept slotted computed run _ _ =>
    exact (hflagged slotted).tracked (tracked_of_computes hd computed (hlive.flagged _) run).2
  | @stored slot value fresh current m₁ _ slotted computed run _ _ raised =>
    have hcomputed := (hflagged slotted).tracked (tracked_of_computes hd computed (hlive.flagged _) run).2
    have hlogged : T.Commandless (m₁.logged (.changing T.object d.name)) := hcomputed.of_same rfl rfl
    have hstored := hlogged.store hd (Scene.value_mem_fieldNames slotted) fresh
    rw [eq_logged_of_raised hstored.none raised]
    exact hstored.of_same rfl rfl

/-- What init does for a derived value creates no command. -/
theorem Commandless.prepared {d : DerivedProperty} (hd : d ∈ T.model.derived) (h : T.Commandless m) (hlive : T.Live m)
    (hrun : T.Prepared fuel d m m') : T.Commandless m' := by
  cases hrun with
  | passed => exact h
  | announced _ raised =>
    rw [eq_logged_of_raised h.none raised]
    exact h.of_same rfl rfl
  | recomputed _ run => exact h.recomputed hd hlive run
  | stored _ slotted computed run =>
    exact (h.tracked (tracked_of_computes hd computed hlive run).2).store hd (Scene.value_mem_fieldNames slotted) _

theorem Commandless.preparedAll (hds : ∀ d ∈ ds, d ∈ T.model.derived) (h : T.Commandless m) (hlive : T.Live m)
    (hrun : T.PreparedAll fuel ds m m') : T.Commandless m' := by
  induction hrun with
  | nil m => exact h
  | @cons d ds m m₁ _ first _ ih =>
    exact ih (fun e he => hds e (List.mem_cons_of_mem _ he)) (h.prepared (hds d List.mem_cons_self) hlive first)
      (first.live hlive)

/-- Init creates no command. -/
theorem Commandless.initialized (h : T.Commandless m) (hlive : T.Live m) (hrun : T.Initialized fuel m m') :
    T.Commandless m' := by
  obtain ⟨m₁, hprepared, hobjects, hcommands⟩ := hrun
  exact (h.preparedAll (fun _ hd => ClassModel.mem_of_mem_initialized hd) hlive hprepared).of_same hobjects hcommands

/-! ### The values that init has come past -/

/-- Before some derived values are initialized, the others are fresh, and the lazy ones of them have not been computed.
There is no lazy value at all, or there is no command, which might have one computed. -/
structure Halfway (T : Setting) (ds : List DerivedProperty) (m : Machine) : Prop where
  live : T.Live m
  fresh : T.FreshBut ds m
  unread : ∀ d ∈ ds, d.cache = .lazy → T.Open d m
  alone : (∀ d ∈ T.model.derived, d.cache ≠ .lazy) ∨ T.Commandless m

/-- Derived values in an order in which each of them comes before those that depend on it. -/
structure Ordered (T : Setting) (ds : List DerivedProperty) : Prop where
  mem : ∀ d ∈ ds, d ∈ T.model.derived
  behind : T.Behind ds
  apart : ds.Pairwise fun d e => ¬ T.model.DependsOn e.property d

theorem Ordered.cons {d : DerivedProperty} (h : T.Ordered (d :: ds)) :
    d ∈ T.model.derived ∧ (∀ e, T.model.DependsOn d.property e → e ∈ ds) ∧
      (∀ e ∈ ds, ¬ T.model.DependsOn e.property d) ∧ T.Ordered ds := by
  obtain ⟨hnext, hbehind⟩ := h.behind.cons
  obtain ⟨hapart, hrest⟩ := List.pairwise_cons.mp h.apart
  exact ⟨h.mem d List.mem_cons_self, hnext, hapart, fun e he => h.mem e (List.mem_cons_of_mem _ he), hbehind, hrest⟩

variable {d : DerivedProperty}

/-- Computing a value does not compute the lazy ones that come later. -/
theorem Halfway.unread_of_settles (horder : T.Ordered (d :: ds)) (h : ∀ e ∈ ds, e.cache = .lazy → T.Open e m)
    (hsettles : T.Settles (fun i => T.model.DependsOn i d) m m') : ∀ e ∈ ds, e.cache = .lazy → T.Open e m' := by
  obtain ⟨-, -, hapart, hrest⟩ := horder.cons
  exact fun e he hlazy => hsettles.opened (hrest.mem e he) (hapart e he) (h e he hlazy)

/-- Writing a field of an eager value does not compute the lazy ones. -/
theorem unread_store (hd : d ∈ T.model.derived) (heager : d.cache = .eager) (hds : ∀ e ∈ ds, e ∈ T.model.derived)
    (h : ∀ e ∈ ds, e.cache = .lazy → T.Open e m) {field : String} (hfield : field ∈ d.fieldNames) (v : Value) :
    ∀ e ∈ ds, e.cache = .lazy → T.Open e (m.store T.object field v) := by
  intro e he hlazy slot hslot
  obtain ⟨flag, hflag, hunset⟩ := h e he hlazy slot hslot
  refine ⟨flag, hflag, ?_⟩
  rw [Machine.field?_store, if_neg]
  · exact hunset
  · rintro ⟨-, rfl, -⟩
    rw [Scene.eq_of_mem_fieldNames hd (hds e he) hfield (Scene.flag_mem_fieldNames hslot hflag), hlazy] at heager
    cases heager

/-- An eager value has no flag. -/
theorem flagged_of_eager (hd : d ∈ T.model.derived) (heager : d.cache = .eager) {slot : DerivedSlot}
    (hslot : d.slot = some slot) : T.flagged slot m = m := by
  unfold Scene.flagged
  split
  · rfl
  · rename_i flag hflag
    rw [cache_of_flag hd hslot hflag] at heager
    cases heager

/-- Recomputing an eager value does not compute the lazy ones that come later. -/
theorem unread_recomputed (horder : T.Ordered (d :: ds)) (heager : d.cache = .eager) (hcommandless : T.Commandless m)
    (hlive : T.Live m) (h : ∀ e ∈ ds, e.cache = .lazy → T.Open e m) (hrun : T.Recomputed fuel d m m') :
    ∀ e ∈ ds, e.cache = .lazy → T.Open e m' := by
  obtain ⟨hd, -, -, hrest⟩ := horder.cons
  cases hrun with
  | kept slotted computed run _ _ =>
    rw [flagged_of_eager hd heager slotted] at run
    exact Halfway.unread_of_settles horder h (tracked_of_computes hd computed hlive run).2.toSettles
  | @stored slot value fresh current m₁ _ slotted computed run _ _ raised =>
    rw [flagged_of_eager hd heager slotted] at run
    have htracked := (tracked_of_computes hd computed hlive run).2
    have hcomputed := Halfway.unread_of_settles horder h htracked.toSettles
    have hnone : ∀ c ∈ ((m₁.logged (.changing T.object d.name)).store T.object slot.value fresh).commands,
        c.owner ≠ T.object := (hcommandless.tracked htracked).none
    have hlogged : ∀ e ∈ ds, e.cache = .lazy → T.Open e (m₁.logged (.changing T.object d.name)) := hcomputed
    rw [eq_logged_of_raised hnone raised]
    exact unread_store hd heager hrest.mem hlogged (Scene.value_mem_fieldNames slotted) fresh

/-- One more derived value is initialized. -/
theorem Halfway.prepared (horder : T.Ordered (d :: ds)) (h : T.Halfway (d :: ds) m) (hrun : T.Prepared fuel d m m') :
    T.Halfway ds m' := by
  obtain ⟨hd, hbehind, -, hrest⟩ := horder.cons
  have hunread : ∀ e ∈ ds, e.cache = .lazy → T.Open e m := fun e he => h.unread e (List.mem_cons_of_mem _ he)
  have halone : (∀ d ∈ T.model.derived, d.cache ≠ .lazy) ∨ T.Commandless m' :=
    h.alone.imp id fun hcommandless => hcommandless.prepared hd h.live hrun
  refine ⟨hrun.live h.live, ?_, ?_, halone⟩
  · cases hrun with
    | passed other =>
      refine h.fresh.cons fun slot hslot hsettled => ?_
      -- What is not eager is not kept, or lazy and not computed.
      obtain heager | ⟨flag, hflag, hset⟩ := hsettled
      · exact absurd heager other
      · have hopen := h.unread d List.mem_cons_self (cache_of_flag hd hslot hflag)
        exact absurd (Or.inr ⟨flag, hflag, hset⟩) (not_settled_of_open hd hslot hopen)
    | announced uncached raised => exact h.fresh.refreshed hd hbehind h.live (.announced uncached raised)
    | recomputed _ run => exact h.fresh.recomputed hd hbehind h.live run
    | @stored slot value fresh m₁ _ slotted computed run =>
      obtain ⟨hyields, htracked⟩ := tracked_of_computes hd computed h.live run
      have hstored := (h.fresh.settles htracked.toSettles).store hd hbehind (Scene.value_mem_fieldNames slotted) fresh
      exact hstored.cons (fresh_store hd slotted (htracked.yields_iff.mpr hyields) htracked.live)
  · obtain hnone | hcommandless := h.alone
    · exact fun e he hlazy => absurd hlazy (hnone e (hrest.mem e he))
    · cases hrun with
      | passed => exact hunread
      | announced _ raised =>
        rw [eq_logged_of_raised hcommandless.none raised]
        exact hunread
      | recomputed eager run => exact unread_recomputed horder eager hcommandless h.live hunread run
      | stored eager slotted computed run =>
        have hcomputed := Halfway.unread_of_settles horder hunread (tracked_of_computes hd computed h.live run).2.toSettles
        exact unread_store hd eager hrest.mem hcomputed (Scene.value_mem_fieldNames slotted) _

theorem Halfway.preparedAll (horder : T.Ordered ds) (h : T.Halfway ds m) (hrun : T.PreparedAll fuel ds m m') :
    T.Halfway [] m' := by
  induction hrun with
  | nil m => exact h
  | cons first _ ih => exact ih horder.cons.2.2.2 (h.prepared horder first)

theorem ordered_initialized (T : Setting) : T.Ordered T.model.initialized :=
  ⟨fun _ hd => ClassModel.mem_of_mem_initialized hd,
    fun _ _ _ hsplit _ hdepends => ClassModel.initialized_behind T.orderly hsplit hdepends,
    ClassModel.initialized_pairwise T.orderly⟩

/-- **Init makes everything fresh.**  Let no lazy value of the object have been computed before, and no command have been
created; or let it have no lazy values.  Then behind init all its derived values are fresh. -/
theorem Halfway.initialized (h : T.Halfway T.model.initialized m) (hrun : T.Initialized fuel m m') : T.Halfway [] m' := by
  obtain ⟨m₁, hprepared, hobjects, hcommands⟩ := hrun
  have hend := h.preparedAll T.ordered_initialized hprepared
  refine ⟨hend.live.of_objects hobjects, hend.fresh.settles (Settles.of_objects (C := fun _ => True) hobjects), nofun, ?_⟩
  exact hend.alone.imp id fun hcommandless => hcommandless.of_same hobjects hcommands

/-- Before init nothing needs to be fresh. -/
theorem halfway_start (hlive : T.Live m) (hunread : ∀ d ∈ T.model.derived, d.cache = .lazy → T.Open d m)
    (halone : (∀ d ∈ T.model.derived, d.cache ≠ .lazy) ∨ T.Commandless m) : T.Halfway T.model.initialized m :=
  ⟨hlive, fun _ he hmem => absurd (ClassModel.mem_initialized T.orderly he) hmem,
    fun d hd => hunread d (ClassModel.mem_of_mem_initialized hd), halone⟩

end Setting

end Reactive
