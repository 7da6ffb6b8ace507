import Reactive.Proofs.Binding
import Reactive.Proofs.Books
import Reactive.Proofs.Fitting
import Reactive.Proofs.Registering
import Reactive.Proofs.Undisturbed

/-!
# Reactive.Proofs.Arrivals — locale bindings arrive

Every run of the init method of an object registers its locale objects, and nothing else registers any for it.

* `Enrols.progress`: registrations in a row are made one instruction after another.
* `Completed`: the interpreters that are ever met, with how many runs of a method for an object have ended by then.
* `Registrant.Holds`: an object owns what these runs have registered, unless one is registering just now.  A step keeps
  this (`Registrant.Holds.next`), whatever is asked begins with it (`Registrant.Level.holds_asked`), so it holds of all
  interpreters that are ever met (`Completed.holds`).
* `locale_bindings_arrive`: the locale bindings of a class are in its model, and then in the registrations of its objects.
-/

namespace Reactive

open Stateful

/-! ### Owners -/

/-- The registrations of an owner. -/
def ownedBy (owner : Nat) (rs : List LocaleRegistration) : List LocaleRegistration := rs.filter (·.owner = owner)

theorem ownedBy_append (owner : Nat) (rs rs' : List LocaleRegistration) :
    ownedBy owner (rs ++ rs') = ownedBy owner rs ++ ownedBy owner rs' := List.filter_append rs rs'

theorem ownedBy_eq_self {owner : Nat} {rs : List LocaleRegistration} (h : ∀ r ∈ rs, r.owner = owner) :
    ownedBy owner rs = rs := List.filter_eq_self.mpr fun r hr => decide_eq_true (h r hr)

theorem ownedBy_eq_nil {owner other : Nat} {rs : List LocaleRegistration} (h : ∀ r ∈ rs, r.owner = other)
    (hother : other ≠ owner) : ownedBy owner rs = [] :=
  List.filter_eq_nil_iff.mpr fun r hr heq => hother ((h r hr).symm.trans (of_decide_eq_true heq))

/-- What is bound to a registration does not matter to other owners. -/
theorem ownedBy_modify {owner id : Nat} {rs : List LocaleRegistration} {r : LocaleRegistration} (hr : rs[id]? = some r)
    (hother : r.owner ≠ owner) (bindings : LocaleRegistration → List LocaleEntry) :
    ownedBy owner (rs.modify id fun r => { r with bindings := bindings r }) = ownedBy owner rs := by
  obtain ⟨hid, rfl⟩ := List.getElem?_eq_some_iff.mp hr
  have hsplit : rs = rs.take id ++ rs[id] :: rs.drop (id + 1) := by
    rw [← List.drop_eq_getElem_cons hid, List.take_append_drop]
  rw [List.modify_eq_take_cons_drop hid]
  conv_rhs => rw [hsplit]
  simp only [ownedBy_append]
  unfold ownedBy
  rw [List.filter_cons_of_neg (by simpa using hother), List.filter_cons_of_neg (by simpa using hother)]

/-! ### Registrations in a row -/

/-- Instructions that register locale objects are executed one after another, and do what is said of them. -/
theorem Enrols.progress {c : Call} {f : Frame} {i : Instruction} {rest : List Instruction} {m : Machine} {ends : Bool}
    {rs : List LocaleRegistration} (h : Enrols c.receiver (i :: rest) f.stack f.locals m.locales ends rs) :
    match Run.progress c f i m with
    | .ok (.goes g) m' => g.next = f.next ∧ m' = { m with locales := m'.locales } ∧
        (∀ owner, c.receiver ≠ owner → ownedBy owner m'.locales = ownedBy owner m.locales) ∧
        Enrols c.receiver rest g.stack g.locals m'.locales ends rs
    | .ok (.returns _) m' => m' = m ∧ ends = true ∧ rs = m.locales
    | .error _ m' => m' = m ∧ ends = false ∧ rs = m.locales
    | .ok _ _ => False := by
  obtain ⟨next, stack, locals⟩ := f
  dsimp only at h
  cases h with
  | returned => exact ⟨rfl, rfl, rfl⟩
  | @register _ _ _ _ _ _ registry grouping next' =>
    refine ⟨rfl, rfl, fun owner howner => ?_, next'⟩
    show ownedBy owner (m.locales ++ [⟨registry, grouping, c.receiver, []⟩]) = _
    rw [ownedBy_append, ownedBy_eq_nil (List.forall_mem_singleton.mpr rfl) howner, List.append_nil]
  | @store _ stack _ _ _ _ index v there next' =>
    have hrun : Run.progress c ⟨next, v :: stack, locals⟩ (.storeLocal index) m =
        .ok (.goes ⟨next, stack, locals.set index.toNat v⟩) m := by
      show (Run.simple c _ _) m = _
      unfold Run.simple Run.step
      simp only [Run.pop, pure_bind, if_pos there]
      rfl
    rw [hrun]
    exact ⟨rfl, rfl, fun _ _ => rfl, next'⟩
  | @full _ stack _ _ index v missing =>
    have hrun : Run.progress c ⟨next, v :: stack, locals⟩ (.storeLocal index) m =
        .error (.failed (.typeFault (.localRange index.toNat))) m := by
      show (Run.simple c _ _) m = _
      unfold Run.simple Run.step
      simp only [Run.pop, pure_bind, if_neg (Nat.not_lt.mpr missing)]
      rfl
    rw [hrun]
    exact ⟨rfl, rfl, rfl⟩
  | @load _ _ _ _ _ _ index v there next' =>
    have hrun : Run.progress c ⟨next, stack, locals⟩ (.loadLocal index) m =
        .ok (.goes ⟨next, v :: stack, locals⟩) m := by
      show (Run.simple c _ _) m = _
      unfold Run.simple Run.step
      simp only [there]
      rfl
    rw [hrun]
    exact ⟨rfl, rfl, fun _ _ => rfl, next'⟩
  | @add _ stack _ _ _ _ id r key target retain there own next' =>
    have hrun : Run.progress c ⟨next, .locale id :: stack, locals⟩ (.addLocaleProperty key target retain) m =
        .ok (.goes ⟨next, stack, locals⟩) { m with
          locales := m.locales.modify id fun r => { r with bindings := r.bindings ++ [⟨key, target, retain⟩] } } := by
      show (Run.simple c _ _) m = _
      unfold Run.simple Run.step
      simp only [Run.pop, pure_bind, Run.addBinding, Run.ofOption, bind_assoc, discard_bind]
      rw [get_bind, there]
      rfl
    rw [hrun]
    exact ⟨rfl, rfl, fun owner howner => ownedBy_modify there (own ▸ howner) _, next'⟩

/-! ### Runs that end -/

namespace Interpreter

/-- The call that returns in the next step. -/
def returning? (s : Interpreter) : Option Call :=
  match s.control with
  | .running c f =>
    match c.method.code[f.next]? with
    | none => some c
    | some i =>
      match Run.progress c { f with next := f.next + 1 } i s.machine with
      | .ok (.returns _) _ => some c
      | _ => none
  | .calling _ | .refreshing .. | .constructing .. | .giving _ | .failing _ | .resting _ => none

/-- In the next step a method returns that is run for an object. -/
def completes (s : Interpreter) (object : Nat) (method : CompiledMethod) : Bool :=
  s.returning?.any fun c => c.receiver = object && c.method = method

/-- The interpreters that are met when some classes are loaded at rest and things are asked, with how many runs of a
method for an object have ended by then. -/
inductive Completed (classes : List LoadedClass) (object : Nat) (method : CompiledMethod) : Nat → Interpreter → Prop
  | idle : Completed classes object method 0 .idle
  | load {n : Nat} {s : Interpreter} {L : LoadedClass} (before : Completed classes object method n s) (atRest : s.AtRest)
    (mem : L ∈ classes) : Completed classes object method n { s with machine := s.machine.load L.image }
  | clear {n : Nat} {s : Interpreter} (before : Completed classes object method n s) (atRest : s.AtRest) :
    Completed classes object method n { s with machine := s.machine.clearEvents }
  | ask {n : Nat} {s : Interpreter} (before : Completed classes object method n s) (atRest : s.AtRest) (action : Action) :
    Completed classes object method n (s.asked action)
  | next {n : Nat} {s : Interpreter} (before : Completed classes object method n s) :
    Completed classes object method (n + (s.completes object method).toNat) s.next

/-- How many runs of a method for an object end in some steps. -/
def completions (s : Interpreter) (object : Nat) (method : CompiledMethod) : Nat → Nat
  | 0 => 0
  | k + 1 => (s.completes object method).toNat + s.next.completions object method k

theorem Completed.steps {classes : List LoadedClass} {object : Nat} {method : CompiledMethod} : ∀ (k : Nat) {n : Nat}
    {s : Interpreter}, Completed classes object method n s →
      Completed classes object method (n + s.completions object method k) (s.steps k)
  | 0, _, _, h => h
  | k + 1, n, s, h => by
    rw [completions, ← Nat.add_assoc]
    exact Completed.steps k h.next

end Interpreter

/-! ### What is registered for an object -/

/-- Initial values that are still to be stored are those of the object. -/
def Machine.Constructs (m : Machine) (object : Nat) (rest : List Initializer) : Prop :=
  ∃ image, m.images[object]? = some image ∧ ∀ i ∈ rest, i ∈ image.initializers

theorem Machine.Constructs.mono {m m' : Machine} {object : Nat} {rest : List Initializer} (h : m.Constructs object rest)
    (h' : m.images <+: m'.images) : m'.Constructs object rest := by
  obtain ⟨image, himage, hrest⟩ := h
  exact ⟨image, Machine.image_mono h' himage, hrest⟩

/-- An object and the method of its class that registers its locale objects; nothing else in the class registers any, and
what is registered in other classes is registered by methods of that kind. -/
structure Registrant where
  classes : List LoadedClass
  object : Nat
  image : ClassImage
  init : CompiledMethod
  objects : List (String × LocaleGrouping)
  codes : ∀ L ∈ classes, ∀ m, L.image.HasCode m → m.SparesLocales ∨ ∃ place objects, m.Registers place objects
  registers : ∃ place, init.Registers place objects
  spares : ∀ m, image.HasCode m → m = init ∨ m.SparesLocales
  few : objects.length < 65536

namespace Registrant

variable (R : Registrant)

/-- The object is of the class, if it is there. -/
def Fits (m : Machine) : Prop := ∀ image, m.images[R.object]? = some image → image = R.image

/-- What one run registers. -/
def entries : List LocaleRegistration := R.objects.map (.of R.object)

/-- What some runs register. -/
def due (n : Nat) : List LocaleRegistration := (List.replicate n R.entries).flatten

/-- The method is run for the object. -/
def isInit (c : Call) : Bool := c.receiver = R.object && c.method = R.init

/-- So many runs have registered what there is of the object. -/
def Settled (n : Nat) (m : Machine) : Prop := R.Fits m → ownedBy R.object m.locales = R.due n

/-- A frame has not come to the registrations of its method, if there are any. -/
inductive Ahead (m : Machine) (c : Call) (f : Frame) : Prop
  | spares (spares : c.method.SparesLocales) (other : R.isInit c = false)
  | before {place : Nat} {objects : List (String × LocaleGrouping)} (registers : c.method.Registers place objects)
    (le : f.next ≤ place) (locals : f.locals.length = c.method.localCount.toNat)
    (own : R.Fits m → c.receiver = R.object → c.method = R.init ∧ objects = R.objects)

/-- A frame is among the registrations of its method.  If they are those of the object, there is one run more at their
end; otherwise they do not matter. -/
def Amid (n : Nat) (m : Machine) (c : Call) (f : Frame) : Prop :=
  ∃ ends rs, Enrols c.receiver (c.method.code.drop f.next) f.stack f.locals m.locales ends rs ∧
    (R.Fits m → (c.receiver = R.object → c.method = R.init ∧ ends = true ∧ ownedBy R.object rs = R.due (n + 1)) ∧
      (c.receiver ≠ R.object → ownedBy R.object m.locales = R.due n))

/-- What waits has not come to registrations. -/
def Waits (m : Machine) : Pending → Prop
  | .frame c _ f => c.Belongs m ∧ R.Ahead m c f
  | .initialValue object _ _ rest | .construction object _ rest => m.Constructs object rest
  | .run _ | .creation .. | .evaluation .. | .commandOf _ => True

/-- What is done next belongs to the objects, and is not among registrations. -/
def Awaits (m : Machine) : Control → Prop
  | .calling c => c.Belongs m
  | .running c f => c.Belongs m ∧ R.Ahead m c f
  | .constructing object _ rest => m.Constructs object rest
  | .refreshing .. | .giving _ | .failing _ | .resting _ => True

/-- The objects are of the loaded classes, and what waits has not come to registrations. -/
structure Base (s : Interpreter) : Prop where
  of : s.machine.Of R.classes
  waits : ∀ p ∈ s.stack, R.Waits s.machine p

/-- So many runs have registered what there is. -/
structure Level (n : Nat) (s : Interpreter) : Prop extends R.Base s where
  settled : R.Settled n s.machine

/-- So many runs have registered what there is, or one is registering. -/
inductive Holds (n : Nat) (s : Interpreter) : Prop
  | level (level : R.Level n s) (awaits : R.Awaits s.machine s.control)
  | amid {c : Call} {f : Frame} (base : R.Base s) (running : s.control = .running c f) (belongs : c.Belongs s.machine)
    (amid : R.Amid n s.machine c f)

variable {R} {m m' : Machine} {c : Call} {f g : Frame} {n : Nat}

theorem due_succ (n : Nat) : R.due (n + 1) = R.due n ++ R.entries := by
  rw [due, due, List.replicate_succ', List.flatten_append, List.flatten_singleton]

theorem isInit_eq_true : R.isInit c = true ↔ c.receiver = R.object ∧ c.method = R.init := by
  simp [isInit]

theorem isInit_of_ne (h : c.receiver ≠ R.object) : R.isInit c = false := by
  simp [isInit, h]

theorem ownedBy_entries : ownedBy R.object R.entries = R.entries := by
  refine ownedBy_eq_self fun r hr => ?_
  obtain ⟨o, -, rfl⟩ := List.mem_map.mp hr
  rfl

theorem Fits.anti (h : R.Fits m') (h' : m.images <+: m'.images) : R.Fits m :=
  fun _ himage => h _ (Machine.image_mono h' himage)

theorem Ahead.mono (h : R.Ahead m c f) (h' : m.images <+: m'.images) : R.Ahead m' c f := by
  cases h with
  | spares spares other => exact .spares spares other
  | before registers le locals own => exact .before registers le locals fun hfits => own (hfits.anti h')

theorem Waits.mono {p : Pending} (h : R.Waits m p) (h' : m.images <+: m'.images) : R.Waits m' p := by
  cases p with
  | frame => exact ⟨h.1.mono h', h.2.mono h'⟩
  | initialValue | construction => exact Machine.Constructs.mono h h'
  | run | creation | evaluation | commandOf => trivial

theorem Settled.undisturbed (h : R.Settled n m) (h' : m.Undisturbed m') : R.Settled n m' := by
  intro hfits
  rw [h'.locales]
  exact h (hfits.anti h'.images)

/-! ### Frames -/

/-- A method of an object has not come to its registrations when it is entered. -/
theorem ahead_start (hof : m.Of R.classes) (h : c.Belongs m) : R.Ahead m c (.start c.method) := by
  obtain ⟨image, himage, hcode⟩ := h
  obtain ⟨L, hL, rfl⟩ := hof.image himage
  have hlocals : (Frame.start c.method).locals.length = c.method.localCount.toNat := List.length_replicate
  by_cases hinit : R.isInit c = true
  · obtain ⟨hreceiver, hmethod⟩ := isInit_eq_true.mp hinit
    obtain ⟨place, hregisters⟩ := R.registers
    exact .before (hmethod ▸ hregisters) (Nat.zero_le _) hlocals fun _ _ => ⟨hmethod, rfl⟩
  · by_cases hspares : c.method.SparesLocales
    · exact .spares hspares (Bool.eq_false_iff.mpr hinit)
    · obtain ⟨place, objects, hregisters⟩ := (R.codes L hL _ hcode).resolve_left hspares
      refine .before hregisters (Nat.zero_le _) hlocals fun hfits hreceiver => ?_
      -- Of the code of the object itself only the init method registers anything.
      have hown := (R.spares _ (hfits _ (hreceiver ▸ himage) ▸ hcode)).resolve_right hspares
      exact absurd (isInit_eq_true.mpr ⟨hreceiver, hown⟩) hinit

/-- The next instruction registers nothing, and leads to a frame that has not come to the registrations either. -/
structure Clear (R : Registrant) (m : Machine) (c : Call) (f : Frame) : Prop where
  ends : c.method.code[f.next]? = none → R.isInit c = false
  spares : ∀ i, c.method.code[f.next]? = some i → i.registers = false
  returns : ∀ i, c.method.code[f.next]? = some i → i.isReturn = true → R.isInit c = false
  ahead : ∀ i g, c.method.code[f.next]? = some i → Frame.Past i { f with next := f.next + 1 } g → R.Ahead m c g

/-- A frame that has not come to the registrations is at their beginning, or does not come to them yet. -/
theorem Ahead.amid_or_clear (h : R.Ahead m c f) (hsettled : R.Settled n m) : R.Amid n m c f ∨ R.Clear m c f := by
  cases h with
  | spares spares other =>
    exact .inr ⟨fun _ => other, fun i hi => spares i (List.mem_of_getElem? hi), fun _ _ _ => other,
      fun _ _ _ _ => .spares spares other⟩
  | @before place objects registers le locals own =>
    obtain hlt | rfl := Nat.lt_or_eq_of_le le
    · have hgoesOn {i : Instruction} (hi : c.method.code[f.next]? = some i) := registers.before _ i hlt hi
      refine .inr ⟨fun hnone => ?_, fun i hi => Instruction.registers_of_goesOn (hgoesOn hi).1, fun i hi hreturn => ?_,
        fun i g hi hpast => .before registers ?_ (hpast.locals.trans locals) own⟩
      · have hle := List.getElem?_eq_none_iff.mp hnone
        have hplace := registers.place_le
        omega
      · rw [Instruction.isReturn_of_goesOn (hgoesOn hi).1] at hreturn
        cases hreturn
      · obtain hnext | ⟨t, ht, hnext⟩ := hpast.next
        · rw [hnext]
          exact hlt
        · rw [hnext]
          exact (hgoesOn hi).2 t ht
    · obtain ⟨ends, more, henrols, hall, hends⟩ := registers.row c.receiver f.stack f.locals m.locales locals
      refine .inl ⟨ends, m.locales ++ more, henrols, fun hfits => ⟨fun hreceiver => ?_, fun _ => hsettled hfits⟩⟩
      obtain ⟨hmethod, rfl⟩ := own hfits hreceiver
      have hmore : more = R.entries := by
        rw [hall (hends R.few), hreceiver]
        rfl
      refine ⟨hmethod, hends R.few, ?_⟩
      rw [ownedBy_append, hsettled hfits, hmore, ownedBy_entries, due_succ]

/-! ### Between the registrations -/

open Interpreter

variable {s : Interpreter} {p : Pending}

theorem Base.grows (h : R.Base s) (h' : s.machine.Grows m') : R.Base { s with machine := m' } :=
  ⟨h.of.grows h', fun p hp => (h.waits p hp).mono h'.images⟩

theorem Base.wait (h : R.Base s) (hp : R.Waits s.machine p) : R.Base (s.wait p) :=
  ⟨h.of, List.forall_mem_cons.mpr ⟨hp, h.waits⟩⟩

namespace Level

theorem undisturbed (h : R.Level n s) (h' : s.machine.Undisturbed m') : R.Level n { s with machine := m' } :=
  ⟨h.toBase.grows h'.toGrows, h.settled.undisturbed h'⟩

theorem wait (h : R.Level n s) (hp : R.Waits s.machine p) : R.Level n (s.wait p) := ⟨h.toBase.wait hp, h.settled⟩

theorem holds_goTo (h : R.Level n s) {k : Control} (hk : R.Awaits s.machine k) : R.Holds n (s.goTo k) :=
  .level ⟨⟨h.of, h.waits⟩, h.settled⟩ hk

theorem holds_give (h : R.Level n s) (v : Value) : R.Holds n (s.give v) := h.holds_goTo (k := .giving v) trivial

theorem holds_refreshing (h : R.Level n s) (object : Nat) (property : String) (commands : List Nat) :
    R.Holds n (s.goTo (.refreshing object property commands)) := h.holds_goTo trivial

/-- A run is opened. -/
theorem holds_runs (h : R.Level n s) (hc : c.Belongs s.machine) : R.Holds n (s.runs c) :=
  (h.wait (p := .run s.depth) trivial).holds_goTo hc

/-- Something is done on the machine that disturbs nothing. -/
theorem holds_after {α : Type} (h : R.Level n s) {x : Run α} {P : α → Machine → Prop} (hx : Run.Leaves x s.machine P)
    {k : Interpreter → α → Interpreter} (hk : ∀ a m', s.machine.Undisturbed m' → P a m' →
      R.Level n { s with machine := m' } → R.Holds n (k { s with machine := m' } a)) : R.Holds n (s.after x k) := by
  unfold Run.Leaves at hx
  unfold after
  cases hrun : x s.machine with
  | ok a m' =>
    rw [hrun] at hx
    exact hk a m' hx.1 hx.2 (h.undisturbed hx.1)
  | error e m' =>
    rw [hrun] at hx
    exact (h.undisturbed hx).holds_goTo (k := .failing e) trivial

/-- A run of a member is opened. -/
theorem holds_opens (h : R.Level n s) {found : Run Dispatch}
    (hfound : Run.Leaves found s.machine fun d m' => ∀ c, d = .enters c → c.Belongs m') : R.Holds n (s.opens found) := by
  refine h.holds_after hfound fun d m' _ hbelongs hlevel => ?_
  cases d with
  | enters c => exact hlevel.holds_runs (hbelongs c rfl)
  | finished v => exact hlevel.holds_give v

/-- A method is entered. -/
theorem holds_enters (h : R.Level n s) (hc : c.Belongs s.machine) : R.Holds n (s.enters c) := by
  unfold enters
  split
  · exact h.holds_goTo trivial
  · exact .level ⟨⟨h.of, h.waits⟩, h.settled⟩ ⟨hc, ahead_start h.of hc⟩

/-- A command is evaluated that is not being evaluated. -/
theorem holds_refreshes (h : R.Level n s) (object : Nat) (property : String) :
    ∀ commands : List Nat, R.Holds n (s.refreshes object property commands)
  | [] => h.holds_give .null
  | id :: rest => by
    rw [refreshes]
    split
    · exact h.holds_refreshing object property rest
    · refine Level.holds_opens (Level.wait (p := .evaluation object property id rest) ?_ trivial)
        (Run.leaves_dispatchGetter object property)
      exact ⟨⟨h.of, h.waits⟩, h.settled⟩

/-- The next initial value is computed. -/
theorem holds_constructs (h : R.Level n s) {object : Nat} (image : ClassImage) :
    ∀ {rest : List Initializer}, s.machine.Constructs object rest → R.Holds n (s.constructs object image rest)
  | [], _ => by
    rw [constructs]
    split
    · exact h.holds_opens (Run.leaves_dispatch object image.initMethod [])
    · exact h.holds_give .null
  | i :: rest, hrest => by
    obtain ⟨image', himage, hmem⟩ := hrest
    have hwaits : R.Waits s.machine (.initialValue object image i.target rest) :=
      ⟨image', himage, fun j hj => hmem j (List.mem_cons_of_mem i hj)⟩
    exact (h.wait hwaits).holds_runs ⟨image', himage, .initializer (hmem i List.mem_cons_self)⟩

/-- What waited for a value is given it. -/
theorem holds_resume (h : R.Level n s) (v : Value) (hp : R.Waits s.machine p) : R.Holds n (s.resume v p) := by
  cases p with
  | frame c wanted f =>
    have hframe : R.Ahead s.machine c (f.resumed wanted v) := by
      unfold Frame.resumed
      split
      · cases hp.2 with
        | spares spares other => exact .spares spares other
        | before registers le locals own => exact .before registers le locals own
      · exact hp.2
    exact h.holds_goTo ⟨hp.1, hframe⟩
  | run base => exact .level ⟨⟨h.of, h.waits⟩, h.settled⟩ trivial
  | creation owner spec property =>
    exact h.holds_after (k := fun s id => s.give (.command id))
      ((Run.leaves_gateOf property v).bind fun enabled _ _ => Run.leaves_addCommand owner spec enabled)
      fun id _ _ _ hlevel => hlevel.holds_give (.command id)
  | evaluation object property id rest =>
    have herased : R.Level n { s with refreshing := s.refreshing.erase id } := ⟨⟨h.of, h.waits⟩, h.settled⟩
    exact herased.holds_after (k := fun s _ => s.goTo (.refreshing object property rest))
      ((Run.leaves_gateOf property v).bind fun enabled _ _ => Run.leaves_setEnabled id enabled)
      fun _ _ _ _ hlevel => hlevel.holds_refreshing object property rest
  | commandOf property => cases v <;> first | exact h.holds_give _ | exact h.holds_goTo (k := .failing _) trivial
  | initialValue object image target rest =>
    cases target with
    | field name =>
      exact h.holds_after (k := fun s _ => s.goTo (.constructing object image rest)) (Run.leaves_storeField object name v)
        fun _ _ hleft _ hlevel => hlevel.holds_goTo (Machine.Constructs.mono hp hleft.images)
    | setter name =>
      exact (h.wait (p := .construction object image rest) hp).holds_opens (Run.leaves_dispatch object name [v])
  | construction object image rest => exact h.holds_goTo hp

/-- An instruction is executed that registers nothing. -/
theorem holds_executes (h : R.Level n s) (hs : s.control = .running c f) (hc : c.Belongs s.machine)
    (hclear : R.Clear s.machine c f) : R.Holds (n + (s.completes R.object R.init).toNat) (s.executes c f) := by
  have hreturning : s.completes R.object R.init = s.returning?.any R.isInit := rfl
  rw [hreturning, returning?, hs]
  unfold executes
  dsimp only
  cases hcode : c.method.code[f.next]? with
  | none =>
    have hend : R.Holds n (s.returns .null) := .level ⟨⟨h.of, h.waits⟩, h.settled⟩ trivial
    simpa [hclear.ends hcode] using hend
  | some i =>
    have hleaves := Run.leaves_progress (m := s.machine) (f := { f with next := f.next + 1 }) c (hclear.spares i hcode)
    unfold Run.Leaves at hleaves
    unfold after
    dsimp only
    cases hrun : Run.progress c { f with next := f.next + 1 } i s.machine with
    | error e m' =>
      rw [hrun] at hleaves
      exact (h.undisturbed hleaves).holds_goTo (k := .failing e) trivial
    | ok p m' =>
      rw [hrun] at hleaves
      obtain ⟨hleft, hpast⟩ := hleaves
      have hlevel := h.undisturbed hleft
      have hbelongs := hc.mono hleft.images
      have hahead {g : Frame} (hg : Frame.Past i { f with next := f.next + 1 } g) : R.Ahead m' c g :=
        (hclear.ahead i g hcode hg).mono hleft.images
      cases p with
      | goes g => exact hlevel.holds_goTo ⟨hbelongs, hahead hpast⟩
      | returns v =>
        have hend : R.Holds n (follow c { s with machine := m' } (.returns v)) :=
          .level ⟨⟨hlevel.of, hlevel.waits⟩, hlevel.settled⟩ trivial
        simpa [hclear.returns i hcode hpast] using hend
      | calls callee wanted g =>
        exact (hlevel.wait (p := .frame c wanted g) ⟨hbelongs, hahead hpast.2.past⟩).holds_goTo hpast.1
      | refreshes property commands g =>
        exact (hlevel.wait (p := .frame c false g) ⟨hbelongs, hahead hpast.past⟩).holds_refreshing _ property commands
      | creates spec property g =>
        have hwaits := (hlevel.wait (p := .frame c true g) ⟨hbelongs, hahead hpast.past⟩).wait
          (p := .creation c.receiver spec property) trivial
        exact hwaits.holds_opens (Run.leaves_dispatchGetter c.receiver property)

/-- Whatever is asked begins with no registration. -/
theorem holds_asked (h : R.Level n s) (action : Action) : R.Holds n (s.asked action) := by
  cases action with
  | construct className =>
    refine h.holds_after (k := fun s new => s.goTo (.constructing new.1 new.2 new.2.initializers))
      (Run.leaves_newObject className) fun new _ _ himage hlevel => hlevel.holds_goTo ?_
    exact ⟨new.2, himage, fun _ hi => hi⟩
  | get object property => exact h.holds_opens (Run.leaves_dispatchGetter object property)
  | set object property value =>
    exact h.holds_opens ((Run.leaves_accessor object property _).bind fun _ _ _ => Run.leaves_dispatch object _ [value])
  | call object method args => exact h.holds_opens (Run.leaves_dispatch object method args)
  | command object property =>
    exact (h.wait (p := .commandOf property) trivial).holds_opens (Run.leaves_dispatchGetter object property)
  | canExecute id => exact h.holds_after (k := fun s _ => s.give .null) (Run.leaves_command id) fun _ _ _ _ hlevel =>
      hlevel.holds_give .null
  | execute id argument =>
    refine h.holds_opens ((Run.leaves_command id).bind fun c m' _ => ?_)
    dsimp only
    split
    · exact Run.leaves_dispatch _ _ _
    · exact Run.leaves_fail.bind (P := fun _ _ => True) fun _ _ _ => Run.leaves_dispatch _ _ _

end Level

/-- An instruction is executed among registrations. -/
theorem Amid.holds_executes (h : R.Base s) (hs : s.control = .running c f) (hc : c.Belongs s.machine)
    (hamid : R.Amid n s.machine c f) : R.Holds (n + (s.completes R.object R.init).toNat) (s.executes c f) := by
  have hreturning : s.completes R.object R.init = s.returning?.any R.isInit := rfl
  rw [hreturning, returning?, hs]
  unfold executes
  dsimp only
  obtain ⟨ends, rs, henrols, hgood⟩ := hamid
  have hend (hrs : rs = s.machine.locales) : R.Settled (n + (R.isInit c).toNat) s.machine := by
    intro hfits
    by_cases hreceiver : c.receiver = R.object
    · obtain ⟨hmethod, -, howned⟩ := (hgood hfits).1 hreceiver
      rwa [isInit_eq_true.mpr ⟨hreceiver, hmethod⟩, ← hrs]
    · rw [isInit_of_ne hreceiver]
      exact (hgood hfits).2 hreceiver
  cases hcode : c.method.code[f.next]? with
  | none =>
    rw [List.drop_eq_nil_of_le (List.getElem?_eq_none_iff.mp hcode)] at henrols
    cases henrols with
    | behind => exact .level ⟨⟨h.of, h.waits⟩, hend rfl⟩ trivial
  | some i =>
    obtain ⟨hlt, hi⟩ := List.getElem?_eq_some_iff.mp hcode
    rw [List.drop_eq_getElem_cons hlt, hi] at henrols
    have hprogress := Enrols.progress (f := { f with next := f.next + 1 }) henrols
    unfold after
    dsimp only
    cases hrun : Run.progress c { f with next := f.next + 1 } i s.machine with
    | error e m' =>
      rw [hrun] at hprogress
      obtain ⟨rfl, rfl, rfl⟩ := hprogress
      refine .level ⟨⟨h.of, h.waits⟩, fun hfits => (hgood hfits).2 fun hreceiver => ?_⟩ trivial
      -- The init method of the object does not stop here.
      exact Bool.false_ne_true ((hgood hfits).1 hreceiver).2.1
    | ok p m' =>
      rw [hrun] at hprogress
      cases p with
      | goes g =>
        obtain ⟨hnext, hm', hothers, hrest⟩ := hprogress
        have hgrows : s.machine.Grows m' := by
          rw [hm']
          exact .of_eq rfl rfl
        have hbase := h.grows hgrows
        refine .amid (f := g) ⟨hbase.of, hbase.waits⟩ rfl (hc.mono hgrows.images) ⟨ends, rs, ?_, fun hfits => ?_⟩
        · rw [hnext]
          exact hrest
        · have hgood := hgood (hfits.anti hgrows.images)
          exact ⟨hgood.1, fun hreceiver => (hothers _ hreceiver).trans (hgood.2 hreceiver)⟩
      | returns v =>
        obtain ⟨rfl, -, hrs⟩ := hprogress
        exact .level ⟨⟨h.of, h.waits⟩, hend hrs⟩ trivial
      | _ => exact hprogress.elim

/-- **A step keeps the account.**  If a run of the init method for the object ends in it, there is one more. -/
theorem Holds.next (h : R.Holds n s) : R.Holds (n + (s.completes R.object R.init).toNat) s.next := by
  have hnone (hs : ∀ c f, s.control ≠ .running c f) : n + (s.completes R.object R.init).toNat = n := by
    have hreturning : s.returning? = none := by
      unfold returning?
      split
      · exact absurd ‹_› (hs _ _)
      all_goals rfl
    rw [completes, hreturning]
    rfl
  cases h with
  | amid base running belongs amid =>
    unfold Interpreter.next
    rw [running]
    exact amid.holds_executes base running belongs
  | level level awaits =>
    unfold Interpreter.next
    split
    · rename_i c hs
      rw [hnone (by simp [hs])]
      rw [hs] at awaits
      exact level.holds_enters awaits
    · rename_i c f hs
      rw [hs] at awaits
      obtain hamid | hclear := awaits.2.amid_or_clear level.settled
      · exact hamid.holds_executes level.toBase hs awaits.1
      · exact level.holds_executes hs awaits.1 hclear
    · rename_i object property commands hs
      rw [hnone (by simp [hs])]
      exact level.holds_refreshes object property commands
    · rename_i object image rest hs
      rw [hnone (by simp [hs])]
      rw [hs] at awaits
      exact level.holds_constructs image awaits
    · rename_i v hs
      rw [hnone (by simp [hs])]
      split
      · rename_i p stack hstack
        have hwaits := level.waits
        rw [hstack] at hwaits
        have hpopped : R.Level n { s with stack } :=
          ⟨⟨level.of, fun q hq => hwaits q (List.mem_cons_of_mem p hq)⟩, level.settled⟩
        exact hpopped.holds_resume v (hwaits p List.mem_cons_self)
      · exact level.holds_goTo (k := .resting _) trivial
    · rename_i e hs
      rw [hnone (by simp [hs])]
      split
      · rename_i p stack hstack
        have hwaits := level.waits
        rw [hstack] at hwaits
        have hpopped : R.Base { s with stack } := ⟨level.of, fun q hq => hwaits q (List.mem_cons_of_mem p hq)⟩
        cases p <;> exact .level ⟨⟨hpopped.of, hpopped.waits⟩, level.settled⟩ awaits
      · exact level.holds_goTo (k := .resting _) trivial
    · rename_i hs
      rw [hnone (by simp [hs])]
      exact .level level awaits

end Registrant

/-- The account holds of all interpreters that are ever met. -/
theorem Interpreter.Completed.holds {R : Registrant} {n : Nat} {s : Interpreter}
    (h : Completed R.classes R.object R.init n s) : R.Holds n s := by
  have hrest {n : Nat} {s : Interpreter} (h : R.Holds n s) (hs : s.AtRest) : R.Level n s := by
    obtain ⟨result, hresult⟩ := hs
    cases h with
    | level level => exact level
    | amid base running =>
      rw [hresult] at running
      cases running
  induction h with
  | idle => exact .level ⟨⟨⟨nofun, nofun⟩, nofun⟩, fun _ => rfl⟩ trivial
  | load _ atRest mem ih =>
    have hlevel := hrest ih atRest
    obtain ⟨result, hresult⟩ := atRest
    refine .level ⟨⟨hlevel.of.load mem, fun p hp => ?_⟩, hlevel.settled⟩ (by rw [hresult]; trivial)
    exact (hlevel.waits p hp).mono (List.prefix_refl _)
  | clear _ atRest ih =>
    have hlevel := hrest ih atRest
    obtain ⟨result, hresult⟩ := atRest
    refine .level ⟨⟨hlevel.of.clearEvents, fun p hp => ?_⟩, hlevel.settled⟩ (by rw [hresult]; trivial)
    exact (hlevel.waits p hp).mono (List.prefix_refl _)
  | ask _ atRest action ih => exact (hrest ih atRest).holds_asked action
  | next _ ih => exact ih.next

/-- **Locale bindings arrive complete and in order.**  Let a class be analyzed with no findings but warnings and be
compiled with the patch module of its model, and let there be fewer than 65536 locale objects.  Its model has the binding
of each member whose annotation is accepted once, with its registry and its object, all of them in the order in which
they are first met.  Whatever classes are loaded and whatever is asked of a machine, unless the init method is just being
executed for an object of the class, the object owns one registration for each locale object, in order, with the bindings
of that and no others, as often as the init method has run to its end for it. -/
theorem locale_bindings_arrive {s : DeclarationSet} {c : ClassDecl} {model : ClassModel} {module : PatchModule}
    {image : ClassImage} (analyzed : (s.analyzeClass c).1 = some model)
    (clean : ∀ f ∈ (s.analyzeClass c).2, f.isWarning = true) (generated : PatchModule.ofModel model = .ok module)
    (applied : ClassImage.ofPatched c s.conventions module = .ok image) (few : model.localeObjects.length < 65536) :
    model.Localized c ∧ ∃ init, image.methods.find? image.initMethod = some init ∧
      ∀ classes : List LoadedClass, (∀ L ∈ classes, L.Assembled) → ∀ (object n : Nat) (t : Interpreter),
        Interpreter.Completed classes object init n t → (∀ i, t.machine.objects[object]? = some i → i.image = image) →
          (∀ call f, t.control = .running call f → call.receiver = object → call.method ≠ init) →
            ownedBy object t.machine.locales = (List.replicate n (model.localeObjects.map (.of object))).flatten := by
  refine ⟨localized_of_analyzeClass analyzed fun f hf hcode => ?_, ?_⟩
  · have hwarning := clean f hf
    rw [Finding.isWarning_of_code hcode] at hwarning
    cases hwarning
  obtain ⟨init, hfound, hregisters, hspares⟩ := ClassImage.exists_init_ofPatched generated applied
  rw [(analyzeClass_eq_some analyzed).2.1, ← ClassImage.initMethod_ofPatched applied] at hfound
  refine ⟨init, hfound, fun classes assembled object n t completed hobject hrunning => ?_⟩
  let R : Registrant := ⟨classes, object, image, init, model.localeObjects, fun L hL m hm => (assembled L hL).registers hm,
    hregisters, hspares, few⟩
  have hfits : R.Fits t.machine := by
    intro image' himage
    rw [Machine.images, List.getElem?_map] at himage
    obtain ⟨i, hi, rfl⟩ := Option.map_eq_some_iff.mp himage
    exact hobject i hi
  have hholds : R.Holds n t := completed.holds
  cases hholds with
  | level level => exact level.settled hfits
  | @amid call f _ running _ amid =>
    obtain ⟨ends, rs, -, hgood⟩ := amid
    by_cases hreceiver : call.receiver = object
    · exact absurd ((hgood hfits).1 hreceiver).1 (hrunning call f running hreceiver)
    · exact (hgood hfits).2 hreceiver

/-- A property that a registry localizes by a key. -/
def localizedBy (name registry key : String) (more : List AttributeArg) : MemberDecl :=
  ⟨name, [⟨"Localized", [⟨none, .string registry, .none⟩, ⟨none, .string key, .none⟩] ++ more, .none⟩], [],
    .property ⟨⟨"string", [], false⟩, some ⟨none, .none⟩, none, none⟩, .none, .none⟩

/-- A storefront.  The shop and the street each have a sign, and the shop has a note beside it. -/
def storefront : ClassDecl where
  name := "Storefront"
  typeParams := []
  modifiers := [.partial_]
  bases := [⟨"ReactiveObjectBase", [], false⟩]
  members :=
    [localizedBy "Title" "Shop" "Key" [⟨some "ObjectName", .string "Sign", .none⟩],
      localizedBy "Hours" "Street" "Key" [⟨some "ObjectName", .string "Sign", .none⟩, ⟨some "Retain", .bool true, .none⟩],
      localizedBy "Note" "Shop" "Key" [],
      localizedBy "Price" "Shop" "Hours" [⟨some "ObjectName", .string "Sign", .none⟩],
      ⟨"Key", [], [], .property ⟨⟨"string", [], false⟩, some ⟨none, .none⟩, none, none⟩, .none, .none⟩]
  nameSpan := .none
  span := .none

/-- The file that declares a storefront and nothing else. -/
def storefrontFile : DeclarationSet := ⟨"", "", ⟨[], none, [storefront]⟩, default⟩

/-- The storefront with the patch module of its model. -/
def storefrontClass : LoadedClass := (LoadedClass.load? storefrontFile storefront).get (by decide +kernel)

/-- A storefront that is being constructed. -/
def storefrontSession : Interpreter :=
  Interpreter.asked { Interpreter.idle with machine := Machine.empty.load storefrontClass.image } (.construct "Storefront")

/-- A storefront that has been constructed has two signs of one name, each with bindings of its own. -/
theorem locale_bindings_arrive_storefront : ∃ init t,
    storefrontClass.image.methods.find? storefrontClass.image.initMethod = some init ∧ t.AtRest ∧
    Interpreter.Completed [storefrontClass] 0 init 1 t ∧ ownedBy 0 t.machine.locales =
      [⟨"Shop", some "Sign", 0, [⟨"Key", "Title", false⟩, ⟨"Hours", "Price", false⟩]⟩,
        ⟨"Shop", none, 0, [⟨"Key", "Note", false⟩]⟩, ⟨"Street", some "Sign", 0, [⟨"Key", "Hours", true⟩]⟩] := by
  have hload : LoadedClass.load? storefrontFile storefront = some storefrontClass := (Option.some_get _).symm
  obtain ⟨model, module, hclass, analyzed, generated, applied⟩ := LoadedClass.exists_of_load? hload
  have hmodel : storefrontClass.model = some model := congrArg LoadedClass.model hclass
  have hobjects : (storefrontClass.model.all fun model => decide (model.localeObjects.length < 65536 ∧
      (List.replicate 1 (model.localeObjects.map (LocaleRegistration.of 0))).flatten =
        [⟨"Shop", some "Sign", 0, [⟨"Key", "Title", false⟩, ⟨"Hours", "Price", false⟩]⟩,
          ⟨"Shop", none, 0, [⟨"Key", "Note", false⟩]⟩, ⟨"Street", some "Sign", 0, [⟨"Key", "Hours", true⟩]⟩])) = true := by
    decide +kernel
  rw [hmodel, Option.all_some] at hobjects
  obtain ⟨hfew, hentries⟩ := of_decide_eq_true hobjects
  obtain ⟨-, init, hfound, harrive⟩ := locale_bindings_arrive analyzed (by decide +kernel) generated applied hfew
  have hcount : ((storefrontClass.image.methods.find? storefrontClass.image.initMethod).all fun init =>
      decide (storefrontSession.completions 0 init 19 = 1)) = true := by decide +kernel
  rw [hfound, Option.all_some] at hcount
  have hone : storefrontSession.completions 0 init 19 = 1 := of_decide_eq_true hcount
  have hcompleted : Interpreter.Completed [storefrontClass] 0 init 1 (storefrontSession.steps 19) := by
    have hasked : Interpreter.Completed [storefrontClass] 0 init 0 storefrontSession :=
      .ask (.load .idle ⟨_, rfl⟩ List.mem_cons_self) ⟨_, rfl⟩ (.construct "Storefront")
    have hsteps := hasked.steps 19
    rwa [hone] at hsteps
  obtain ⟨r, hr⟩ := Option.isSome_iff_exists.mp
    (show (storefrontSession.steps 19).result?.isSome = true by decide +kernel)
  obtain ⟨result, hresult⟩ := Interpreter.atRest_of_result? hr
  refine ⟨init, storefrontSession.steps 19, hfound, ⟨result, hresult⟩, hcompleted, Eq.trans ?_ hentries⟩
  refine harrive _ (List.forall_mem_singleton.mpr (LoadedClass.load?_eq_some hload).1.assembled) 0 1 _ hcompleted
    (fun i hi => ?_) fun call f hrunning => ?_
  · have himages : (storefrontSession.steps 19).machine.objects.map Instance.image = [storefrontClass.image] := by
      decide +kernel
    exact List.mem_singleton.mp (himages ▸ List.mem_map_of_mem (List.mem_of_getElem? hi))
  · rw [hresult] at hrunning
    cases hrunning

end Reactive
