import Reactive.Proofs.Stepping

/-!
# Reactive.Proofs.Settling — where an interpreter comes to

* `FallsTo`: what waits in one state only is dropped when something fails there.
* `Settles`: an interpreter comes to where a computation ends, be it well or not; while that is exhausted, it is busy.
  One after the other is `Settles.bind`, and there is a rule for each thing that may wait.
* `Enters`: methods come to what entering them inside one another ends with (`enters_enter`).
* `IsFree.result_iff`: what is asked of an interpreter for which nothing waits is done as methods that run inside one
  another do it.
-/

namespace Reactive

open Stateful Run

/-- The command that is being evaluated while something waits. -/
def Pending.command? : Pending → Option Nat
  | evaluation _ _ id _ => some id
  | frame .. | run _ | creation .. | commandOf _ | initialValue .. | construction .. => none

namespace Interpreter

variable {s t u : Interpreter} {α β : Type} {n : Nat}

/-! ### Steps -/

theorem steps_add (s : Interpreter) : ∀ i j : Nat, s.steps (i + j) = (s.steps i).steps j
  | 0, j => by rw [Nat.zero_add, steps]
  | i + 1, j => by rw [Nat.succ_add, steps, steps, steps_add]

theorem AtRest.steps (h : s.AtRest) : ∀ n : Nat, s.steps n = s
  | 0 => rfl
  | n + 1 => by
    obtain ⟨result, hresult⟩ := h
    have hnext : s.next = s := by rw [next, hresult]
    rw [Interpreter.steps, hnext, AtRest.steps ⟨result, hresult⟩ n]

theorem atRest_of_result? {r : EStateM.Result Stop Machine Unit} (h : s.result? = some r) : s.AtRest := by
  unfold result? at h
  split at h
  · exact ⟨_, ‹_›⟩
  · exact ⟨_, ‹_›⟩
  · cases h

/-- An interpreter comes to rest in one way only. -/
theorem AtRest.unique {i j : Nat} (hi : (s.steps i).AtRest) (hj : (s.steps j).AtRest) : s.steps i = s.steps j := by
  rcases Nat.le_total i j with hle | hle
  · rw [← Nat.add_sub_cancel' hle, steps_add, hi.steps]
  · rw [← Nat.add_sub_cancel' hle, steps_add, hj.steps]

/-- What fails in one state comes to fail in another: what waits in the first one only is dropped. -/
def FallsTo (s t : Interpreter) : Prop :=
  ∀ e m d, ∃ j d', ({ s with machine := m, depth := d, control := .failing e } : Interpreter).steps j =
    { t with machine := m, depth := d', control := .failing e }

theorem fallsTo_refl (s : Interpreter) : s.FallsTo s := fun _ _ d => ⟨0, d, rfl⟩

theorem FallsTo.trans (h : s.FallsTo t) (h' : t.FallsTo u) : s.FallsTo u := by
  intro e m d
  obtain ⟨i, d₁, hi⟩ := h e m d
  obtain ⟨j, d₂, hj⟩ := h' e m d₁
  exact ⟨i + j, d₂, by rw [steps_add, hi, hj]⟩

theorem fallsTo_wait (s : Interpreter) {p : Pending} (hp : p.command? = none) : (s.wait p).FallsTo s := by
  intro e m d
  cases p with
  | evaluation => cases hp
  | _ => exact ⟨1, _, rfl⟩

theorem fallsTo_evaluation (s : Interpreter) (object : Nat) (property : String) (id : Nat) (rest : List Nat) :
    ({ s with refreshing := id :: s.refreshing }.wait (.evaluation object property id rest)).FallsTo s := by
  intro e m d
  refine ⟨1, d, ?_⟩
  show { s with machine := m, depth := d, refreshing := (id :: s.refreshing).erase id, control := .failing e } = _
  rw [List.erase_cons_head]

/-! ### Where an interpreter comes to -/

/-- The interpreter comes to what a computation ends with; if that is exhausted, it is busy for `n` steps. -/
def Settles (n : Nat) (s t : Interpreter) (r : EStateM.Result Stop Machine α) (k : α → Control) : Prop :=
  match r with
  | .ok a m => ∃ j, s.steps j = { t with machine := m, control := k a }
  | .error (.failed e) m => ∃ j d, s.steps j = { t with machine := m, depth := d, control := .failing (.failed e) }
  | .error .exhausted _ => ∀ j ≤ n, ¬(s.steps j).AtRest

variable {r : EStateM.Result Stop Machine α} {k : α → Control}

theorem Settles.mono {n' : Nat} (hn : n ≤ n') (h : Settles n' s t r k) : Settles n s t r k := by
  cases r with
  | ok a m => exact h
  | error e m =>
    cases e with
    | failed e => exact h
    | exhausted => exact fun j hj => h j (Nat.le_trans hj hn)

theorem Settles.of_steps (i : Nat) (h : Settles n (s.steps i) t r k) : Settles n s t r k := by
  cases r with
  | ok a m =>
    obtain ⟨j, hj⟩ := h
    exact ⟨i + j, by rw [steps_add, hj]⟩
  | error e m =>
    cases e with
    | failed e =>
      obtain ⟨j, d, hj⟩ := h
      exact ⟨i + j, d, by rw [steps_add, hj]⟩
    | exhausted =>
      intro j hj hrest
      by_cases hij : i ≤ j
      · refine h (j - i) (by omega) ?_
        rw [← steps_add, Nat.add_sub_cancel' hij]
        exact hrest
      -- At rest nothing changes any more.
      · refine h 0 (Nat.zero_le n) ?_
        have hi : s.steps i = s.steps j := by
          rw [show i = j + (i - j) by omega, steps_add, hrest.steps]
        rw [steps, hi]
        exact hrest

theorem Settles.of_next (h : Settles n s.next t r k) : Settles n s t r k := h.of_steps 1

/-- A step is one of those that an interpreter is busy for. -/
theorem Settles.succ (hs : ¬s.AtRest) (h : Settles n s.next t r k) : Settles (n + 1) s t r k := by
  cases r with
  | ok a m => exact h.of_next
  | error e m =>
    cases e with
    | failed e => exact h.of_next
    | exhausted =>
      rintro (_ | j) hj
      · exact hs
      · exact h j (Nat.le_of_succ_le_succ hj)

/-- **One after the other.**  What waits in between is dropped when the first one fails. -/
theorem Settles.bind {x : Run α} {f : α → Run β} {m : Machine} {k' : β → Control} (hx : Settles n s u (x m) k)
    (hu : u.FallsTo t) (hf : ∀ a m', Settles n { u with machine := m', control := k a } t (f a m') k') :
    Settles n s t ((x >>= f) m) k' := by
  rw [bind_apply]
  cases hrun : x m with
  | ok a m' =>
    rw [hrun] at hx
    obtain ⟨j, hj⟩ := hx
    refine Settles.of_steps j ?_
    rw [hj]
    exact hf a m'
  | error e m' =>
    rw [hrun] at hx
    cases e with
    | failed e =>
      obtain ⟨i, d, hi⟩ := hx
      obtain ⟨j, d', hj⟩ := hu (.failed e) m' d
      exact ⟨i + j, d', by rw [steps_add, hi, hj]⟩
    | exhausted => exact hx

/-- What is done on the machine at once. -/
theorem settles_after {x : Run α} (hx : Prompt x) {f : α → Run β} {K : Interpreter → α → Interpreter}
    {k' : β → Control} (hs : s.FallsTo t) (hf : ∀ a m, Settles n (K { s with machine := m } a) t (f a m) k') :
    Settles n (s.after x K) t ((x >>= f) s.machine) k' := by
  rw [bind_apply, after]
  cases hrun : x s.machine with
  | ok a m => exact hf a m
  | error e m =>
    cases e with
    | failed e =>
      obtain ⟨j, d, hj⟩ := hs (.failed e) m s.depth
      exact ⟨j, d, hj⟩
    | exhausted => exact absurd rfl (hx _ _ _ hrun)

/-! ### Methods -/

/-- Methods come to what entering them inside one another ends with, as long as `d` more calls may be open. -/
def Enters (n d : Nat) (enter : Enter) : Prop :=
  ∀ (s : Interpreter) (c : Call), s.depth + d = maxDepth →
    Settles n (s.goTo (.calling c)) s (enter (c.under s.refreshing) s.machine) .giving

section

variable {d : Nat} {enter : Enter} (he : Enters n d enter)

include he

theorem Enters.runs (hs : s.depth + d = maxDepth) (c : Call) :
    Settles n (s.runs c) s (enter (c.under s.refreshing) s.machine) .giving := by
  rw [← bind_pure (enter _)]
  refine (he (s.wait (.run s.depth)) c hs).bind (fallsTo_wait s rfl) fun v m => .of_next ⟨0, rfl⟩

theorem Enters.opens (hs : s.depth + d = maxDepth) {found : Run Dispatch} (hfound : Prompt found) :
    Settles n (s.opens found) s ((found >>= finish enter s.refreshing) s.machine) .giving := by
  refine settles_after hfound (fallsTo_refl s) fun o m => ?_
  cases o with
  | enters c => exact he.runs (s := { s with machine := m }) hs c
  | finished v => exact ⟨0, rfl⟩

/-- Reading a property that enables a command. -/
theorem Enters.read (hs : s.depth + d = maxDepth) (object : Nat) (property : String) :
    Settles n (s.opens (dispatchGetter object property)) s (read enter s.refreshing object property s.machine)
      .giving := by
  rw [read_eq]
  exact he.opens hs (prompt_dispatchGetter object property)

/-- Evaluating a command; then something is done with its value at once. -/
theorem Enters.enablement (hs : s.depth + d = maxDepth) {p : Pending} (hp : (s.wait p).FallsTo t) {property : String}
    {g : Bool → Run α} (hg : ∀ b, Prompt (g b)) (K : Interpreter → α → Interpreter)
    (hresume : ∀ v m, { s with machine := m }.resume v p = { u with machine := m }.after (gateOf property v >>= g) K)
    (hu : u.FallsTo t) {f : α → Run β} {k' : β → Control}
    (hf : ∀ a m, Settles n (K { u with machine := m } a) t (f a m) k') (object : Nat) :
    Settles n ((s.wait p).opens (dispatchGetter object property)) t
      ((enablement enter s.refreshing object property >>= fun b => g b >>= f) s.machine) k' := by
  rw [Run.enablement, bind_assoc]
  refine (he.read (s := s.wait p) hs object property).bind hp fun v m => .of_next ?_
  show Settles n ({ s with machine := m }.resume v p) t ((gateOf property v >>= fun b => g b >>= f) m) k'
  rw [hresume, ← bind_assoc]
  exact settles_after (s := { u with machine := m }) ((prompt_gateOf property v).bind hg) hu hf

/-- Commands that a property enables. -/
theorem Enters.refreshAll (object : Nat) (property : String) : ∀ (ids : List Nat) (s : Interpreter),
    s.depth + d = maxDepth → Settles n (s.goTo (.refreshing object property ids)) s
      (refreshAll enter s.refreshing object property ids s.machine) fun _ => .giving .null
  | [], _, _ => .of_next ⟨0, rfl⟩
  | id :: rest, s, hs => by
    refine Settles.of_next ?_
    show Settles n (s.refreshes object property (id :: rest)) s _ _
    rw [Run.refreshAll, refreshes]
    by_cases hid : s.refreshing.contains id = true
    · rw [if_pos hid, if_pos hid]
      exact Enters.refreshAll object property rest s hs
    · rw [if_neg hid, if_neg hid]
      refine he.enablement (s := { s with refreshing := id :: s.refreshing }) (u := s) hs
        (fallsTo_evaluation s object property id rest) (prompt_setEnabled id)
        (fun s _ => s.goTo (.refreshing object property rest)) (fun v m => ?_) (fallsTo_refl s)
        (fun _ m => Enters.refreshAll object property rest { s with machine := m } hs) object
      simp only [resume, List.erase_cons_head]

/-- An instruction that creates a command. -/
theorem Enters.pushCommand (hs : s.depth + d = maxDepth) (c : Call) (spec : CommandSpec) (property : String)
    (f : Frame) :
    Settles n (follow c s (.creates spec property f)) s
      (Run.pushCommand enter s.refreshing c.receiver spec property f s.machine) (.running c) := by
  refine he.enablement (s := s.wait (.frame c true f)) (u := s.wait (.frame c true f)) hs
    ((fallsTo_wait (s.wait _) rfl).trans (fallsTo_wait s rfl)) (prompt_addCommand _ spec)
    (fun s id => s.give (.command id)) (fun v m => rfl) (fallsTo_wait s rfl) (fun id m => ?_) c.receiver
  exact .of_next ⟨0, rfl⟩

/-! ### Instructions -/

/-- The instructions of a method come to what running it inside another one ends with. -/
theorem Enters.body (c : Call) : ∀ (i : Nat), i ≤ n → ∀ (s : Interpreter) (f : Frame), s.depth + 1 + d = maxDepth →
    Settles i ({ s with depth := s.depth + 1 }.goTo (.running c f)) s
      (Run.body enter (c.under s.refreshing) i f s.machine) .giving
  | 0, _, s, f, _ => by
    rintro j hj ⟨result, hresult⟩
    rw [Nat.le_zero.mp hj] at hresult
    cases hresult
  | i + 1, hi, s, f, hs => by
    refine Settles.succ (by rintro ⟨_, ⟨⟩⟩) ?_
    show Settles i (executes _ c f) s _ _
    rw [Run.body, executes]
    have hi' : i ≤ n := Nat.le_of_succ_le hi
    cases hcode : c.method.code[f.next]? with
    | none =>
      rw [show (c.under s.refreshing).method.code[f.next]? = none from hcode]
      exact ⟨0, rfl⟩
    | some instr =>
      rw [show (c.under s.refreshing).method.code[f.next]? = some instr from hcode]
      dsimp only
      rw [step_eq, bind_assoc]
      refine settles_after (prompt_progress c _ instr) (fallsTo_refl s) fun p m => ?_
      cases p with
      | goes f => exact Enters.body c i hi' { s with machine := m } f hs
      | returns v => exact ⟨0, rfl⟩
      -- The frame waits, and goes on when it is given its value.
      | calls callee wanted f =>
        show Settles i _ s (((enter (callee.under s.refreshing) >>= _) >>= _) m) _
        rw [bind_assoc]
        refine ((he ({ s with machine := m, depth := s.depth + 1 }.wait (.frame c wanted f)) callee hs).mono hi').bind
          (fallsTo_wait s rfl) fun v m' => .of_next ?_
        exact Enters.body c i hi' { s with machine := m' } (f.resumed wanted v) hs
      | refreshes property commands f =>
        show Settles i _ s (((Run.refreshAll enter s.refreshing c.receiver property commands >>= _) >>= _) m) _
        rw [bind_assoc]
        refine ((he.refreshAll c.receiver property commands
          ({ s with machine := m, depth := s.depth + 1 }.wait (.frame c false f)) hs).mono hi').bind
          (fallsTo_wait s rfl) fun _ m' => .of_next ?_
        exact Enters.body c i hi' { s with machine := m' } f hs
      | creates spec property f =>
        show Settles i _ s (((Run.pushCommand enter s.refreshing c.receiver spec property f >>= _) >>= _) m) _
        rw [bind_assoc]
        have hpush := he.pushCommand (s := { s with machine := m, depth := s.depth + 1 }) hs c spec property f
        refine (hpush.mono hi').bind
          (fallsTo_refl s) fun f m' => ?_
        exact Enters.body c i hi' { s with machine := m' } f hs

end

/-- **Methods come to what entering them inside one another ends with.** -/
theorem enters_enter (fuel : Nat) : ∀ d : Nat, Enters fuel d (enter fuel d)
  | 0, s, c, hs => by
    refine Settles.of_next ?_
    show Settles fuel (Interpreter.enters _ c) s _ _
    have hle : maxDepth ≤ (s.goTo (.calling c)).depth := Nat.le_of_eq hs.symm
    rw [Interpreter.enters, if_pos hle]
    exact ⟨0, s.depth, rfl⟩
  | d + 1, s, c, hs => by
    refine Settles.of_next ?_
    have hlt : ¬maxDepth ≤ (s.goTo (.calling c)).depth := by
      show ¬maxDepth ≤ s.depth
      omega
    show Settles fuel (Interpreter.enters _ c) s _ _
    rw [Interpreter.enters, if_neg hlt]
    exact (enters_enter fuel d).body c fuel (Nat.le_refl fuel) s (.start c.method) (by omega)

/-! ### From outside -/

/-- An interpreter that has something to do for which nothing waits. -/
structure IsFree (s : Interpreter) : Prop where
  depth : s.depth = 0
  refreshing : s.refreshing = []
  stack : s.stack = []

/-- What is asked of an interpreter is begun. -/
def asked (s : Interpreter) : Action → Interpreter
  | .construct className => s.construct className
  | .get object property => s.getProperty object property
  | .set object property value => s.setProperty object property value
  | .call object method args => s.call object method args
  | .command object property => s.command object property
  | .canExecute id => s.canExecute id
  | .execute id argument => s.execute id argument

/-- What comes of it in the end. -/
def rested (_ : Unit) : Control := .resting (.ok ())

section

variable (fuel : Nat)

/-- A value that nothing waits for. -/
theorem Settles.discard {x : Run α} {v : α → Value} {m : Machine} (hx : Settles n s t (x m) fun a => .giving (v a))
    (ht : t.stack = []) : Settles n s t (discard x m) rested := by
  rw [discard_eq_bind]
  refine hx.bind (fallsTo_refl t) fun a m' => .of_next ⟨0, ?_⟩
  simp only [steps, next, ht, goTo, rested]

variable (hs : s.IsFree)

include hs

theorem IsFree.depth_add : s.depth + maxDepth = maxDepth := by rw [hs.depth, Nat.zero_add]

/-- Members that are called from outside. -/
theorem IsFree.opens {found : Run Dispatch} (hfound : Prompt found) :
    Settles fuel (s.opens found) s (Functor.discard (found >>= finish (enterFirst fuel) []) s.machine) rested := by
  have h := (enters_enter fuel maxDepth).opens hs.depth_add hfound
  rw [hs.refreshing] at h
  exact Settles.discard (v := id) h hs.stack

/-- Members that are called from outside while something waits. -/
theorem IsFree.opens_wait (p : Pending) {found : Run Dispatch} (hfound : Prompt found) :
    Settles fuel ((s.wait p).opens found) (s.wait p) ((found >>= finish (enterFirst fuel) []) s.machine) .giving := by
  have h := (enters_enter fuel maxDepth).opens (s := s.wait p) hs.depth_add hfound
  rw [show (s.wait p).refreshing = [] from hs.refreshing] at h
  exact h

/-- Where things stand does not depend on the machine. -/
theorem IsFree.on (m : Machine) : ({ s with machine := m } : Interpreter).IsFree := ⟨hs.depth, hs.refreshing, hs.stack⟩

end

/-- The rest of a construction. -/
def completed (fuel object : Nat) (image : ClassImage) (rest : List Initializer) : Run Unit := do
  rest.forM (runInitializer fuel object)
  if image.derivesBase && image.methods.has image.initMethod then
    Functor.discard (invoke (enterFirst fuel) [] object image.initMethod [])

/-- An initial value goes to its field or through its setter. -/
def storeInitial (fuel object : Nat) (v : Value) : InitTarget → Run Unit
  | .field name => storeField object name v
  | .setter name => Functor.discard (invoke (enterFirst fuel) [] object name [v])

theorem completed_cons (fuel object : Nat) (image : ClassImage) (i : Initializer) (rest : List Initializer) :
    completed fuel object image (i :: rest) = enterFirst fuel ⟨i.code, object, [], []⟩ >>= fun v =>
      storeInitial fuel object v i.target >>= fun _ => completed fuel object image rest := by
  show (runInitializer fuel object i >>= fun _ => rest.forM _) >>= _ = _
  rw [runInitializer, bind_assoc, bind_assoc]
  rfl

/-- Initial values that are computed and stored one after another. -/
theorem IsFree.constructs (fuel object : Nat) (image : ClassImage) :
    ∀ (rest : List Initializer) {s : Interpreter}, s.IsFree →
    Settles fuel (s.goTo (.constructing object image rest)) s (completed fuel object image rest s.machine) rested
  | [], s, hs => by
    refine Settles.of_next ?_
    show Settles fuel (Interpreter.constructs _ object image []) s _ _
    rw [Interpreter.constructs]
    by_cases hinit : (image.derivesBase && image.methods.has image.initMethod) = true
    · have hrun : completed fuel object image [] =
          Functor.discard (dispatch object image.initMethod [] >>= finish (enterFirst fuel) []) := by
        rw [completed, if_pos hinit, ← invoke_eq]
        rfl
      rw [if_pos hinit, hrun]
      exact hs.opens fuel (prompt_dispatch object image.initMethod [])
    · have hrun : completed fuel object image [] = Functor.discard (pure Value.null) := by
        rw [completed, if_neg hinit]
        rfl
      rw [if_neg hinit, hrun]
      exact Settles.discard (v := id) ⟨0, rfl⟩ hs.stack
  | i :: rest, s, hs => by
    refine Settles.of_next ?_
    show Settles fuel (({ s with control := _ }.wait (.initialValue object image i.target rest)).runs _) s _ _
    rw [completed_cons]
    have hstored := (enters_enter fuel maxDepth).runs (s := s.wait (.initialValue object image i.target rest))
      hs.depth_add ⟨i.code, object, []⟩
    rw [show (s.wait _).refreshing = [] from hs.refreshing] at hstored
    refine hstored.bind (fallsTo_wait s rfl) fun v m => .of_next ?_
    show Settles fuel ({ s with machine := m }.resume v (.initialValue object image i.target rest)) s _ _
    cases i.target with
    | field name =>
      exact settles_after (s := { s with machine := m }) (K := fun s _ => s.goTo (.constructing object image rest))
        (prompt_storeField object name v) (fallsTo_refl s) fun _ m' => IsFree.constructs fuel object image rest (hs.on m')
    | setter name =>
      have hset := (hs.on m).opens_wait fuel (.construction object image rest) (prompt_dispatch object name [v])
      rw [← invoke_eq] at hset
      rw [storeInitial, discard_bind]
      exact hset.bind (fallsTo_wait s rfl) fun _ m' => .of_next (IsFree.constructs fuel object image rest (hs.on m'))

/-- **An interpreter comes to what the thing that is asked of it ends with.** -/
theorem IsFree.asked (fuel : Nat) (hs : s.IsFree) (action : Action) :
    Settles fuel (s.asked action) s (action.perform fuel s.machine) rested := by
  cases action with
  | construct className =>
    show Settles fuel (s.construct className) s (Functor.discard (Run.construct fuel className) s.machine) rested
    have hrun : Functor.discard (Run.construct fuel className) =
        newObject className >>= fun made => completed fuel made.1 made.2 made.2.initializers := by
      simp only [Run.construct, newObject, completed, discard_bind_right, bind_assoc, pure_bind]
      congr 1
      funext m
      congr 1
      funext image
      congr 1
      funext id
      congr 1
      funext u
      split
      · rw [discard_bind, discard_bind_right, discard_eq_bind (invoke _ _ _ _ _)]
        rfl
      · rfl
    rw [hrun]
    exact settles_after (prompt_newObject className) (fallsTo_refl s) fun made m =>
      IsFree.constructs fuel made.1 made.2 made.2.initializers (hs.on m)
  | get object property =>
    have h := hs.opens fuel (prompt_dispatchGetter object property)
    rw [← read_eq] at h
    exact h
  | set object property value =>
    have hrun : Run.setProperty fuel object property value = Functor.discard ((do
        dispatch object (← accessor object property PropertyDef.setter) [value]) >>= finish (enterFirst fuel) []) := by
      rw [bind_assoc, discard_bind_right, Run.setProperty]
      simp only [invoke_eq]
    show Settles fuel (s.setProperty object property value) s
      (Run.setProperty fuel object property value s.machine) rested
    rw [hrun]
    exact hs.opens fuel ((prompt_accessor object property _).bind fun _ => prompt_dispatch _ _ _)
  | call object method args =>
    have h := hs.opens fuel (prompt_dispatch object method args)
    rw [← invoke_eq] at h
    exact h
  | command object property =>
    have h := hs.opens_wait fuel (.commandOf property) (prompt_dispatchGetter object property)
    rw [← read_eq] at h
    refine Settles.discard (v := .command) (h.bind (fallsTo_wait s rfl) fun v m => .of_next ?_) hs.stack
    cases v with
    | command id => exact ⟨0, rfl⟩
    | _ => exact ⟨0, s.depth, rfl⟩
  | canExecute id =>
    have h : Settles fuel (s.canExecute id) s ((command_ id >>= fun c => pure c.enabled) s.machine)
        fun _ => .giving .null :=
      settles_after (prompt_command id) (fallsTo_refl s) fun c m => ⟨0, rfl⟩
    exact Settles.discard (v := fun _ => .null) h hs.stack
  | execute id argument =>
    have hrun : Run.execute fuel id argument = (do
        let c ← command_ id
        unless c.enabled do fail (.commandDisabled id)
        dispatch c.owner c.spec.method (if c.spec.takesArgument then [argument.getD .null] else [])) >>=
        finish (enterFirst fuel) [] := by
      simp only [Run.execute, Run.call, invoke_eq, bind_assoc]
      congr 1
      funext c
      by_cases henabled : c.enabled = true
      · simp only [henabled, if_true]
      · simp only [henabled]
        rfl
    show Settles fuel (s.execute id argument) s (Functor.discard (Run.execute fuel id argument) s.machine) rested
    rw [hrun]
    refine hs.opens fuel ((prompt_command id).bind fun c => ?_)
    by_cases henabled : c.enabled = true
    · simp only [henabled, if_true]
      exact prompt_dispatch _ _ _
    · simp only [henabled]
      exact (prompt_fail _).bind fun _ => prompt_dispatch _ _ _

/-- **What is asked of an interpreter is done as methods that run inside one another do it**, if it is ever done. -/
theorem IsFree.result_iff (hs : s.IsFree) (action : Action) (r : EStateM.Result Stop Machine Unit) :
    (∃ n, ((s.asked action).steps n).result? = some r) ↔
      ∃ fuel, action.perform fuel s.machine = r ∧ ∀ m, r ≠ .error .exhausted m := by
  -- Where the interpreter comes to rest with a number of instructions that is enough.
  have hrests (fuel : Nat) (hr : ∀ m, action.perform fuel s.machine ≠ .error .exhausted m) :
      ∃ j, ((s.asked action).steps j).result? = some (action.perform fuel s.machine) := by
    have h := hs.asked fuel action
    cases hrun : action.perform fuel s.machine with
    | ok u m =>
      rw [hrun] at h
      obtain ⟨j, hj⟩ := h
      exact ⟨j, by rw [hj]; rfl⟩
    | error e m =>
      rw [hrun] at h
      cases e with
      | exhausted => exact absurd hrun (hr m)
      | failed e =>
        obtain ⟨j, d, hj⟩ := h
        refine ⟨j + 1, ?_⟩
        rw [steps_add, hj]
        simp only [steps, next, hs.stack]
        rfl
  constructor
  · rintro ⟨n, hn⟩
    have hrest : ((s.asked action).steps n).AtRest := atRest_of_result? hn
    have hr (m : Machine) : action.perform n s.machine ≠ .error .exhausted m := by
      intro hrun
      have h := hs.asked n action
      rw [hrun] at h
      exact h n (Nat.le_refl n) hrest
    obtain ⟨j, hj⟩ := hrests n hr
    have hsame := hrest.unique (atRest_of_result? hj)
    rw [hsame, hj] at hn
    cases hn
    exact ⟨n, rfl, hr⟩
  · rintro ⟨fuel, rfl, hr⟩
    exact hrests fuel hr

end Interpreter

end Reactive
