import Reactive.Machine.Run
import Reactive.Proofs.Stateful

/-!
# Reactive.Proofs.Execution — from instruction to instruction

`Run.body` counts the instructions that it executes.  Here the instructions of a method are followed without counting.

* `Reaches`: from one frame to another, each instruction leading further on.
* `Leads`: to a frame, or to a returned value; `Stops`: to an instruction that fails.
* `Simulates`: whatever a computation does, the instructions from a frame on do the same.
* `body_of_simulates`: a method that simulates a computation from its start does what the computation does, with any
  number of instructions that exceeds its length; with a smaller number it may be exhausted (`body_or_exhausted`).
-/

namespace Reactive.Run

open Stateful

variable (enter : Enter) (a : Activation)

/-- From one frame the instructions of a method lead to another one that is further on. -/
inductive Reaches : Frame → Machine → Frame → Machine → Prop
  | refl (f : Frame) (m : Machine) : Reaches f m f m
  | step {f f₁ f₂ : Frame} {m m₁ m₂ : Machine} {i : Instruction} (fetched : a.method.code[f.next]? = some i)
      (executed : step enter a { f with next := f.next + 1 } i m = .ok (.go f₁) m₁) (further : f.next < f₁.next)
      (rest : Reaches f₁ m₁ f₂ m₂) : Reaches f m f₂ m₂

/-- From a frame the instructions of a method lead to the return of a value; behind the last one it is null. -/
def Returns (f : Frame) (m : Machine) (v : Value) (m' : Machine) : Prop :=
  ∃ f₁ m₁, Reaches enter a f m f₁ m₁ ∧
    ((∃ i, a.method.code[f₁.next]? = some i ∧
        step enter a { f₁ with next := f₁.next + 1 } i m₁ = .ok (.returned v) m') ∨
      (a.method.code[f₁.next]? = none ∧ v = .null ∧ m' = m₁))

/-- From a frame the instructions of a method lead to one that stops the run. -/
def Stops (f : Frame) (m : Machine) (e : Stop) (m' : Machine) : Prop :=
  ∃ f₁ m₁ i, Reaches enter a f m f₁ m₁ ∧ a.method.code[f₁.next]? = some i ∧
    step enter a { f₁ with next := f₁.next + 1 } i m₁ = .error e m'

/-- From a frame the instructions of a method lead to an outcome. -/
def Leads (f : Frame) (m : Machine) (o : Outcome) (m' : Machine) : Prop :=
  match o with
  | .go f' => Reaches enter a f m f' m'
  | .returned v => Returns enter a f m v m'

/-- Whatever a computation does, the instructions from a frame on do, too: they lead to the outcome that belongs to its
value, or stop as it stops. -/
def Simulates {α : Type} (f : Frame) (x : Run α) (o : α → Outcome) : Prop :=
  ∀ m, match x m with
    | .ok v m' => Leads enter a f m (o v) m'
    | .error e m' => Stops enter a f m e m'

variable {enter a}

/-! ### Putting pieces together -/

theorem Reaches.trans {f₁ f₂ f₃ : Frame} {m₁ m₂ m₃ : Machine} (h : Reaches enter a f₁ m₁ f₂ m₂)
    (h' : Reaches enter a f₂ m₂ f₃ m₃) : Reaches enter a f₁ m₁ f₃ m₃ := by
  induction h with
  | refl f m => exact h'
  | step fetched executed further _ ih => exact .step fetched executed further (ih h')

theorem Reaches.next_le {f f' : Frame} {m m' : Machine} (h : Reaches enter a f m f' m') : f.next ≤ f'.next := by
  induction h with
  | refl f m => exact Nat.le_refl _
  | step _ _ further _ ih => omega

theorem Reaches.leads {f₁ f₂ : Frame} {m₁ m₂ m₃ : Machine} {o : Outcome} (h : Reaches enter a f₁ m₁ f₂ m₂)
    (h' : Leads enter a f₂ m₂ o m₃) : Leads enter a f₁ m₁ o m₃ := by
  cases o with
  | go f => exact h.trans h'
  | returned v =>
    obtain ⟨f₃, m₄, h₃, hend⟩ := h'
    exact ⟨f₃, m₄, h.trans h₃, hend⟩

theorem Reaches.stops {f₁ f₂ : Frame} {m₁ m₂ m₃ : Machine} {e : Stop} (h : Reaches enter a f₁ m₁ f₂ m₂)
    (h' : Stops enter a f₂ m₂ e m₃) : Stops enter a f₁ m₁ e m₃ := by
  obtain ⟨f₃, m₄, i, h₃, hend⟩ := h'
  exact ⟨f₃, m₄, i, h.trans h₃, hend⟩

namespace Simulates

variable {α β : Type}

/-- Nothing needs no instruction. -/
theorem pure_go (f : Frame) (v : α) {o : α → Outcome} (h : o v = .go f) : Simulates enter a f (pure v) o := by
  intro m
  show Leads enter a f m (o v) m
  rw [h]
  exact .refl f m

/-- One instruction that goes on behind itself. -/
theorem instruction {f : Frame} {i : Instruction} {x : Run α} {k : α → Frame}
    (fetched : a.method.code[f.next]? = some i)
    (executed : step enter a { f with next := f.next + 1 } i = x >>= fun v => pure (.go (k v)))
    (further : ∀ v, f.next < (k v).next) : Simulates enter a f x (fun v => .go (k v)) := by
  intro m
  have hm := congrFun executed m
  rw [bind_apply] at hm
  cases hx : x m with
  | ok v m' =>
    rw [hx] at hm
    exact .step fetched hm (further v) (.refl _ _)
  | error e m' =>
    rw [hx] at hm
    exact ⟨f, m, i, .refl _ _, fetched, hm⟩

/-- One instruction that ends the method. -/
theorem return_ {f : Frame} {i : Instruction} {v : Value} (fetched : a.method.code[f.next]? = some i)
    (executed : step enter a { f with next := f.next + 1 } i = pure (.returned v)) (u : α) {o : α → Outcome}
    (h : o u = .returned v) : Simulates enter a f (pure u) o := by
  intro m
  show Leads enter a f m (o u) m
  rw [h]
  exact ⟨f, m, .refl f m, Or.inl ⟨i, fetched, congrFun executed m⟩⟩

/-- Behind the last instruction the method returns null. -/
theorem off_end {f : Frame} (h : a.method.code[f.next]? = none) (u : α) {o : α → Outcome} (ho : o u = .returned .null) :
    Simulates enter a f (pure u) o := by
  intro m
  show Leads enter a f m (o u) m
  rw [ho]
  exact ⟨f, m, .refl f m, Or.inr ⟨h, rfl, rfl⟩⟩

/-- What follows begins where the first part has led to; if that returns, what follows is idle. -/
theorem bind {f : Frame} {x : Run α} {y : α → Run β} {o : α → Outcome} {o' : β → Outcome}
    (hx : Simulates enter a f x o)
    (hgo : ∀ v f', (∃ m m', x m = .ok v m') → o v = .go f' → Simulates enter a f' (y v) o')
    (hret : ∀ v w, o v = .returned w → ∃ u, y v = pure u ∧ o' u = .returned w) :
    Simulates enter a f (x >>= y) o' := by
  intro m
  have hxm := hx m
  rw [bind_apply]
  cases hm : x m with
  | error e m' =>
    rw [hm] at hxm
    exact hxm
  | ok v m' =>
    rw [hm] at hxm
    dsimp only at hxm ⊢
    cases ho : o v with
    | go f' =>
      rw [ho] at hxm
      have hym := hgo v f' ⟨m, m', hm⟩ ho m'
      cases hy : y v m' with
      | ok u m'' =>
        rw [hy] at hym
        exact Reaches.leads hxm hym
      | error e m'' =>
        rw [hy] at hym
        exact Reaches.stops hxm hym
    | returned w =>
      obtain ⟨u, hu, hou⟩ := hret v w ho
      rw [hu]
      show Leads enter a f m (o' u) m'
      rw [hou, ← ho]
      exact hxm

/-- A sequence whose first part goes on with a value that it can give. -/
theorem seq_of {f : Frame} {x : Run α} {y : α → Run β} {k : α → Frame} {o : β → Outcome}
    (hx : Simulates enter a f x (fun v => .go (k v)))
    (hy : ∀ v, (∃ m m', x m = .ok v m') → Simulates enter a (k v) (y v) o) :
    Simulates enter a f (x >>= y) o := by
  refine hx.bind ?_ ?_
  · rintro v f' hv ⟨⟩
    exact hy v hv
  · rintro v w ⟨⟩

/-- A sequence whose first part goes on. -/
theorem seq {f : Frame} {x : Run α} {y : α → Run β} {k : α → Frame} {o : β → Outcome}
    (hx : Simulates enter a f x (fun v => .go (k v))) (hy : ∀ v, Simulates enter a (k v) (y v) o) :
    Simulates enter a f (x >>= y) o := hx.seq_of fun v _ => hy v

/-- Instructions that change nothing but the frame may go before. -/
theorem before {f : Frame} {v : α} {y : Run β} {k : α → Frame} {o : β → Outcome}
    (hx : Simulates enter a f (pure v) (fun v => .go (k v))) (hy : Simulates enter a (k v) y o) :
    Simulates enter a f y o := by
  refine hx.seq_of (y := fun _ => y) ?_
  rintro w ⟨m, m', hw⟩
  obtain ⟨rfl, -⟩ := pure_eq_ok.mp hw
  exact hy

/-- Instructions that change nothing but the frame may follow. -/
theorem follow {f : Frame} {x : Run α} {k k' : α → Frame} (hx : Simulates enter a f x (fun v => .go (k v)))
    (h : ∀ v m, Reaches enter a (k v) m (k' v) m) : Simulates enter a f x (fun v => .go (k' v)) := by
  intro m
  have hm := hx m
  cases hxm : x m with
  | ok v m' =>
    rw [hxm] at hm
    exact Reaches.trans hm (h v m')
  | error e m' =>
    rw [hxm] at hm
    exact hm

/-- A computation that fails at once. -/
theorem fail_ {f : Frame} {i : Instruction} {e : Stop} {o : α → Outcome} (fetched : a.method.code[f.next]? = some i)
    (executed : step enter a { f with next := f.next + 1 } i = throw e) :
    Simulates enter a f (throw e : Run α) o := by
  intro m
  exact ⟨f, m, i, .refl f m, fetched, congrFun executed m⟩

end Simulates

/-! ### Counting -/

theorem body_step {f : Frame} {i : Instruction} (h : a.method.code[f.next]? = some i) (fuel : Nat) (m : Machine) :
    body enter a (fuel + 1) f m =
      match step enter a { f with next := f.next + 1 } i m with
      | .ok (.go f') m' => body enter a fuel f' m'
      | .ok (.returned v) m' => .ok v m'
      | .error e m' => .error e m' := by
  rw [body, h]
  dsimp only
  rw [bind_apply]
  cases step enter a { f with next := f.next + 1 } i m with
  | ok o m' => cases o <;> rfl
  | error e m' => rfl

theorem body_end {f : Frame} (h : a.method.code[f.next]? = none) (fuel : Nat) (m : Machine) :
    body enter a (fuel + 1) f m = .ok .null m := by
  rw [body, h]
  rfl

/-- A place from which an instruction is fetched lies in the method. -/
theorem next_lt_of_fetched {f : Frame} {i : Instruction} (h : a.method.code[f.next]? = some i) :
    f.next < a.method.code.length := (List.getElem?_eq_some_iff.mp h).1

/-- Instructions that lead on are executed one by one, as long as their number lasts; each is another one. -/
theorem body_of_reaches {f f' : Frame} {m m' : Machine} (h : Reaches enter a f m f' m') :
    ∃ n, n ≤ a.method.code.length - f.next ∧ n ≤ f'.next - f.next ∧
      (∀ fuel, body enter a (n + fuel) f m = body enter a fuel f' m') ∧
      ∀ fuel < n, ∃ m'', body enter a fuel f m = .error .exhausted m'' := by
  induction h with
  | refl f m => exact ⟨0, by omega, by omega, fun fuel => by rw [Nat.zero_add], fun fuel hf => absurd hf (by omega)⟩
  | @step f f₁ f₂ m m₁ m₂ i fetched executed further rest ih =>
    obtain ⟨n, hn, hn', hrun, hless⟩ := ih
    have hlt := next_lt_of_fetched fetched
    have hle := rest.next_le
    refine ⟨n + 1, by omega, by omega, fun fuel => ?_, fun fuel hf => ?_⟩
    · rw [show n + 1 + fuel = n + fuel + 1 by omega, body_step fetched, executed]
      exact hrun fuel
    · cases fuel with
      | zero => exact ⟨m, rfl⟩
      | succ fuel =>
        rw [body_step fetched, executed]
        exact hless fuel (by omega)

/-- Instructions that simulate a computation are executed one by one up to the frame that belongs to its value, or until
they stop as it stops. -/
theorem body_of_go {α : Type} {f : Frame} {x : Run α} {k : α → Frame}
    (h : Simulates enter a f x (fun v => .go (k v))) (m : Machine) :
    ∃ n, n ≤ a.method.code.length ∧ ∀ fuel, body enter a (n + fuel) f m =
      match x m with
      | .ok v m' => body enter a fuel (k v) m'
      | .error e m' => .error e m' := by
  have hm := h m
  cases hx : x m with
  | ok v m' =>
    rw [hx] at hm
    obtain ⟨n, hn, -, hrun, -⟩ := body_of_reaches hm
    exact ⟨n, by omega, hrun⟩
  | error e m' =>
    rw [hx] at hm
    obtain ⟨f₁, m₁, i, hreach, fetched, executed⟩ := hm
    obtain ⟨n, hn, hn', hrun, -⟩ := body_of_reaches hreach
    have hlt := next_lt_of_fetched fetched
    have hle := hreach.next_le
    refine ⟨n + 1, by omega, fun fuel => ?_⟩
    rw [show n + 1 + fuel = n + (fuel + 1) by omega, hrun, body_step fetched, executed]

/-- What a method does from a frame on is what the computation does that it simulates, unless the number of instructions
does not last. -/
theorem body_or_exhausted {f : Frame} {x : Run Value} (h : Simulates enter a f x .returned) (fuel : Nat)
    (m : Machine) : body enter a fuel f m = x m ∨
      (fuel ≤ a.method.code.length - f.next ∧ ∃ m', body enter a fuel f m = .error .exhausted m') := by
  -- The end of the run takes one more instruction than the way to it.
  have key : ∀ f₁ m₁, Reaches enter a f m f₁ m₁ → (∀ k, body enter a (k + 1) f₁ m₁ = x m) →
      body enter a fuel f m = x m ∨
        (fuel ≤ a.method.code.length - f.next ∧ ∃ m', body enter a fuel f m = .error .exhausted m') := by
    intro f₁ m₁ hreach hend
    obtain ⟨n, hn, -, hrun, hless⟩ := body_of_reaches hreach
    rcases Nat.lt_or_ge n fuel with hlt | hge
    · left
      obtain ⟨k, rfl⟩ : ∃ k, fuel = n + (k + 1) := ⟨fuel - n - 1, by omega⟩
      rw [hrun, hend]
    · right
      refine ⟨by omega, ?_⟩
      rcases Nat.lt_or_eq_of_le hge with hlt | rfl
      · exact hless fuel hlt
      · exact ⟨m₁, hrun 0⟩
  have hm := h m
  cases hx : x m with
  | ok v m' =>
    rw [hx] at hm
    rw [← hx]
    obtain ⟨f₁, m₁, hreach, ⟨i, fetched, executed⟩ | ⟨fetched, rfl, rfl⟩⟩ := hm
    · exact key f₁ m₁ hreach fun k => by rw [body_step fetched, executed, hx]
    · exact key f₁ _ hreach fun k => by rw [body_end fetched, hx]
  | error e m' =>
    rw [hx] at hm
    rw [← hx]
    obtain ⟨f₁, m₁, i, hreach, fetched, executed⟩ := hm
    exact key f₁ m₁ hreach fun k => by rw [body_step fetched, executed, hx]

/-- A method that is given more instructions than it has does what the computation does that it simulates. -/
theorem body_of_simulates {f : Frame} {x : Run Value} (h : Simulates enter a f x .returned) {fuel : Nat}
    (hfuel : a.method.code.length < fuel) : body enter a fuel f = x := by
  funext m
  rcases body_or_exhausted h fuel m with heq | ⟨hle, -⟩
  · exact heq
  · omega

end Reactive.Run
