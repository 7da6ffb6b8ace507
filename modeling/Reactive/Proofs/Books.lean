import Reactive.Proofs.Settling

/-!
# Reactive.Proofs.Books — what an interpreter counts

* `Stacked`: a stack as runs that are opened one above another leave it.
* `Kept`: what is counted is what is on the stack, with a clause for each thing that may be done next.  A step keeps
  this (`Kept.next`), whatever is asked begins with it (`Kept.asked`), so it holds of all interpreters that are ever met
  (`Visited.kept`).
* `books_balance`: at rest nothing is counted any more, whether what was asked for was done or failed.
-/

namespace Reactive

open Stateful Run

namespace Pending

/-- A frame waits. -/
def isFrame : Pending → Bool
  | frame .. => true
  | run _ | creation .. | evaluation .. | commandOf _ | initialValue .. | construction .. => false

end Pending

namespace Interpreter

/-- How many frames wait on a stack. -/
def frames (stack : List Pending) : Nat := stack.countP Pending.isFrame

theorem frames_frame (c : Call) (wanted : Bool) (f : Frame) (rest : List Pending) :
    frames (.frame c wanted f :: rest) = frames rest + 1 := List.countP_cons_of_pos rfl

theorem frames_other {p : Pending} (hp : p.isFrame = false) (rest : List Pending) : frames (p :: rest) = frames rest :=
  List.countP_cons_of_neg (by rw [hp]; exact Bool.false_ne_true)

/-- The commands that are being evaluated while what is on a stack waits. -/
def evaluated (stack : List Pending) : List Nat := stack.filterMap Pending.command?

/-- A command that is not evaluated any more. -/
theorem erase_evaluated {refreshing rest : List Nat} {id : Nat} (h : refreshing = id :: rest) :
    refreshing.erase id = rest := by
  rw [h, List.erase_cons_head]

/-- How many calls are open: a method is run, and frames wait. -/
def openCalls (s : Interpreter) : Nat :=
  match s.control with
  | .running .. => frames s.stack + 1
  | .calling _ | .refreshing .. | .constructing .. | .giving _ | .failing _ | .resting _ => frames s.stack

/-- What waits is being dropped. -/
def isFailing (s : Interpreter) : Bool :=
  match s.control with
  | .failing _ => true
  | .calling _ | .running .. | .refreshing .. | .constructing .. | .giving _ | .resting _ => false

/-! ### Stacks -/

/-- On the top of a stack a frame waits, or a run begins. -/
inductive InRun : List Pending → Prop
  | frame (c : Call) (wanted : Bool) (f : Frame) (rest : List Pending) : InRun (.frame c wanted f :: rest)
  | run (base : Nat) (rest : List Pending) : InRun (.run base :: rest)

/-- A stack as runs leave it that are opened one above another. -/
inductive Stacked : List Pending → Prop
  | nil : Stacked []
  | run {rest : List Pending} (below : Stacked rest) : Stacked (.run (frames rest) :: rest)
  | frame {rest : List Pending} (c : Call) (wanted : Bool) (f : Frame) (below : Stacked rest) (inRun : InRun rest) :
    Stacked (.frame c wanted f :: rest)
  | other {rest : List Pending} (p : Pending) (isFrame : p.isFrame = false) (not_run : ∀ base, p ≠ .run base)
    (below : Stacked rest) : Stacked (p :: rest)

/-- A run begins below every frame that waits. -/
theorem Stacked.frames_eq_zero_or {stack : List Pending} (h : Stacked stack) :
    frames stack = 0 ∨ ∃ base, .run base ∈ stack := by
  induction h with
  | nil => exact .inl rfl
  | run => exact .inr ⟨_, List.mem_cons_self⟩
  | frame c wanted f _ hrun ih =>
    cases hrun with
    | run base rest => exact .inr ⟨base, List.mem_cons_of_mem _ List.mem_cons_self⟩
    | frame c' wanted' f' rest =>
      obtain hzero | ⟨base, hbase⟩ := ih
      · rw [frames_frame] at hzero
        cases hzero
      · exact .inr ⟨base, List.mem_cons_of_mem _ hbase⟩
  | other p hframe _ _ ih =>
    obtain hzero | ⟨base, hbase⟩ := ih
    · exact .inl ((frames_other hframe _).trans hzero)
    · exact .inr ⟨base, List.mem_cons_of_mem _ hbase⟩

theorem Stacked.exists_run {stack : List Pending} (h : Stacked stack) (hrun : InRun stack) :
    ∃ base, .run base ∈ stack := by
  obtain hzero | hbase := h.frames_eq_zero_or
  · cases hrun with
    | run base rest => exact ⟨base, List.mem_cons_self⟩
    | frame c wanted f rest =>
      rw [frames_frame] at hzero
      cases hzero
  · exact hbase

section

variable {p : Pending} {rest : List Pending}

theorem Stacked.tail (h : Stacked (p :: rest)) : Stacked rest := by
  cases h with
  | run below => exact below
  | frame _ _ _ below _ => exact below
  | other _ _ _ below => exact below

theorem Stacked.inRun {c : Call} {wanted : Bool} {f : Frame} (h : Stacked (.frame c wanted f :: rest)) :
    InRun rest := by
  cases h with
  | frame _ _ _ _ hrun => exact hrun
  | other _ hframe => cases hframe

theorem Stacked.base_eq {base : Nat} (h : Stacked (.run base :: rest)) : base = frames rest := by
  cases h with
  | run => rfl
  | other _ _ hrun => exact absurd rfl (hrun base)

end

/-! ### What is counted -/

variable {s : Interpreter} {p : Pending} {rest : List Pending}

/-- As many calls are counted as frames wait. -/
structure Level (s : Interpreter) : Prop where
  stacked : Stacked s.stack
  refreshing : s.refreshing = evaluated s.stack
  nodup : s.refreshing.Nodup
  depth : s.depth = frames s.stack
  depth_le : s.depth ≤ maxDepth

/-- What is counted is what is on the stack, as far as nothing fails. -/
structure Kept (s : Interpreter) : Prop where
  stacked : Stacked s.stack
  refreshing : s.refreshing = evaluated s.stack
  nodup : s.refreshing.Nodup
  depth_le : s.depth ≤ maxDepth
  frames_le : frames s.stack ≤ maxDepth
  control : match s.control with
    | .calling _ => s.depth = frames s.stack ∧ InRun s.stack
    | .running .. => s.depth = frames s.stack + 1 ∧ InRun s.stack
    | .refreshing .. | .constructing .. | .giving _ => s.depth = frames s.stack
    -- What was counted before a run is restored when that is dropped.
    | .failing _ => s.depth = 0 ∨ ∃ base, .run base ∈ s.stack
    | .resting _ => s.depth = 0 ∧ s.stack = []

namespace Level

theorem on (h : Level s) (m : Machine) (c : Control) : Level { s with machine := m, control := c } :=
  ⟨h.stacked, h.refreshing, h.nodup, h.depth, h.depth_le⟩

theorem frames_le (h : Level s) : frames s.stack ≤ maxDepth := h.depth ▸ h.depth_le

theorem kept_failing (h : Level s) (m : Machine) (e : Stop) : Kept { s with machine := m, control := .failing e } := by
  refine ⟨h.stacked, h.refreshing, h.nodup, h.depth_le, h.frames_le, ?_⟩
  show s.depth = 0 ∨ _
  rw [h.depth]
  exact h.stacked.frames_eq_zero_or

theorem kept_give (h : Level s) (v : Value) : Kept (s.give v) :=
  ⟨h.stacked, h.refreshing, h.nodup, h.depth_le, h.frames_le, h.depth⟩

theorem kept_refreshing (h : Level s) (object : Nat) (property : String) (commands : List Nat) :
    Kept (s.goTo (.refreshing object property commands)) :=
  ⟨h.stacked, h.refreshing, h.nodup, h.depth_le, h.frames_le, h.depth⟩

theorem kept_constructing (h : Level s) (object : Nat) (image : ClassImage) (rest : List Initializer) :
    Kept (s.goTo (.constructing object image rest)) :=
  ⟨h.stacked, h.refreshing, h.nodup, h.depth_le, h.frames_le, h.depth⟩

/-- Something else waits. -/
theorem wait (h : Level s) {p : Pending} (hframe : p.isFrame = false) (hrun : ∀ base, p ≠ .run base)
    (hcommand : p.command? = none) : Level (s.wait p) := by
  refine ⟨.other p hframe hrun h.stacked, ?_, h.nodup, ?_, h.depth_le⟩
  · show s.refreshing = (p :: s.stack).filterMap Pending.command?
    rw [List.filterMap_cons_none hcommand]
    exact h.refreshing
  · exact h.depth.trans (frames_other hframe s.stack).symm

/-- A run is opened. -/
theorem kept_runs (h : Level s) (c : Call) : Kept (s.runs c) := by
  refine ⟨?_, h.refreshing, h.nodup, h.depth_le, h.frames_le, h.depth, .run _ _⟩
  show Stacked (.run s.depth :: s.stack)
  rw [h.depth]
  exact .run h.stacked

/-- Something is done on the machine. -/
theorem kept_after {α : Type} (h : Level s) (x : Run α) {k : Interpreter → α → Interpreter}
    (hk : ∀ (s : Interpreter) a, Level s → Kept (k s a)) : Kept (s.after x k) := by
  unfold after
  split
  · exact hk _ _ (h.on _ _)
  · exact h.kept_failing _ _

/-- A run of a member is opened. -/
theorem kept_opens (h : Level s) (found : Run Dispatch) : Kept (s.opens found) := by
  refine h.kept_after found fun s d hs => ?_
  cases d with
  | enters c => exact hs.kept_runs c
  | finished v => exact hs.kept_give v

/-- What waited for a value is given it. -/
theorem popped (h : Level s) (hstack : s.stack = p :: rest) (hframe : p.isFrame = false)
    (hcommand : p.command? = none) :
    Level { s with stack := rest } := by
  have hstacked := h.stacked
  have hrefreshing := h.refreshing
  have hdepth := h.depth
  rw [hstack] at hstacked hrefreshing hdepth
  rw [frames_other hframe] at hdepth
  rw [evaluated, List.filterMap_cons_none hcommand] at hrefreshing
  exact ⟨hstacked.tail, hrefreshing, h.nodup, hdepth, h.depth_le⟩

/-- A command has been evaluated. -/
theorem refreshed {object : Nat} {property : String} {id : Nat} {ids : List Nat} (h : Level s)
    (hstack : s.stack = .evaluation object property id ids :: rest) :
    Level { s with stack := rest, refreshing := s.refreshing.erase id } := by
  have hstacked := h.stacked
  have hrefreshing := h.refreshing
  have hdepth := h.depth
  rw [hstack] at hstacked hrefreshing hdepth
  exact ⟨hstacked.tail, erase_evaluated hrefreshing, h.nodup.erase id, hdepth, h.depth_le⟩

/-- A command is evaluated that is not being evaluated. -/
theorem evaluating (h : Level s) {id : Nat} (hid : id ∉ s.refreshing) (object : Nat) (property : String)
    (rest : List Nat) :
    Level ({ s with refreshing := id :: s.refreshing }.wait (.evaluation object property id rest)) := by
  refine ⟨.other _ rfl (fun _ => nofun) h.stacked, ?_, List.nodup_cons.mpr ⟨hid, h.nodup⟩, h.depth, h.depth_le⟩
  exact congrArg (id :: ·) h.refreshing

end Level

namespace Kept

/-! ### Instructions -/

/-- A frame waits for a method that is called, or for commands. -/
theorem waiting (h : Kept s) {c : Call} {f : Frame} (hs : s.control = .running c f) (wanted : Bool) (g : Frame) :
    Level (s.wait (.frame c wanted g)) ∧ InRun (s.wait (.frame c wanted g)).stack := by
  have hcontrol := h.control
  rw [hs] at hcontrol
  exact ⟨⟨.frame c wanted g h.stacked hcontrol.2, h.refreshing, h.nodup,
    hcontrol.1.trans (frames_frame c wanted g s.stack).symm, h.depth_le⟩, .frame ..⟩

theorem follow (h : Kept s) {c : Call} {f : Frame} (hs : s.control = .running c f) (p : Progress) :
    Kept (Interpreter.follow c s p) := by
  have hcontrol := h.control
  rw [hs] at hcontrol
  cases p with
  | goes g => exact ⟨h.stacked, h.refreshing, h.nodup, h.depth_le, h.frames_le, hcontrol⟩
  | returns v =>
    have hdepth : s.depth - 1 = frames s.stack := by omega
    exact ⟨h.stacked, h.refreshing, h.nodup, Nat.le_trans (Nat.sub_le _ _) h.depth_le, h.frames_le, hdepth⟩
  | calls callee wanted g =>
    obtain ⟨hlevel, hrun⟩ := h.waiting hs wanted g
    exact ⟨hlevel.stacked, hlevel.refreshing, hlevel.nodup, hlevel.depth_le, hlevel.frames_le, hlevel.depth, hrun⟩
  | refreshes property commands g => exact (h.waiting hs false g).1.kept_refreshing c.receiver property commands
  | creates spec property g =>
    have hwaits := (h.waiting hs true g).1.wait (p := .creation c.receiver spec property) rfl (fun _ => nofun) rfl
    exact hwaits.kept_opens (dispatchGetter c.receiver property)

theorem executes (h : Kept s) {c : Call} {f : Frame} (hs : s.control = .running c f) : Kept (s.executes c f) := by
  unfold Interpreter.executes
  split
  · rename_i i _
    unfold after
    split
    · rename_i p m _
      have hkept : Kept { s with machine := m } :=
        ⟨h.stacked, h.refreshing, h.nodup, h.depth_le, h.frames_le, h.control⟩
      exact hkept.follow hs p
    · refine ⟨h.stacked, h.refreshing, h.nodup, h.depth_le, h.frames_le, .inr ?_⟩
      have hcontrol := h.control
      rw [hs] at hcontrol
      exact h.stacked.exists_run hcontrol.2
  · exact h.follow hs (.returns .null)

/-! ### Values and failures -/

theorem level (h : Kept s) {v : Value} (hs : s.control = .giving v) : Level s := by
  have hcontrol := h.control
  rw [hs] at hcontrol
  exact ⟨h.stacked, h.refreshing, h.nodup, hcontrol, h.depth_le⟩

end Kept

theorem Level.kept_resume (h : Level s) (v : Value) (hstack : s.stack = p :: rest) :
    Kept ({ s with stack := rest }.resume v p) := by
  cases p with
  | frame c wanted f =>
    have hstacked := h.stacked
    have hrefreshing := h.refreshing
    have hdepth := h.depth
    rw [hstack] at hstacked hrefreshing hdepth
    rw [frames_frame] at hdepth
    refine ⟨hstacked.tail, hrefreshing, h.nodup, h.depth_le, ?_, hdepth, hstacked.inRun⟩
    show frames rest ≤ maxDepth
    have hle := h.depth_le
    omega
  | run base =>
    have hstacked := h.stacked
    have hdepth := h.depth
    rw [hstack] at hstacked hdepth
    have hlevel := h.popped hstack rfl rfl
    have hbase : base = s.depth := hstacked.base_eq.trans hdepth.symm
    subst hbase
    exact hlevel.kept_give v
  | creation owner spec property =>
    exact (h.popped hstack rfl rfl).kept_after (k := fun s id => s.give (.command id)) _ fun s id hs => hs.kept_give _
  | evaluation object property id ids =>
    exact (h.refreshed hstack).kept_after (k := fun s _ => s.goTo (.refreshing object property ids)) _
      fun s _ hs => hs.kept_refreshing object property ids
  | commandOf property =>
    have hlevel := h.popped hstack rfl rfl
    cases v with
    | command id => exact hlevel.kept_give _
    | _ => exact hlevel.kept_failing _ _
  | initialValue object image target inits =>
    have hlevel := h.popped hstack rfl rfl
    cases target with
    | field name =>
      exact hlevel.kept_after (k := fun s _ => s.goTo (.constructing object image inits)) _
        fun s _ hs => hs.kept_constructing object image inits
    | setter name =>
      exact (hlevel.wait (p := .construction object image inits) rfl (fun _ => nofun) rfl).kept_opens _
  | construction object image inits => exact (h.popped hstack rfl rfl).kept_constructing object image inits

namespace Kept

theorem kept_of_failing {e : Stop} (hs : s.control = .failing e) (stacked : Stacked s.stack)
    (refreshing : s.refreshing = evaluated s.stack) (nodup : s.refreshing.Nodup) (depth_le : s.depth ≤ maxDepth)
    (frames_le : frames s.stack ≤ maxDepth) (h : s.depth = 0 ∨ ∃ base, .run base ∈ s.stack) : Kept s :=
  ⟨stacked, refreshing, nodup, depth_le, frames_le, by rw [hs]; exact h⟩

theorem drop (h : Kept s) {e : Stop} (hs : s.control = .failing e) (hstack : s.stack = p :: rest) :
    Kept ({ s with stack := rest }.drop p) := by
  have hstacked := h.stacked
  have hrefreshing := h.refreshing
  have hframes := h.frames_le
  have hcontrol := h.control
  rw [hs] at hcontrol
  rw [hstack] at hstacked hrefreshing hframes hcontrol
  have hle : frames rest ≤ maxDepth := Nat.le_trans (List.Sublist.countP_le (List.sublist_cons_self p rest)) hframes
  -- What is not the beginning of a run leaves the runs below it as they are.
  have hbelow (hrun : ∀ base, p ≠ .run base) : s.depth = 0 ∨ ∃ base, .run base ∈ rest := by
    obtain hzero | ⟨base, hbase⟩ := hcontrol
    · exact .inl hzero
    · obtain heq | hbase := List.mem_cons.mp hbase
      · exact absurd heq.symm (hrun base)
      · exact .inr ⟨base, hbase⟩
  cases p with
  | run base =>
    have hbase := hstacked.base_eq
    refine kept_of_failing hs hstacked.tail hrefreshing h.nodup (hbase ▸ hle) hle ?_
    show base = 0 ∨ _
    rw [hbase]
    exact hstacked.tail.frames_eq_zero_or
  | evaluation object property id ids =>
    have hbelow := hbelow fun _ => nofun
    exact kept_of_failing hs hstacked.tail (erase_evaluated hrefreshing) (h.nodup.erase id) h.depth_le hle hbelow
  | frame | creation | commandOf | initialValue | construction =>
    exact kept_of_failing hs hstacked.tail hrefreshing h.nodup h.depth_le hle (hbelow fun _ => nofun)

/-! ### Steps -/

/-- **A step keeps what is counted.** -/
theorem next (h : Kept s) : Kept s.next := by
  have hcontrol := h.control
  unfold Interpreter.next
  split
  · rename_i c hs
    rw [hs] at hcontrol
    unfold enters
    split
    · have hruns := h.stacked.exists_run hcontrol.2
      exact kept_of_failing rfl h.stacked h.refreshing h.nodup h.depth_le h.frames_le (.inr hruns)
    · rename_i hlt
      have hdepth := congrArg (· + 1) hcontrol.1
      exact ⟨h.stacked, h.refreshing, h.nodup, Nat.lt_of_not_le hlt, h.frames_le, hdepth, hcontrol.2⟩
  · rename_i c f hs
    exact h.executes hs
  · rename_i object property commands hs
    rw [hs] at hcontrol
    have hlevel : Level s := ⟨h.stacked, h.refreshing, h.nodup, hcontrol, h.depth_le⟩
    cases commands with
    | nil => exact hlevel.kept_give .null
    | cons id rest =>
      rw [refreshes]
      split
      · exact hlevel.kept_refreshing object property rest
      · rename_i hid
        exact (hlevel.evaluating (fun hmem => hid (List.contains_iff_mem.mpr hmem)) object property rest).kept_opens _
  · rename_i object image rest hs
    rw [hs] at hcontrol
    have hlevel : Level s := ⟨h.stacked, h.refreshing, h.nodup, hcontrol, h.depth_le⟩
    cases rest with
    | nil =>
      rw [constructs]
      split
      · exact hlevel.kept_opens _
      · exact hlevel.kept_give .null
    | cons i rest =>
      have hwaits := hlevel.wait (p := .initialValue object image i.target rest) rfl (by intro _ h; cases h) rfl
      exact hwaits.kept_runs _
  · rename_i v hs
    rw [hs] at hcontrol
    have hlevel : Level s := ⟨h.stacked, h.refreshing, h.nodup, hcontrol, h.depth_le⟩
    split
    · rename_i p stack hstack
      exact hlevel.kept_resume v hstack
    · rename_i hstack
      refine ⟨h.stacked, h.refreshing, h.nodup, h.depth_le, h.frames_le, hlevel.depth.trans ?_, hstack⟩
      rw [hstack]
      rfl
  · rename_i e hs
    split
    · rename_i p stack hstack
      exact h.drop hs hstack
    · rename_i hstack
      rw [hs] at hcontrol
      refine ⟨h.stacked, h.refreshing, h.nodup, h.depth_le, h.frames_le, ?_, hstack⟩
      obtain hzero | ⟨base, hbase⟩ := hcontrol
      · exact hzero
      · rw [hstack] at hbase
        cases hbase
  · exact h

theorem depth_eq (h : Kept s) (hs : s.isFailing = false) : s.depth = s.openCalls := by
  obtain ⟨machine, depth, refreshing, stack, control⟩ := s
  have hcontrol := h.control
  cases control with
  | calling | running => exact hcontrol.1
  | refreshing | constructing | giving => exact hcontrol
  | failing => cases hs
  | resting result =>
    obtain ⟨hzero, hnil⟩ := hcontrol
    dsimp only at hzero hnil
    rw [hzero, hnil]
    rfl

theorem openCalls_le (h : Kept s) : s.openCalls ≤ maxDepth := by
  obtain ⟨machine, depth, refreshing, stack, control⟩ := s
  cases control with
  | running => exact h.depth_eq rfl ▸ h.depth_le
  | _ => exact h.frames_le

end Kept

/-! ### From outside -/

/-- An interpreter at rest has nothing to do. -/
theorem Kept.isFree (h : Kept s) (hs : s.AtRest) : s.IsFree := by
  obtain ⟨result, hresult⟩ := hs
  have hcontrol := h.control
  rw [hresult] at hcontrol
  refine ⟨hcontrol.1, ?_, hcontrol.2⟩
  rw [h.refreshing, hcontrol.2]
  rfl

theorem IsFree.level (h : s.IsFree) : Level s := by
  refine ⟨?_, ?_, ?_, ?_, ?_⟩
  · rw [h.stack]
    exact .nil
  · rw [h.refreshing, h.stack]
    rfl
  · rw [h.refreshing]
    exact List.nodup_nil
  · rw [h.depth, h.stack]
    rfl
  · rw [h.depth]
    exact Nat.zero_le _

/-- Whatever is asked begins with what is counted. -/
theorem IsFree.kept_asked (h : s.IsFree) (action : Action) : Kept (s.asked action) := by
  have hlevel := h.level
  cases action with
  | construct className =>
    exact hlevel.kept_after (k := fun s (id, image) => s.goTo (.constructing id image image.initializers)) _
      fun s (id, image) hs => hs.kept_constructing id image image.initializers
  | get | set | call | execute => exact hlevel.kept_opens _
  | command object property =>
    exact (hlevel.wait (p := .commandOf property) rfl (fun _ => nofun) rfl).kept_opens _
  | canExecute id => exact hlevel.kept_after _ fun s _ hs => hs.kept_give .null

/-- The interpreters that are ever met: classes are loaded at rest, then things are asked and done or not. -/
inductive Visited : Interpreter → Prop
  | idle : Visited .idle
  | load {s : Interpreter} (before : Visited s) (atRest : s.AtRest) (image : ClassImage) :
    Visited { s with machine := s.machine.load image }
  | clear {s : Interpreter} (before : Visited s) (atRest : s.AtRest) :
    Visited { s with machine := s.machine.clearEvents }
  | ask {s : Interpreter} (before : Visited s) (atRest : s.AtRest) (action : Action) : Visited (s.asked action)
  | next {s : Interpreter} (before : Visited s) : Visited s.next

theorem Visited.kept (h : Visited s) : Kept s := by
  induction h with
  | idle => exact ⟨.nil, rfl, List.nodup_nil, Nat.zero_le _, Nat.zero_le _, rfl, rfl⟩
  | load _ _ _ ih | clear _ _ ih => exact ⟨ih.stacked, ih.refreshing, ih.nodup, ih.depth_le, ih.frames_le, ih.control⟩
  | ask _ hrest action ih => exact (ih.isFree hrest).kept_asked action
  | next _ ih => exact ih.next

theorem Visited.steps : ∀ (n : Nat) {s : Interpreter}, Visited s → Visited (s.steps n)
  | 0, _, h => h
  | n + 1, _, h => Visited.steps n h.next

/-- **The books balance.**  Whatever classes were loaded and whatever was asked before, with whatever success: no more
calls are ever counted than may be open; unless something is failing, those are counted that are open; a call that
returns is counted; and the commands that are being evaluated are those whose evaluation waits, each once.  At rest
nothing is counted, so whatever is asked next comes to what methods that are entered inside one another give, which
depends on the machine only, with no call open and no command being evaluated. -/
theorem books_balance (h : Visited s) :
    (s.depth ≤ maxDepth ∧ s.openCalls ≤ maxDepth ∧ (s.isFailing = false → s.depth = s.openCalls) ∧
      ∀ c f, s.control = .running c f → 1 ≤ s.depth) ∧
      (s.refreshing = evaluated s.stack ∧ s.refreshing.Nodup) ∧
      (s.AtRest → s.depth = 0 ∧ s.refreshing = [] ∧ ∀ (action : Action) (r : EStateM.Result Stop Machine Unit),
        (∃ n, ((s.asked action).steps n).result? = some r) ↔
          ∃ fuel, action.perform fuel s.machine = r ∧ ∀ m, r ≠ .error .exhausted m) := by
  have hkept := h.kept
  refine ⟨⟨hkept.depth_le, hkept.openCalls_le, hkept.depth_eq, fun c f hs => ?_⟩, ⟨hkept.refreshing, hkept.nodup⟩,
    fun hrest => ?_⟩
  · have hcontrol := hkept.control
    rw [hs] at hcontrol
    omega
  · have hfree := hkept.isFree hrest
    exact ⟨hfree.depth, hfree.refreshing, hfree.result_iff⟩

/-- A class in which the property that enables a command may become a number. -/
def spoiled : ClassImage :=
  { ClassImage.bare "A" false "Init" with
    fields := [("p", "bool")]
    properties := [("P", ⟨"bool", some "get", none⟩)]
    methods :=
      [("get", ⟨"get", 0, 0, [.loadField "p", .ret]⟩),
        ("make", ⟨"make", 0, 0, [.newCommand ⟨"make", false, false, some "P"⟩, .ret]⟩),
        ("spoil", ⟨"spoil", 0, 0, [.pushInt 1, .storeField "p", .raiseChanged "P"]⟩)] }

/-- The command is evaluated with two calls open, which fails. -/
theorem books_balance_spoiled : ∃ s : Interpreter, (s.steps 6).depth = 2 ∧ (s.steps 6).refreshing = [0] ∧
    (∃ m, (s.steps 13).result? = some (.error (.failed (.typeFault (.gate "P" "int"))) m)) ∧
    (s.steps 13).depth = 0 ∧ (s.steps 13).refreshing = [] := by
  have hclass := Visited.idle.load ⟨_, rfl⟩ spoiled
  have hobject := Visited.steps 2 (hclass.ask ⟨_, rfl⟩ (.construct "A"))
  have hcommand := Visited.steps 12 (hobject.ask ⟨_, rfl⟩ (.call 0 "make" []))
  have hspoil := hcommand.ask ⟨_, rfl⟩ (.call 0 "spoil" [])
  obtain ⟨hdepth, hrefreshing, -⟩ := (books_balance (Visited.steps 13 hspoil)).2.2 ⟨_, rfl⟩
  exact ⟨_, rfl, rfl, ⟨_, rfl⟩, hdepth, hrefreshing⟩

end Interpreter

end Reactive
