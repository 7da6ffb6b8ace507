import Reactive.Proofs.Congruence

/-!
# Reactive.Proofs.Termination — what is asked of a machine comes to an end

* `compiled_code_stack_safe`: compiled code finds its operands and its locals, and no run of it runs out of operands.
* `runs_end`: every run on compiled classes ends, whatever calls itself in them: all jumps lead further on, so no call
  executes more instructions than its method has, and at most `Run.maxDepth` calls are open at a time.
-/

namespace Reactive

open Stateful Run

/-- Everything that is compiled for a class. -/
def ClassImage.codes (c : ClassImage) : List CompiledMethod :=
  c.methods.map Prod.snd ++ c.statics.map Prod.snd ++ c.initializers.map Initializer.code

theorem ClassImage.HasCode.mem_codes {c : ClassImage} {m : CompiledMethod} (h : c.HasCode m) : m ∈ c.codes := by
  simp only [codes, List.mem_append, List.mem_map]
  cases h with
  | method found => exact Or.inl (Or.inl ⟨_, Table.mem_of_find? found, rfl⟩)
  | function found => exact Or.inl (Or.inr ⟨_, Table.mem_of_find? found, rfl⟩)
  | initializer mem => exact Or.inr ⟨_, mem, rfl⟩

namespace LoadedClass

/-- The number of instructions of the longest method of some classes. -/
def longest (classes : List LoadedClass) : Nat :=
  ((classes.flatMap (·.image.codes)).map (·.code.length)).max?.getD 0

theorem length_le_longest {classes : List LoadedClass} {m : CompiledMethod} (h : Coded classes m) :
    m.code.length ≤ longest classes := by
  obtain ⟨L, hL, hm⟩ := h
  exact List.le_max?_getD_of_mem (List.mem_map_of_mem (List.mem_flatMap.mpr ⟨L, hL, hm.mem_codes⟩))

theorem sized_of_codes {L : LoadedClass} (h : ∀ m ∈ L.image.codes, m.code.length < UInt64.size) : L.Sized :=
  fun m hm => h m hm.mem_codes

end LoadedClass

/-! ### Operands and locals -/

section

variable {classes : List LoadedClass} (hassembled : ∀ L ∈ classes, L.Assembled) (hsized : ∀ L ∈ classes, L.Sized)

include hassembled hsized

theorem safe_of_coded {c : CompiledMethod} (h : Coded classes c) : c.StackSafe ∧ c.JumpsForward := by
  obtain ⟨L, hL, hc⟩ := h
  obtain ⟨hsafe, hforward, -⟩ := (hassembled L hL).safe (hsized L hL) hc
  exact ⟨hsafe, hforward⟩

theorem locals_of_coded (hfew : ∀ L ∈ classes, L.FewLocales) {c : CompiledMethod} (h : Coded classes c) :
    c.LocalsInRange := by
  obtain ⟨L, hL, hc⟩ := h
  exact ((hassembled L hL).safe (hsized L hL) hc).2.2 (hfew L hL)

/-- More instructions than the longest method has are never used up, and how many more does not matter. -/
theorem guarded_of_longest {fuel : Nat} (hfuel : LoadedClass.longest classes < fuel) :
    Guarded classes (· ≠ .exhausted) fuel (LoadedClass.longest classes + 1) := by
  refine ⟨fun _ _ => nofun, fun c hc => (safe_of_coded hassembled hsized hc).1,
    fun c hc => (safe_of_coded hassembled hsized hc).2, fun c _ => Or.inr fun _ => nofun, Or.inr fun c hc => ?_⟩
  have hle := LoadedClass.length_le_longest hc
  exact ⟨by omega, by omega⟩

/-- **Compiled code is stack-safe.**  Let classes be compiled as they are declared or with the patch module of any model,
the places of their instructions being machine words.  In every method, hoisted function and initial value of them a
jump leads to an instruction or behind the last one; every way to a place comes with the same number of operands, which
is enough for the instruction there, and a value is returned when it is the only operand; and if the class has fewer than
65536 locale objects, every local that is read or written is there.  So whatever is asked of a machine with these
classes, it does not fail because an operand is missing, nor, if no class has too many locale objects, because a local
is. -/
theorem compiled_code_stack_safe :
    (∀ L ∈ classes, ∀ c, L.image.HasCode c → c.StackSafe ∧ (L.FewLocales → c.LocalsInRange)) ∧
      ∀ m, Reachable classes m → ∀ (fuel : Nat) (action : Action) (e : Stop) (m' : Machine),
        action.perform fuel m = .error e m' → e ≠ .failed .stackUnderflow ∧
          ((∀ L ∈ classes, L.FewLocales) → ∀ index, e ≠ .failed (.typeFault (.localRange index))) := by
  refine ⟨fun L hL c hc => ?_, fun m hm fuel action e m' hrun => ?_⟩
  · obtain ⟨hsafe, -, hlocals⟩ := (hassembled L hL).safe (hsized L hL) hc
    exact ⟨hsafe, hlocals⟩
  -- Everything is permitted but the errors in question.
  let P (e : Stop) : Prop := e ≠ .failed .stackUnderflow ∧
    ((∀ L ∈ classes, L.FewLocales) → ∀ index, e ≠ .failed (.typeFault (.localRange index)))
  have hguarded : Guarded classes P fuel fuel := by
    refine ⟨fun e he => ⟨?_, fun _ index => ?_⟩, fun c hc => (safe_of_coded hassembled hsized hc).1,
      fun c hc => (safe_of_coded hassembled hsized hc).2, fun c hc => ?_, Or.inl ⟨rfl, nofun, fun _ => nofun⟩⟩
    · rintro ⟨⟩
      cases he
    · rintro ⟨⟩
      cases he
    · by_cases hfew : ∀ L ∈ classes, L.FewLocales
      · exact Or.inl (locals_of_coded hassembled hsized hfew hc)
      · exact Or.inr fun index => ⟨nofun, fun h => absurd h hfew⟩
  obtain ⟨-, hpermitted⟩ := hguarded.agree_perform action m hm.of
  rw [hrun] at hpermitted
  exact hpermitted

end

/-- A room with the patch module of its model. -/
def roomClass : LoadedClass := (LoadedClass.load? roomFile room).get (by decide +kernel)

/-- The six methods of a room are stack-safe, and nothing that is asked of rooms runs out of operands or locals. -/
theorem compiled_code_stack_safe_room : roomClass.image.methods.length = 6 ∧
    (∀ c, roomClass.image.HasCode c → c.StackSafe ∧ c.LocalsInRange) ∧
      ∀ m, Reachable [roomClass] m → ∀ (fuel : Nat) (action : Action) (m' : Machine),
        action.perform fuel m ≠ .error (.failed .stackUnderflow) m' ∧
          ∀ index, action.perform fuel m ≠ .error (.failed (.typeFault (.localRange index))) m' := by
  have hload : LoadedClass.load? roomFile room = some roomClass := (Option.some_get _).symm
  have hassembled : ∀ L ∈ [roomClass], L.Assembled :=
    List.forall_mem_singleton.mpr (LoadedClass.load?_eq_some hload).1.assembled
  have hsized : ∀ L ∈ [roomClass], L.Sized :=
    List.forall_mem_singleton.mpr (LoadedClass.sized_of_codes (by decide +kernel))
  have hfew : ∀ L ∈ [roomClass], L.FewLocales := by
    refine List.forall_mem_singleton.mpr fun model hmodel => ?_
    have hcheck : (roomClass.model.all fun model => decide (model.localeObjects.length < 65536)) = true := by
      decide +kernel
    rw [hmodel] at hcheck
    exact of_decide_eq_true hcheck
  obtain ⟨hcode, hrun⟩ := compiled_code_stack_safe hassembled hsized
  refine ⟨by decide +kernel, fun c hc => ?_, fun m hm fuel action m' => ⟨fun h => ?_, fun index h => ?_⟩⟩
  · obtain ⟨hsafe, hlocals⟩ := hcode roomClass List.mem_cons_self c hc
    exact ⟨hsafe, hlocals (hfew roomClass List.mem_cons_self)⟩
  · exact (hrun m hm fuel action _ m' h).1 rfl
  · exact (hrun m hm fuel action _ m' h).2 hfew index rfl

/-! ### Calls -/

/-- A way to run a method while `opened` calls are open: the call is refused if no more may be opened. -/
def Run.enterUnder (fuel opened : Nat) : Enter := fun a =>
  if opened < maxDepth then body (enterUnder fuel (opened + 1)) a fuel (.start a.method) else fail .stackOverflow
termination_by maxDepth - opened

/-- Counting the open calls is counting those that may still be opened. -/
theorem Run.enterUnder_eq (fuel : Nat) : ∀ (depth opened : Nat), opened + depth = maxDepth →
    enterUnder fuel opened = enter fuel depth
  | 0, opened, h => by
    funext a
    rw [enterUnder, if_neg (by omega)]
    rfl
  | depth + 1, opened, h => by
    funext a
    rw [enterUnder, if_pos (by omega), enterUnder_eq fuel depth (opened + 1) (by omega)]
    rfl

/-- A refresh evaluates each command once at most. -/
theorem Run.nodup_gated (commands : List CommandState) (object : Nat) (property : String) :
    (gated commands object property).Nodup := List.nodup_range.filter _

theorem Run.lt_of_mem_gated {commands : List CommandState} {object id : Nat} {property : String}
    (h : id ∈ gated commands object property) : id < commands.length :=
  List.mem_range.mp (List.mem_filter.mp h).1

/-- **Every run ends.**  Let classes be compiled as they are declared or with the patch module of any model, the places of
their instructions being machine words.  All jumps in them lead further on.  Whatever is asked of a machine with these
classes, no call executes more instructions than the longest method has: the run gives a value or fails, and is the same
for every greater number of instructions that is allowed.  The call in which `Run.maxDepth` calls are open already is
refused, those that evaluate and create commands counted; and a change of a property has each of finitely many commands
evaluated once at most. -/
theorem runs_end {classes : List LoadedClass} (hassembled : ∀ L ∈ classes, L.Assembled)
    (hsized : ∀ L ∈ classes, L.Sized) :
    (∀ L ∈ classes, ∀ c, L.image.HasCode c → c.JumpsForward) ∧
      (∀ m, Reachable classes m → ∀ (action : Action) (fuel : Nat), LoadedClass.longest classes < fuel →
        (∀ m', action.perform fuel m ≠ .error .exhausted m') ∧
          action.perform fuel m = action.perform (LoadedClass.longest classes + 1) m) ∧
      (∀ fuel, enterFirst fuel = enterUnder fuel 0) ∧
      ∀ (commands : List CommandState) (object : Nat) (property : String),
        (gated commands object property).Nodup ∧ ∀ id ∈ gated commands object property, id < commands.length := by
  refine ⟨fun L hL c hc => (safe_of_coded hassembled hsized ⟨L, hL, hc⟩).2, fun m hm action fuel hfuel => ?_,
    fun fuel => (enterUnder_eq fuel maxDepth 0 (Nat.zero_add _)).symm,
    fun commands object property => ⟨nodup_gated commands object property, fun id hid => lt_of_mem_gated hid⟩⟩
  obtain ⟨heq, hpermitted⟩ := (guarded_of_longest hassembled hsized hfuel).agree_perform action m hm.of
  refine ⟨fun m' hrun => ?_, heq⟩
  rw [hrun] at hpermitted
  exact hpermitted rfl

/-! ### Getters that call each other -/

/-- Two mirrors, each of which shows what the other one shows. -/
def mirrors : ClassDecl where
  name := "Mirrors"
  typeParams := []
  modifiers := []
  bases := []
  members :=
    [⟨"Left", [], [], .property ⟨⟨"int", [], false⟩, some ⟨some (.name "Right" .none), .none⟩, none, none⟩, .none, .none⟩,
      ⟨"Right", [], [], .property ⟨⟨"int", [], false⟩, some ⟨some (.name "Left" .none), .none⟩, none, none⟩, .none, .none⟩]
  nameSpan := .none
  span := .none

/-- The mirrors as they are declared. -/
def mirrorsImage : ClassImage where
  name := "Mirrors"
  derivesBase := false
  initMethod := "InitializeReactiveObject"
  fields := []
  properties := [("Left", ⟨"int", some "get_Left", none⟩), ("Right", ⟨"int", some "get_Right", none⟩)]
  methods := [("get_Left", ⟨"get_Left", 0, 0, [.loadThis, .getProperty "Right", .ret]⟩),
    ("get_Right", ⟨"get_Right", 0, 0, [.loadThis, .getProperty "Left", .ret]⟩)]
  statics := []
  externs := []
  opaqueBodies := []
  initializers := []

/-- The mirrors, loaded. -/
def mirrorsClass : LoadedClass := ⟨mirrors, none, mirrorsImage⟩

/-- A machine with a pair of mirrors. -/
def mirrorsMachine : Machine := final ((Action.construct "Mirrors").perform 4 (Machine.empty.load mirrorsImage))

/-- The mirrors do not show anything, and this is found out in calls of four instructions at most. -/
theorem runs_end_mirrors : LoadedClass.longest [mirrorsClass] = 3 ∧ ∀ more : Nat, ∃ m',
    (Action.get 0 "Left").perform (4 + more) mirrorsMachine = .error (.failed .stackOverflow) m' := by
  have hbaseline : ClassImage.baseline mirrors default = .ok mirrorsImage := rfl
  have hassembled : ∀ L ∈ [mirrorsClass], L.Assembled := List.forall_mem_singleton.mpr (.plain hbaseline)
  have hsized : ∀ L ∈ [mirrorsClass], L.Sized :=
    List.forall_mem_singleton.mpr (LoadedClass.sized_of_codes (by decide +kernel))
  have hreach : Reachable [mirrorsClass] mirrorsMachine :=
    .perform (.load (L := mirrorsClass) .empty List.mem_cons_self) 4 (.construct "Mirrors")
  have hlongest : LoadedClass.longest [mirrorsClass] = 3 := by decide +kernel
  refine ⟨hlongest, fun more => ?_⟩
  obtain ⟨-, hends, -⟩ := runs_end hassembled hsized
  obtain ⟨-, heq⟩ := hends mirrorsMachine hreach (.get 0 "Left") (4 + more) (by omega)
  rw [heq, hlongest]
  have hrun : (match (Action.get 0 "Left").perform 4 mirrorsMachine with
      | .error (.failed .stackOverflow) _ => true
      | _ => false) = true := by decide +kernel
  split at hrun
  · rename_i m' hm'
    exact ⟨m', hm'⟩
  · cases hrun

end Reactive
