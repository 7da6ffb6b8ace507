import Reactive.Proofs.Notification
import Reactive.Proofs.Sessions

/-!
# Reactive.Proofs.Setters — setting a reactive property of an object

* `SetterRun`: a setter that succeeds, wherever a machine is reached from outside.
* `Notified`: it does nothing, or what the contract of a write says.
* `setter_notifies`: among tame classes every setter that succeeds does that.
* `porch`, `attic`: a lazy value may be stored without an announcement, and a derived value that is the result of the init
  method announces more than depends on the property.
-/

namespace Reactive

open Stateful Run

/-- A setter of a reactive property succeeds on an object, in a machine that is reached from outside.  The class of the
object is loaded with the module of its own model, and nothing is found in it but warnings. -/
structure SetterRun (classes : List LoadedClass) (s : DeclarationSet) (L : LoadedClass) (model : ClassModel)
    (m : Machine) (object : Nat) (p : MutableProperty) (v : Value) (m' : Machine) : Prop where
  mem : L ∈ classes
  generated : L.model = some model
  analyzed : (s.analyzeClass L.declaration).1 = some model
  warnings : ∀ f ∈ (s.analyzeClass L.declaration).2, f.isWarning = true
  reachable : Reachable classes m
  present : ∃ i, m.objects[object]? = some i ∧ i.image = L.image
  property : p ∈ model.mutableProperties
  succeeds : ∃ fuel, setProperty fuel object p.name v m = .ok () m'

/-- Setting a reactive property does nothing if the value is checked and the same as before; otherwise everything that is
announced goes by the contract of a write. -/
inductive Notified (model : ClassModel) (m : Machine) (object : Nat) (p : MutableProperty) (v : Value) (m' : Machine) :
    Prop
  | unchanged {current : Value} (checked : p.skipsEqualityCheck = false)
    (loaded : m.field? object p.slot = some current) (equal : current.equals v = true) (same : m' = m)
  | changed {log : List Event} (unequal : p.skipsEqualityCheck = false → ∃ current,
      m.field? object p.slot = some current ∧ current.equals v = false)
    (events : m'.events = m.events ++ log) (contract : Contract model object p m m' log)

theorem Scene.Written.notified {S : Scene} (ho : S.model.Orderly) {fuel : Nat} {p : MutableProperty}
    (hp : p ∈ S.model.mutableProperties) {v : Value} {m m' : Machine} (h : S.Written fuel p v m m') :
    Notified S.model m S.object p v m' := by
  cases h with
  | unchanged checked loaded equal => exact .unchanged checked loaded equal rfl
  | changed unequal before raised behind follow =>
    obtain ⟨log, hlog, hcontract⟩ := Scene.contract ho hp before.quiet (raised.quiet.trans behind.quiet) follow
    exact .changed unequal hlog hcontract

/-- **Setters notify.**  Let classes be loaded together of which no declared body calls a method that has instructions,
and of which no derived value is the result of a method of the name of the init method.  Then every setter of a reactive
property that succeeds, after whatever was asked of the machine, does nothing or meets the contract of a write. -/
theorem setter_notifies {classes : List LoadedClass} (tame : Tame classes) {s : DeclarationSet} {L : LoadedClass}
    {model : ClassModel} {m m' : Machine} {object : Nat} {p : MutableProperty} {v : Value}
    (h : SetterRun classes s L model m object p v m') : Notified model m object p v m' := by
  obtain ⟨i, hi, himage⟩ := h.present
  obtain ⟨fuel, hset⟩ := h.succeeds
  have horderly : model.Orderly := (analyzeClass_eq_some h.analyzed).2.2.2 h.warnings
  let S : Scene := ⟨classes, tame, L, h.mem, model, h.generated, object, False, False.elim⟩
  have hat : S.At object L m := Scene.at_of_reachable (S := S) h.reachable hi himage
  have hlive : S.Live m := ⟨hat, fun _ _ _ hplain => hplain.elim⟩
  have hwritten : S.Written fuel p v m m' :=
    Scene.written_setProperty (S := S) horderly hlive h.property (fun hplain => hplain.elim) () m' hset
  exact Scene.Written.notified (S := S) horderly h.property hwritten

/-! ### New objects -/

/-- A machine with one new object of a class and nothing else. -/
def LoadedClass.alone (L : LoadedClass) : Machine :=
  final ((Action.construct L.declaration.name).perform 100 (Machine.empty.load L.image))

/-- A setter of a new object. -/
theorem SetterRun.of_new {s : DeclarationSet} {d : ClassDecl} {L : LoadedClass} (hload : LoadedClass.load? s d = some L)
    {model : ClassModel} (hmodel : L.model = some model) (hwarnings : ∀ f ∈ (s.analyzeClass d).2, f.isWarning = true)
    (hnew : L.alone.objects.map Instance.image = [L.image]) {p : MutableProperty} (hp : p ∈ model.mutableProperties)
    {v : Value} {fuel : Nat} (hset : isOk (setProperty fuel 0 p.name v L.alone) = true) :
    SetterRun [L] s L model L.alone 0 p v (final (setProperty fuel 0 p.name v L.alone)) := by
  obtain ⟨-, hdeclaration, hanalyzed, -⟩ := LoadedClass.load?_eq_some hload
  have hmem : L ∈ [L] := List.mem_singleton.mpr rfl
  refine ⟨hmem, hmodel, ?_, ?_, .perform (.load .empty hmem) 100 _, ?_, hp, fuel, eq_ok_final hset⟩
  · rw [hdeclaration, hanalyzed, hmodel]
  · rw [hdeclaration]
    exact hwarnings
  · obtain ⟨i, hi, himage⟩ := List.map_eq_singleton_iff.mp hnew
    exact ⟨i, by rw [hi]; rfl, himage⟩

/-- The type of whole numbers. -/
def intType : TypeRef := ⟨"int", [], false⟩

/-- A reactive property of whole numbers. -/
def reactiveInt (name : String) : MemberDecl :=
  ⟨name, [⟨"Reactive", [], .none⟩], [], .property ⟨intType, some ⟨none, .none⟩, some ⟨none, .none⟩, none⟩, .none, .none⟩

/-- A hook for the changes of a property of whole numbers, which reads another property. -/
def readingHook (property read : String) : MemberDecl :=
  ⟨Naming.changedHook property, [], [],
    .method ⟨⟨"void", [], false⟩, [⟨"before", intType, .none⟩, ⟨"after", intType, .none⟩], some (.name read .none)⟩,
    .none, .none⟩

/-- A porch with a brightness, which is lit if that is above twenty.  This is computed when it is first read, and it is
read whenever the brightness has changed. -/
def porch : ClassDecl where
  name := "Porch"
  typeParams := []
  modifiers := [.partial_]
  bases := [⟨"IReactiveObject", [], false⟩]
  members :=
    [reactiveInt "Lux",
      ⟨"Lit", [⟨"Derived", [⟨none, .path ["CacheMode", "LazyOnFirstAccess"], .none⟩, ⟨none, .string "Lux", .none⟩],
          .none⟩], [],
        .property ⟨boolType, some ⟨some (.binary .greater (.name "Lux" .none) (.literal (.int 20) .none) .none), .none⟩,
          none, none⟩, .none, .none⟩,
      readingHook "Lux" "Lit"]
  nameSpan := .none
  span := .none

/-- The file that declares a porch and nothing else. -/
def porchFile : DeclarationSet := ⟨"", "", ⟨[], none, [porch]⟩, default⟩

/-- A porch as it is loaded. -/
def porchClass : LoadedClass := (LoadedClass.load? porchFile porch).get (by decide +kernel)

/-- The model of a porch. -/
def porchModel : ClassModel := porchClass.model.get (by decide +kernel)

/-- The brightness of a porch. -/
def porchLux : MutableProperty := porchModel.mutableProperties.get ⟨0, by decide +kernel⟩

/-- Whether a porch is lit. -/
def porchLit : DerivedProperty := porchModel.derived.get ⟨0, by decide +kernel⟩

/-- The machine behind the brightness of a new porch being set. -/
def litPorch : Machine := final (setProperty 100 0 porchLux.name (.int 25) porchClass.alone)

theorem load?_porch : LoadedClass.load? porchFile porch = some porchClass := (Option.some_get _).symm

theorem model_porch : porchClass.model = some porchModel := (Option.some_get _).symm

theorem uncalled_porch : Uncalled [porchClass] :=
  LoadedClass.uncalled_singleton (LoadedClass.load?_eq_some load?_porch).1 (by decide +kernel) (by decide +kernel)

theorem tame_porch : Tame [porchClass] := LoadedClass.tame_singleton uncalled_porch model_porch (by decide +kernel)

/-- Setting the brightness of a new porch succeeds. -/
theorem setterRun_porch : SetterRun [porchClass] porchFile porchClass porchModel porchClass.alone 0 porchLux (.int 25) litPorch :=
  .of_new load?_porch model_porch (by decide +kernel) (by decide +kernel)
    (List.get_mem _ _) (by decide +kernel)

/-- Setting the brightness of a new porch notifies. -/
theorem setter_notifies_porch : Tame [porchClass] ∧
    SetterRun [porchClass] porchFile porchClass porchModel porchClass.alone 0 porchLux (.int 25) litPorch ∧
      Notified porchModel porchClass.alone 0 porchLux (.int 25) litPorch :=
  ⟨tame_porch, setterRun_porch, setter_notifies tame_porch setterRun_porch⟩

/-- An attic with a brightness and a noise, which is calm while there is little noise.  A value that the method of the
name of the init method gives is read whenever the brightness has changed. -/
def attic : ClassDecl where
  name := "Attic"
  typeParams := []
  modifiers := [.partial_]
  bases := [⟨"IReactiveObject", [], false⟩]
  members :=
    [reactiveInt "Lux",
      reactiveInt "Noise",
      ⟨"Calm", [⟨"Derived", [⟨none, .path ["CacheMode", "Disabled"], .none⟩, ⟨none, .string "Noise", .none⟩,
          ⟨some "NotifyOnInitialValue", .bool true, .none⟩], .none⟩], [],
        .property ⟨boolType, some ⟨some (.binary .less (.name "Noise" .none) (.literal (.int 20) .none) .none), .none⟩,
          none, none⟩, .none, .none⟩,
      ⟨"InitializeReactiveObject", [⟨"Derived", [⟨none, .path ["CacheMode", "Disabled"], .none⟩,
          ⟨none, .string "Lux", .none⟩, ⟨some "Property", .string "Fresh", .none⟩], .none⟩], [],
        .method ⟨intType, [], none⟩, .none, .none⟩,
      readingHook "Lux" "Fresh"]
  nameSpan := .none
  span := .none

/-- The file that declares an attic and nothing else. -/
def atticFile : DeclarationSet := ⟨"", "", ⟨[], none, [attic]⟩, default⟩

/-- An attic as it is loaded. -/
def atticClass : LoadedClass := (LoadedClass.load? atticFile attic).get (by decide +kernel)

/-- The model of an attic. -/
def atticModel : ClassModel := atticClass.model.get (by decide +kernel)

/-- The brightness of an attic. -/
def atticLux : MutableProperty := atticModel.mutableProperties.get ⟨0, by decide +kernel⟩

/-- Whether an attic is calm. -/
def atticCalm : DerivedProperty := atticModel.derived.get ⟨0, by decide +kernel⟩

/-- The machine behind the brightness of a new attic being set. -/
def litAttic : Machine := final (setProperty 100 0 atticLux.name (.int 25) atticClass.alone)

theorem load?_attic : LoadedClass.load? atticFile attic = some atticClass := (Option.some_get _).symm

theorem uncalled_attic : Uncalled [atticClass] :=
  LoadedClass.uncalled_singleton (LoadedClass.load?_eq_some load?_attic).1 (by decide +kernel) (by decide +kernel)

/-- Setting the brightness of a new attic succeeds. -/
theorem setterRun_attic :
    SetterRun [atticClass] atticFile atticClass atticModel atticClass.alone 0 atticLux (.int 25) litAttic :=
  .of_new load?_attic (Option.some_get _).symm (by decide +kernel) (by decide +kernel) (List.get_mem _ _)
    (by decide +kernel)

/-- Setting the brightness of a new porch stores that it is lit without announcing it; setting the brightness of a new
attic announces that it is calm, which does not depend on it. -/
theorem stored_silently_and_announced_needlessly :
    (Uncalled [porchClass] ∧
      SetterRun [porchClass] porchFile porchClass porchModel porchClass.alone 0 porchLux (.int 25) litPorch ∧
        porchModel.DependsOn porchLux.id porchLit ∧ porchLit.cache.isCached = true ∧ ∃ slot, porchLit.slot = some slot ∧
          porchClass.alone.field? 0 slot.value = some (.bool false) ∧
            litPorch.field? 0 slot.value = some (.bool true) ∧ Silent 0 porchLit.name litPorch.events) ∧
      Uncalled [atticClass] ∧
        SetterRun [atticClass] atticFile atticClass atticModel atticClass.alone 0 atticLux (.int 25) litAttic ∧
          ¬ atticModel.DependsOn atticLux.id atticCalm ∧ atticClass.alone.events = [] ∧
            .changed 0 atticCalm.name ∈ litAttic.events := by
  have hporch : (porchLux.id ∈ porchLit.sources ∧ porchLit.cache.isCached = true) ∧
      porchLit.slot = some ⟨"_lit", some "_litInitialized"⟩ ∧ porchClass.alone.field? 0 "_lit" = some (.bool false) ∧
        litPorch.field? 0 "_lit" = some (.bool true) ∧
          .changing 0 porchLit.name ∉ litPorch.events ∧ .changed 0 porchLit.name ∉ litPorch.events := by decide +kernel
  have hattic : atticClass.alone.events = [] ∧ .changed 0 atticCalm.name ∈ litAttic.events := by decide +kernel
  obtain ⟨⟨hreads, hcached⟩, hslot, hunlit, hlit, hsilent⟩ := hporch
  refine ⟨⟨uncalled_porch, setterRun_porch, .direct (List.get_mem _ _) hreads, hcached, _, hslot, hunlit, hlit, hsilent⟩,
    uncalled_attic, setterRun_attic, ?_, hattic⟩
  exact ClassModel.not_dependsOn (by decide +kernel) (by decide +kernel)

end Reactive
