import Reactive.Proofs.Asking
import Reactive.Proofs.Initializing
import Reactive.Proofs.Purity

/-!
# Reactive.Proofs.Current — stored values stay current

* `Setting.FreshBut.moves`: whatever an object is asked, its stored values are as fresh as before.
* `Setting.stays_fresh`: once init has run they are fresh, and they stay so.
* `Setting.Fresh.of_read`: a derived value that is fresh is read as its body would give it.
-/

namespace Reactive

open Stateful Run

namespace Setting

variable {T : Setting} {fuel : Nat} {m m' : Machine}

/-! ### Moves -/

/-- Whatever the object is asked, its stored values stay fresh. -/
theorem FreshBut.moves (h : T.FreshBut [] m) (hlive : T.Live m) (hmove : T.Moves fuel m m') : T.FreshBut [] m' := by
  have hunmoved (hunmoved : T.Unmoved m m') : T.FreshBut [] m' := fun d hd hds =>
    (h d hd hds).of_same hd (fun _ hfield => hunmoved.derived hd hfield) (hunmoved.same _)
  cases hmove with
  | drifts drift => exact h.settles (settles_drift drift hlive)
  | writes mem plain written => exact h.written mem (fun _ _ => plain) hlive written
  | assigns apart => exact hunmoved (unmoved_store apart _)
  | elsewhere spares => exact hunmoved (unmoved_of_spares spares)

/-! ### Runs -/

/-- Init leaves the object in its place. -/
theorem Stands.initialized (h : T.Stands m) (hclasses : m'.Of T.classes) (hrun : T.Initialized fuel m m') : T.Stands m' :=
  h.confined (hrun.live h.live) hclasses (hrun.confined T.leaves)

/-- **Stored values never go stale.**  Let init be called for an object, and succeed, when no lazy value of the object has
been computed and no command has been created for it, or when its class has no lazy values at all.  Whatever the object is
asked afterwards, and whatever others are asked, if it is granted: at each time the eager values of the object, and the
lazy ones that have been computed, are what their bodies give at that time, as far as values can be told apart by
comparing them. -/
theorem stays_fresh (hregular : T.Regular) (hlocales : T.model.localeObjects.length < UInt16.size) {m₀ m₁ : Machine}
    (hstands : T.Stands m₀) (hunread : ∀ d ∈ T.model.derived, d.cache = .lazy → T.Open d m₀)
    (halone : (∀ d ∈ T.model.derived, d.cache ≠ .lazy) ∨ T.Commandless m₀) {args : List Value} {v : Value}
    (hinit : Run.call fuel T.object T.model.initMethod args m₀ = .ok v m₁) (huses : T.Uses m₁ m) :
    ∀ d ∈ T.model.derived, T.Fresh d m := by
  have hrun : T.Initialized fuel m₀ m₁ :=
    Scene.initialized_call T.orderly T.unobserved hlocales hstands.live args v m₁ hinit
  have hclasses : m₁.Of T.classes := by
    have hkept := (Action.call T.object T.model.initMethod args).keeps_perform fuel m₀ hstands.classes
    rwa [show Action.perform fuel (.call T.object T.model.initMethod args) m₀ = _ from discard_apply .., hinit] at hkept
  have hfresh : T.FreshBut [] m₁ := ((halfway_start hstands.live hunread halone).initialized hrun).fresh
  have hend : T.FreshBut [] m := huses.induct hregular (hstands.initialized hclasses hrun) hfresh
    fun _ _ _ h₁ _ hbut hmove => hbut.moves h₁.live hmove
  exact fun d hd => hend d hd List.not_mem_nil

/-! ### Reading -/

/-- What is read of a derived value that is fresh is what its body gives, as far as values can be told apart. -/
theorem Fresh.of_read {d : DerivedProperty} (hd : d ∈ T.model.derived) (h : T.Fresh d m) (hlive : T.Live m)
    (hwritten : d.recompute = none → ¬ T.own.IsAutomatic d.name) {v : Value}
    (hread : getProperty fuel T.object d.name m = .ok v m') : ∃ w, T.Yields m d w ∧ v.Alike w := by
  obtain ⟨-, hw⟩ := ends_read (Or.inr ⟨d, hd, rfl, trivial⟩) hlive v m' hread
  have hexposed := hw.exposed
  generalize hx : d.name = x at hw
  cases hw with
  | reactive mem => exact absurd hx.symm (T.orderly.apart _ mem d hd)
  | stored mem _ slotted settled found =>
    obtain rfl := eq_of_names hd mem hx
    obtain ⟨u, w, hu, hyields, halike⟩ := h _ slotted settled
    obtain rfl := Option.some.inj (hu.symm.trans found)
    exact ⟨w, hyields, halike⟩
  | automatic mem _ announced auto =>
    obtain rfl := eq_of_names hd mem hx
    exact absurd auto (hwritten announced)
  | computed mem _ opened formula known value =>
    obtain rfl := eq_of_names hd mem hx
    exact ⟨v, (reads_open_iff hd hexposed opened hwritten).mp (.computed hd hexposed opened formula known value), Or.inl rfl⟩

end Setting

/-! ### A porch -/

theorem regular_porch : porchSetting.Regular := by
  have hown : porchSetting.own = porchClass := by simp only [porchSetting]
  have hmodel : porchSetting.model = porchModel := by simp only [porchSetting]
  have hunwritten : ∀ d ∈ porchModel.derived,
      (porchClass.image.properties.find? d.name).bind PropertyDef.setter = none := by decide +kernel
  have hcommands : porchModel.commands = [] := by decide +kernel
  refine ⟨fun d hd p hp => ?_, by rw [hmodel, hcommands]; nofun, by rw [hmodel, hcommands]; nofun⟩
  rw [hown] at hp
  have hnone := hunwritten d (hmodel ▸ hd)
  rwa [hp] at hnone

/-- A new porch is in its place: it is the only object, and there are no commands. -/
theorem stands_porch : porchSetting.Stands porchClass.alone :=
  .of_sole reached_porch.live reached_porch.reachable.of alone_porch.1 alone_porch.2.1

/-- The machine behind init of a new porch. -/
def settledPorch : Machine := final (Run.call 100 0 porchModel.initMethod [] porchClass.alone)

/-- The machine behind the brightness being set then. -/
def brightPorch : Machine := final ((Action.set 0 porchLux.name (.int 25)).perform 100 settledPorch)

/-- A porch whose brightness is set is lit: that has been computed anew, and is what it would be. -/
theorem stays_fresh_porch : brightPorch.field? 0 "_lit" = some (.bool true) ∧ porchSetting.Fresh porchLit brightPorch := by
  have hunread : ∀ d ∈ porchModel.derived, (d.slot.all fun slot =>
      slot.flag.any fun flag => porchClass.alone.field? 0 flag = some (.bool false)) = true := by decide +kernel
  have hinit : Run.call 100 0 porchModel.initMethod [] porchClass.alone = .ok .null settledPorch :=
    eq_ok_of_run' (by decide +kernel)
  have hset : (Action.set 0 porchLux.name (.int 25)).perform 100 settledPorch = .ok () brightPorch :=
    eq_ok_final (by decide +kernel)
  have hordinary : (Action.set 0 porchLux.name (.int 25)).Ordinary 0 := rfl
  refine ⟨by decide +kernel, Setting.stays_fresh regular_porch (by decide +kernel) stands_porch (fun d hd _ slot hslot => ?_)
    (Or.inr (.of_nil alone_porch.2.1 (by decide +kernel))) hinit (.one .none hordinary hset) porchLit (List.get_mem _ _)⟩
  have hflag := hunread d hd
  rw [hslot] at hflag
  obtain ⟨flag, hflag, hunset⟩ := (Option.any_eq_true _ _).mp hflag
  exact ⟨flag, hflag, of_decide_eq_true hunset⟩

end Reactive
