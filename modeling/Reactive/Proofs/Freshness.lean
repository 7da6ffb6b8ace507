import Reactive.Proofs.Accessing
import Reactive.Proofs.Notification

/-!
# Reactive.Proofs.Freshness — stored values are what would be computed

* `Setting.Fresh`: a stored value is what its body would give now, as far as values can be told apart.
* `Setting.Drift.settles`: whatever harmless methods do to the object, lazy values are computed as they are.
* `Setting.FreshBut`: all values are fresh that are not still to be recomputed; recomputing one makes it fresh, and those
  that depend on it come later (`Setting.FreshBut.refreshed`).
* `Setting.FreshBut.written`: behind a write everything is fresh that was to be fresh before.
-/

namespace Reactive

open Stateful Run

/-- Values that cannot be told apart by comparing them. -/
def Value.Alike (v w : Value) : Prop := v = w ∨ v.equals w = true

namespace Setting

variable {T : Setting} {C : PropertyId → Prop} {fuel : Nat} {m m' : Machine}

/-! ### Harmless methods compute lazy values as they are -/

theorem settles_drift (h : T.Drift fuel m m') (hlive : T.Live m) : T.Settles (fun _ => True) m m' := by
  induction h with
  | refl m => exact .refl m
  | trans first _ ih₁ ih₂ => exact (ih₁ hlive).trans (ih₂ (hlive.drift first))
  | logged m _ => exact .of_objects rfl
  | @computed r L model d slot flag value depth a fresh m m₁ located generated mem slotted flagged operand unset receiver run
      drift _ _ =>
    obtain rfl := located.near T.leaves
    obtain ⟨rfl, rfl⟩ := located.own_model rfl generated
    obtain ⟨hyields, htracked⟩ :=
      ends_operandValue ClassModel.closed_all mem (fun _ _ => trivial) operand receiver hlive fresh m₁ run
    obtain ⟨i, hi, -⟩ := htracked.live.located.image
    exact htracked.toSettles.store mem trivial slotted flagged unset hyields (by rw [hi]; rfl)
  | @created r L model c enabled m m₁ located generated mem _ _ _ ih =>
    obtain rfl := located.near T.leaves
    obtain ⟨rfl, rfl⟩ := located.own_model rfl generated
    have hadded : T.Settles (fun _ => True) m (m₁.withCommand T.object c.factory.spec enabled) :=
      (ih hlive).trans (.of_objects rfl)
    exact hadded.store_command mem _

theorem settles_evaluated {property : String} {ids : List Nat} (h : T.Evaluated fuel property ids m m')
    (hlive : T.Live m) : T.Settles (fun _ => True) m m' := by
  induction h with
  | nil m => exact .refl m
  | cons _ drift set _ ih =>
    have hobjects := (Scene.ends_setEnabled _ _ set).1
    exact (settles_drift drift hlive).trans
      ((Settles.of_objects hobjects).trans (ih ((hlive.drift drift).of_objects hobjects)))

theorem settles_raised {property : String} (h : T.Raised fuel property m m') (hlive : T.Live m) :
    T.Settles (fun _ => True) m m' := by
  have hlogged : T.Settles (fun _ => True) m (m.logged (.changed T.object property)) := .of_objects rfl
  exact hlogged.trans (settles_evaluated h (hlive.logged _))

/-- A value that is computed is what it would be, and only what it depends on is computed together with it. -/
theorem tracked_of_computes {d : DerivedProperty} (hd : d ∈ T.model.derived) {value : Operand}
    (hvalue : T.model.operand? d = some value) (hlive : T.Live m) {fresh : Value}
    (h : T.Computes fuel value m fresh m') : T.Yields m d fresh ∧ T.Tracked (fun i => T.model.DependsOn i d) m m' := by
  obtain ⟨depth, -, a, ha, hrun⟩ := h.run
  exact ends_operandValue ClassModel.closed_dependsOn hd (fun _ hi => .direct hd hi) hvalue ha hlive fresh m' hrun

/-! ### Fresh values -/

/-- A stored value is what would be computed now. -/
def Fresh (T : Setting) (d : DerivedProperty) (m : Machine) : Prop :=
  ∀ slot, d.slot = some slot → T.Settled d slot m →
    ∃ v w, m.field? T.object slot.value = some v ∧ T.Yields m d w ∧ v.Alike w

/-- Stored values stay fresh, and those that are stored meanwhile are fresh. -/
theorem Fresh.settles {d : DerivedProperty} (hd : d ∈ T.model.derived) (h : T.Fresh d m) (hsettles : T.Settles C m m') :
    T.Fresh d m' := by
  intro slot hslot hsettled
  by_cases hbefore : T.Settled d slot m
  · obtain ⟨v, w, hv, hw, halike⟩ := h slot hslot hbefore
    exact ⟨v, w, (hsettles.stored hd hslot hbefore).1.trans hv, hsettles.yields_iff.mpr hw, halike⟩
  · obtain heager | ⟨flag, hflag, hset⟩ := hsettled
    · exact absurd (Or.inl heager) hbefore
    · obtain ⟨-, hsame⟩ | ⟨-, -, v, hv, hyields⟩ := hsettles.computed d hd slot hslot flag hflag
      · exact absurd (Or.inr ⟨flag, hflag, hsame.symm.trans hset⟩) hbefore
      · exact ⟨v, v, hv, hsettles.yields_iff.mpr hyields, Or.inl rfl⟩

/-- A value is fresh that has the same fields, itself and what it depends on. -/
theorem Fresh.of_same {d : DerivedProperty} (hd : d ∈ T.model.derived) (h : T.Fresh d m)
    (hown : ∀ field ∈ d.fieldNames, m'.field? T.object field = m.field? T.object field)
    (hsame : T.Same (fun i => T.model.DependsOn i d) m m') : T.Fresh d m' := by
  intro slot hslot hsettled
  have hbefore : T.Settled d slot m := by
    obtain heager | ⟨flag, hflag, hset⟩ := hsettled
    · exact Or.inl heager
    · exact Or.inr ⟨flag, hflag, (hown flag (Scene.flag_mem_fieldNames hslot hflag)).symm.trans hset⟩
  obtain ⟨v, w, hv, hw, halike⟩ := h slot hslot hbefore
  exact ⟨v, w, (hown _ (Scene.value_mem_fieldNames hslot)).trans hv, hw.of_same hd hsame, halike⟩

/-- Everything is fresh but some derived values. -/
def FreshBut (T : Setting) (ds : List DerivedProperty) (m : Machine) : Prop :=
  ∀ e ∈ T.model.derived, e ∉ ds → T.Fresh e m

variable {ds : List DerivedProperty}

theorem FreshBut.settles (h : T.FreshBut ds m) (hsettles : T.Settles C m m') : T.FreshBut ds m' :=
  fun e he hds => (h e he hds).settles he hsettles

/-- A field of a derived value is written. -/
theorem same_store {d e : DerivedProperty} (hd : d ∈ T.model.derived) (hdepends : ¬ T.model.DependsOn d.property e)
    {field : String} (hfield : field ∈ d.fieldNames) (v : Value) :
    T.Same (fun i => T.model.DependsOn i e) m (m.store T.object field v) := by
  have hother {name : String} (hne : name ≠ field) :
      (m.store T.object field v).field? T.object name = m.field? T.object name := by
    rw [Machine.field?_store, if_neg fun hsame => hne hsame.2.1]
  refine ⟨fun p hp _ => hother fun heq => T.nodup_fields.2.2.1 p hp d hd (heq ▸ hfield), fun e' he' hC name hname => ?_,
    fun e' _ _ => hother fun heq => T.autoField_not_mem hd e'.name (heq ▸ hfield)⟩
  refine hother fun heq => hdepends ?_
  rwa [← Scene.eq_of_mem_fieldNames he' hd hname (heq ▸ hfield)]

/-- A field of a derived value is written, and no value is left fresh that depends on it. -/
theorem FreshBut.store {d : DerivedProperty} (hd : d ∈ T.model.derived) (hbehind : ∀ e, T.model.DependsOn d.property e → e ∈ ds)
    (h : T.FreshBut (d :: ds) m) {field : String} (hfield : field ∈ d.fieldNames) (v : Value) :
    T.FreshBut (d :: ds) (m.store T.object field v) := by
  intro e he hds
  have hne : e ≠ d := fun heq => hds (heq ▸ List.mem_cons_self)
  refine (h e he hds).of_same he (fun name hname => ?_)
    (same_store hd (fun hdepends => hds (List.mem_cons_of_mem _ (hbehind e hdepends))) hfield v)
  rw [Machine.field?_store, if_neg]
  rintro ⟨-, rfl, -⟩
  exact hne (Scene.eq_of_mem_fieldNames he hd hname hfield)

/-- What is to be recomputed shrinks by a value that has become fresh. -/
theorem FreshBut.cons {d : DerivedProperty} (h : T.FreshBut (d :: ds) m) (hd : T.Fresh d m) : T.FreshBut ds m := by
  intro e he hds
  by_cases heq : e = d
  · exact heq ▸ hd
  · exact h e he fun hmem => (List.mem_cons.mp hmem).elim heq hds

/-! ### Recomputing -/

/-- A value that is computed and stored is fresh. -/
theorem fresh_store {d : DerivedProperty} (hd : d ∈ T.model.derived) {slot : DerivedSlot} (hslot : d.slot = some slot)
    {v : Value} (hyields : T.Yields m d v) (hlive : T.Live m) : T.Fresh d (m.store T.object slot.value v) := by
  intro slot' hslot' _
  obtain rfl := Option.some.inj (hslot.symm.trans hslot')
  obtain ⟨i, hi, -⟩ := hlive.located.image
  refine ⟨v, v, ?_, hyields.of_same hd ?_, Or.inl rfl⟩
  · rw [Machine.field?_store, if_pos ⟨rfl, rfl, by rw [hi]; rfl⟩]
  · exact same_store hd (T.orderly.irrefl hd) (Scene.value_mem_fieldNames hslot) v

/-- Recomputing a value makes it fresh. -/
theorem FreshBut.recomputed {d : DerivedProperty} (hd : d ∈ T.model.derived)
    (hbehind : ∀ e, T.model.DependsOn d.property e → e ∈ ds) (h : T.FreshBut (d :: ds) m) (hlive : T.Live m)
    (hrun : T.Recomputed fuel d m m') : T.FreshBut ds m' := by
  have hflagged {slot : DerivedSlot} (hslot : d.slot = some slot) : T.FreshBut (d :: ds) (T.flagged slot m) := by
    unfold Scene.flagged
    split
    · exact h
    · rename_i flag hflag
      exact h.store hd hbehind (Scene.flag_mem_fieldNames hslot hflag) _
  have hcomputed {slot : DerivedSlot} {value : Operand} {fresh : Value} {m₁ : Machine}
      (hvalue : T.model.operand? d = some value) (hcomputes : T.Computes fuel value (T.flagged slot m) fresh m₁) :
      T.Yields m₁ d fresh ∧ T.Tracked (fun i => T.model.DependsOn i d) (T.flagged slot m) m₁ := by
    obtain ⟨hyields, htracked⟩ := tracked_of_computes hd hvalue (hlive.flagged slot) hcomputes
    exact ⟨htracked.yields_iff.mpr hyields, htracked⟩
  cases hrun with
  | @kept slot value fresh current _ slotted computed run loaded equal =>
    obtain ⟨hyields, htracked⟩ := hcomputed computed run
    refine ((hflagged slotted).settles htracked.toSettles).cons fun slot' hslot' _ => ?_
    obtain rfl := Option.some.inj (slotted.symm.trans hslot')
    exact ⟨current, fresh, loaded, hyields, Or.inr equal⟩
  | @stored slot value fresh current m₁ _ slotted computed run loaded unequal raised =>
    obtain ⟨hyields, htracked⟩ := hcomputed computed run
    have hlogged : T.Settles (fun _ => True) m₁ (m₁.logged (.changing T.object d.name)) := .of_objects rfl
    have hlive₁ : T.Live (m₁.logged (.changing T.object d.name)) := htracked.live.logged _
    have hbut := (((hflagged slotted).settles htracked.toSettles).settles hlogged).store hd hbehind
      (Scene.value_mem_fieldNames slotted) fresh
    have hfresh := fresh_store hd slotted (hlogged.yields_iff.mpr hyields) hlive₁
    exact (hbut.cons hfresh).settles (settles_raised raised (hlive₁.store run.admitted))

/-- What follows for a derived value makes it fresh. -/
theorem FreshBut.refreshed {d : DerivedProperty} (hd : d ∈ T.model.derived)
    (hbehind : ∀ e, T.model.DependsOn d.property e → e ∈ ds) (h : T.FreshBut (d :: ds) m) (hlive : T.Live m)
    (hrun : T.Refreshed fuel d m m') : T.FreshBut ds m' := by
  cases hrun with
  | announced uncached raised =>
    refine (h.settles (settles_raised raised hlive)).cons fun slot hslot _ => ?_
    rw [(T.own_generated.2.derived d hd).uncached (by rw [uncached]; rfl)] at hslot
    cases hslot
  | recomputed cached run => exact h.recomputed hd hbehind hlive run

/-- In a list each derived value comes behind those that it depends on. -/
def Behind (T : Setting) (ds : List DerivedProperty) : Prop :=
  ∀ pre d post, ds = pre ++ d :: post → ∀ e, T.model.DependsOn d.property e → e ∈ post

theorem Behind.cons {d : DerivedProperty} (h : T.Behind (d :: ds)) :
    (∀ e, T.model.DependsOn d.property e → e ∈ ds) ∧ T.Behind ds :=
  ⟨h [] d ds rfl, fun pre e post heq => h (d :: pre) e post (by rw [heq]; rfl)⟩

/-- What follows for derived values makes all of them fresh. -/
theorem FreshBut.refreshedAll (hds : ∀ d ∈ ds, d ∈ T.model.derived) (hbehind : T.Behind ds) (h : T.FreshBut ds m)
    (hlive : T.Live m) (hrun : T.RefreshedAll fuel ds m m') : T.FreshBut [] m' := by
  induction hrun with
  | nil m => exact h
  | @cons d ds m m₁ _ first _ ih =>
    obtain ⟨hd, hrest⟩ := hbehind.cons
    have hmem := hds d List.mem_cons_self
    exact ih (fun e he => hds e (List.mem_cons_of_mem _ he)) hrest (h.refreshed hmem hd hlive first) (first.live hlive)

/-! ### Writing -/

/-- The slot of a reactive property is written. -/
theorem same_store_slot {p : MutableProperty} (hp : p ∈ T.model.mutableProperties) {e : DerivedProperty}
    (hdepends : ¬ T.model.DependsOn p.id e) (v : Value) :
    T.Same (fun i => T.model.DependsOn i e) m (m.store T.object p.slot v) := by
  have hother {name : String} (hne : name ≠ p.slot) :
      (m.store T.object p.slot v).field? T.object name = m.field? T.object name := by
    rw [Machine.field?_store, if_neg fun hsame => hne hsame.2.1]
  refine ⟨fun q hq hC => hother fun heq => ?_, fun e' he' _ name hname => hother fun heq => ?_, fun e' _ _ =>
    hother (T.slot_ne_autoField hp e'.name).symm⟩
  · obtain rfl := List.inj_on_of_nodup_map T.nodup_fields.1 hq hp heq
    exact hdepends hC
  · exact T.nodup_fields.2.2.1 p hp e' he' (heq ▸ hname)

/-- The slot of a reactive property is written, and no value is left fresh that depends on it. -/
theorem FreshBut.store_slot {p : MutableProperty} (hp : p ∈ T.model.mutableProperties)
    (hds : ∀ e, T.model.DependsOn p.id e → e ∈ ds) (h : T.FreshBut ds m) (v : Value) :
    T.FreshBut ds (m.store T.object p.slot v) := by
  intro e he hmem
  refine (h e he hmem).of_same he (fun name hname => ?_) (same_store_slot hp (fun hdepends => hmem (hds e hdepends)) v)
  rw [Machine.field?_store, if_neg]
  rintro ⟨-, rfl, -⟩
  exact T.nodup_fields.2.2.1 p hp e he hname

/-- Behind a write everything is fresh. -/
theorem FreshBut.written {p : MutableProperty} (hp : p ∈ T.model.mutableProperties) {v : Value}
    (hv : T.Admits T.object v) (h : T.FreshBut [] m) (hlive : T.Live m) (hrun : T.Written fuel p v m m') :
    T.FreshBut [] m' := by
  have haffected {e : DerivedProperty} : e ∈ T.model.affected p ↔ T.model.DependsOn p.id e :=
    ClassModel.mem_affected_iff T.own_generated.2 T.orderly
  cases hrun with
  | unchanged => exact h
  | @changed m₁ m₂ m₃ _ _ before raised behind follow =>
    have hlogged : T.Settles (fun _ => True) m (m.logged (.changing T.object p.name)) := .of_objects rfl
    have hlive₁ : T.Live m₁ := (hlive.logged _).drift before
    have hbefore : T.FreshBut [] (m₁.loggedAll (T.changings (T.model.affected p))) :=
      ((h.settles hlogged).settles (settles_drift before (hlive.logged _))).settles
        (Settles.of_objects (C := fun _ => True) rfl)
    have hbut : T.FreshBut (T.model.affected p) (m₁.loggedAll (T.changings (T.model.affected p))) :=
      fun e he _ => hbefore e he List.not_mem_nil
    have hlive₂ : T.Live ((m₁.loggedAll (T.changings (T.model.affected p))).store T.object p.slot v) :=
      (hlive₁.loggedAll _).store hv
    have hlive₃ := raised.live hlive₂
    have hstored := ((hbut.store_slot hp (fun e he => haffected.mpr he) v).settles (settles_raised raised hlive₂)).settles
      (settles_drift behind hlive₃)
    refine hstored.refreshedAll (fun d hd => (haffected.mp hd).mem) (fun pre d post hsplit e hdepends => ?_)
      (hlive₃.drift behind) follow
    have hd : d ∈ T.model.affected p := hsplit ▸ List.mem_append_right _ List.mem_cons_self
    exact Scene.behind_of_dependsOn T.orderly (haffected.mp hd) hdepends hsplit

end Setting

end Reactive
