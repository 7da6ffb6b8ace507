import Reactive.Proofs.Freshness

/-!
# Reactive.Proofs.Gating — commands are enabled as their gates say

A gate is the reactive property or the derived value that says whether a command may be executed.

* `Setting.ends_enablement`: evaluating a gate gives its value, and leaves it ready: if it is kept, it has been stored.
* `Setting.Undisturbed`: what changes leaves the value of a gate that is ready as it is.
* `Setting.Obeys`: a command is enabled as its gate says, unless the gate waits for an announcement.
* `Setting.obeys_of_evaluated`: behind an announcement the commands obey that the property enables.
-/

namespace Reactive

open Stateful Run

namespace Setting

variable {T : Setting} {C : PropertyId → Prop} {fuel : Nat} {m m' : Machine} {g : String}

/-! ### Gates that are ready -/

/-- If the gate is a derived value that is kept, it has been stored. -/
def Ready (T : Setting) (m : Machine) (g : String) : Prop :=
  ∀ d ∈ T.model.derived, d.name = g → ∀ slot, d.slot = some slot → T.Settled d slot m

/-- What is marked as stored stays so. -/
def FlagsStay (T : Setting) (m m' : Machine) : Prop :=
  ∀ d ∈ T.model.derived, ∀ slot, d.slot = some slot → ∀ flag, slot.flag = some flag →
    m.field? T.object flag = some (.bool true) → m'.field? T.object flag = some (.bool true)

theorem Ready.flags (h : T.Ready m g) (hflags : T.FlagsStay m m') : T.Ready m' g := by
  intro d hd hname slot hslot
  obtain heager | ⟨flag, hflag, hset⟩ := h d hd hname slot hslot
  · exact Or.inl heager
  · exact Or.inr ⟨flag, hflag, hflags d hd slot hslot flag hflag hset⟩

/-- A field is written that marks nothing as stored, or it does. -/
theorem flagsStay_store {field : String} {v : Value} (h : ∀ d ∈ T.model.derived, ∀ slot, d.slot = some slot →
    ∀ flag, slot.flag = some flag → flag = field → v = .bool true) : T.FlagsStay m (m.store T.object field v) := by
  intro d hd slot hslot flag hflag hset
  rw [Machine.field?_store]
  split
  · rename_i hsame
    rw [h d hd slot hslot flag hflag hsame.2.1]
  · exact hset

theorem Ready.settles (h : T.Ready m g) (hsettles : T.Settles C m m') : T.Ready m' g :=
  fun d hd hname slot hslot => (hsettles.stored hd hslot (h d hd hname slot hslot)).2

/-- A lazy value has been stored when its getter returns. -/
theorem ends_lazy {enter : Enter} {a : Activation} (ha : a.receiver = T.object) {declares : String → Bool}
    {d : DerivedProperty} {slot : DerivedSlot} {flag : String} (hflag : slot.flag = some flag) {value : Operand} :
    Ends (interpretBody enter a declares [] ([.ifUnset flag [.store slot.value value, .store flag (.bool true)]] ++
      [.ret (.slot slot.value)])) m fun _ m' => T.Settled d slot m' := by
  rw [interpretBody_lazy, ha]
  refine ends_loadField.bind ?_
  rintro v m ⟨rfl, hv⟩
  have htruth : Ends (truth v) m fun c m' => m' = m ∧ v.bool? = some c := ends_ofOption
  refine htruth.bind ?_
  rintro c m ⟨rfl, hc⟩
  cases c with
  | true =>
    obtain rfl : v = .bool true := by
      cases v <;> cases hc
      rfl
    refine ends_loadField.imp ?_
    rintro _ _ ⟨rfl, -⟩
    exact Or.inr ⟨flag, hflag, hv⟩
  | false =>
    refine Ends.bind (P := fun _ _ => True) (fun _ _ _ => trivial) fun fresh m₁ _ => ?_
    refine ends_storeField.bind ?_
    rintro _ _ ⟨rfl, -⟩
    refine ends_storeField.bind ?_
    rintro _ _ ⟨rfl, hpresent⟩
    refine ends_loadField.imp ?_
    rintro _ _ ⟨rfl, -⟩
    exact Or.inr ⟨flag, hflag, by rw [Machine.field?_store, if_pos ⟨rfl, rfl, hpresent⟩]⟩

/-- What has been read is ready. -/
theorem ends_read_ready (hlive : T.Live m) {depth : Nat} {refreshing : List Nat} :
    Ends (read (enter fuel depth) refreshing T.object g) m fun _ m' => T.Ready m' g := by
  intro v m' hrun d hd hname slot hslot
  subst hname
  have hfits := T.own_generated.2.derived d hd
  cases hcache : d.cache with
  | eager => exact Or.inl hcache
  | disabled =>
    rw [hfits.uncached (by rw [hcache]; rfl)] at hslot
    cases hslot
  | lazy =>
    obtain ⟨flag, hflag⟩ := Option.isSome_iff_exists.mp ((hfits.lazy slot hslot).mpr hcache)
    obtain ⟨recompute, hrecompute⟩ := Option.isSome_iff_exists.mp (hfits.cached (by rw [hcache]; rfl)).2
    obtain ⟨value, hvalue⟩ : ∃ value, T.model.operand? d = some value := ⟨_, by rw [ClassModel.operand?, hrecompute]; rfl⟩
    have hread : Ends (read (enter fuel depth) refreshing T.object d.name) m fun _ m' => T.Settled d slot m' := by
      refine ends_accessor.bind ?_
      rintro getter m ⟨rfl, i, p, hi, hp, hgetter⟩
      obtain ⟨rfl, hinit⟩ := T.own_generated.1.getters _ _ _ (hlive.located.image_eq hi ▸ hp) hgetter
      have hbody : ClassModel.getterBody d value = [.ifUnset flag [.store slot.value value, .store flag (.bool true)]] ++
          [.ret (.slot slot.value)] := by
        simp only [ClassModel.getterBody, hslot, hcache, hflag, T.unobserved d hd, Bool.false_eq_true, if_false]
      have hmethod : T.model.HasMethod (.getter d.name d.type) (ClassModel.getterBody d value) := .derivedGetter d hd value hvalue
      refine Scene.ends_invoke_generated hlive.located hmethod (fun _ _ h hname => getter_unique hd hvalue hinit h hname) ?_
        fun k _ method => ?_
      · rw [Scene.localCountAll_getterBody (.derived d hd value hvalue)]
        decide
      · rw [hbody]
        exact ends_lazy rfl hflag
    exact hread v m' hrun

/-- **A gate is evaluated as it is.**  It is ready then, and nothing has happened but that lazy values may have been
computed. -/
theorem ends_enablement (hg : T.Among (fun _ => True) g) (hlive : T.Live m) {depth : Nat} {refreshing : List Nat} :
    Ends (enablement (enter fuel depth) refreshing T.object g) m fun enabled m' =>
      T.Tracked (fun _ => True) m m' ∧ T.Ready m' g ∧ T.Reads m g (.bool enabled) := by
  have hread : Ends (read (enter fuel depth) refreshing T.object g) m fun v m' =>
      T.Tracked (fun _ => True) m m' ∧ T.Ready m' g ∧ T.Reads m g v := by
    intro v m' hrun
    obtain ⟨htracked, hreads⟩ := ends_read hg hlive v m' hrun
    exact ⟨htracked, ends_read_ready hlive v m' hrun, hreads⟩
  refine hread.bind fun v m₁ h => ends_ofOption.imp ?_
  rintro enabled _ ⟨rfl, hbool⟩
  obtain rfl : v = .bool enabled := by
    cases v <;> cases hbool
    rfl
  exact h

/-! ### What leaves a gate as it is -/

/-- Nothing has changed that the value of a gate goes by, if the gate is ready. -/
structure Undisturbed (T : Setting) (g : String) (m m' : Machine) : Prop where
  reactive : ∀ p ∈ T.model.mutableProperties, p.name = g → m'.field? T.object p.slot = m.field? T.object p.slot
  derived : ∀ d ∈ T.model.derived, d.name = g →
    (∀ field ∈ d.fieldNames, m'.field? T.object field = m.field? T.object field) ∧
      m'.field? T.object (Naming.autoField d.name) = m.field? T.object (Naming.autoField d.name) ∧
        (d.slot = none → T.Same (fun i => T.model.DependsOn i d) m m')

theorem Undisturbed.ready (h : T.Undisturbed g m m') (hready : T.Ready m g) : T.Ready m' g := by
  intro d hd hname slot hslot
  obtain heager | ⟨flag, hflag, hset⟩ := hready d hd hname slot hslot
  · exact Or.inl heager
  · exact Or.inr ⟨flag, hflag, ((h.derived d hd hname).1 flag (Scene.flag_mem_fieldNames hslot hflag)).trans hset⟩

theorem Undisturbed.reads (h : T.Undisturbed g m m') (hready : T.Ready m g) {v : Value} (hv : T.Reads m g v) :
    T.Reads m' g v := by
  cases hv with
  | reactive mem exposed found => exact .reactive mem exposed ((h.reactive _ mem rfl).trans found)
  | stored mem exposed slotted settled found =>
    refine .stored mem exposed slotted (h.ready hready _ mem rfl _ slotted) ?_
    exact ((h.derived _ mem rfl).1 _ (Scene.value_mem_fieldNames slotted)).trans found
  | automatic mem exposed announced auto found =>
    exact .automatic mem exposed announced auto ((h.derived _ mem rfl).2.1.trans found)
  | @computed d φ ρ v mem exposed opened formula known value =>
    -- What is open and ready is not kept.
    have hslot : d.slot = none := by
      cases hslot : d.slot with
      | none => rfl
      | some slot => exact absurd (hready d mem rfl slot hslot) (not_settled_of_open mem hslot opened)
    have hopen (n : Machine) : T.Open d n := fun slot h => by rw [hslot] at h; cases h
    have hwritten (hannounced : d.recompute = none) (hauto : T.own.IsAutomatic d.name) : False := by
      rw [formula?_of_automatic hannounced hauto] at formula
      cases formula
    have hyields := (reads_open_iff mem exposed opened hwritten).mp (.computed mem exposed opened formula known value)
    exact (reads_open_iff mem exposed (hopen m') hwritten).mpr (hyields.of_same mem ((h.derived d mem rfl).2.2 hslot))

/-- A field of a derived value is written, which is another one than the gate, and which the gate is not computed from. -/
theorem undisturbed_store {d : DerivedProperty} (hd : d ∈ T.model.derived) {field : String} (hfield : field ∈ d.fieldNames)
    (v : Value) (hother : g ≠ d.name)
    (hfree : ∀ e ∈ T.model.derived, e.slot = none → T.model.DependsOn d.property e → e.name ≠ g) :
    T.Undisturbed g m (m.store T.object field v) := by
  have hkept {name : String} (hne : name ≠ field) :
      (m.store T.object field v).field? T.object name = m.field? T.object name := by
    rw [Machine.field?_store, if_neg fun hsame => hne hsame.2.1]
  refine ⟨fun p hp _ => hkept fun heq => T.nodup_fields.2.2.1 p hp d hd (heq ▸ hfield), fun e he hname =>
    ⟨fun name hmem => hkept fun heq => ?_, hkept fun heq => ?_, fun hslot => ?_⟩⟩
  · rw [Scene.eq_of_mem_fieldNames he hd hmem (heq ▸ hfield)] at hname
    exact hother hname.symm
  · exact T.autoField_not_mem hd e.name (heq ▸ hfield)
  · exact same_store hd (fun hdepends => hfree e he hslot hdepends hname) hfield v

/-- The slot of a reactive property is written, which is another one than the gate, and which the gate is not computed from.
-/
theorem undisturbed_store_slot {p : MutableProperty} (hp : p ∈ T.model.mutableProperties) (v : Value) (hother : g ≠ p.name)
    (hfree : ∀ e ∈ T.model.derived, e.slot = none → T.model.DependsOn p.id e → e.name ≠ g) :
    T.Undisturbed g m (m.store T.object p.slot v) := by
  have hkept {name : String} (hne : name ≠ p.slot) :
      (m.store T.object p.slot v).field? T.object name = m.field? T.object name := by
    rw [Machine.field?_store, if_neg fun hsame => hne hsame.2.1]
  refine ⟨fun q hq hname => hkept fun heq => ?_, fun e he hname =>
    ⟨fun name hmem => hkept fun heq => T.nodup_fields.2.2.1 p hp e he (heq ▸ hmem),
      hkept (T.slot_ne_autoField hp e.name).symm, fun hslot => same_store_slot hp ?_ v⟩⟩
  · rw [List.inj_on_of_nodup_map T.nodup_fields.1 hq hp heq] at hname
    exact hother hname.symm
  · exact fun hdepends => hfree e he hslot hdepends hname

/-! ### Commands that obey -/

/-- A command that no gate enables is enabled; another one is enabled as its gate says, which is ready, unless the gate
waits for an announcement. -/
structure Obeys (T : Setting) (waiting : String → Prop) (m : Machine) (c : CommandState) : Prop where
  free : c.spec.canExecute = none → c.enabled = true
  ready : ∀ g, c.spec.canExecute = some g → T.Ready m g
  gated : ∀ g, c.spec.canExecute = some g → ¬ waiting g → T.Reads m g (.bool c.enabled)

variable {waiting waiting' : String → Prop} {c : CommandState}

theorem Obeys.mono (h : T.Obeys waiting m c) (hle : ∀ g, waiting g → waiting' g) : T.Obeys waiting' m c :=
  ⟨h.free, h.ready, fun g hg hnot => h.gated g hg fun hwaiting => hnot (hle g hwaiting)⟩

theorem Obeys.settles (h : T.Obeys waiting m c) (hsettles : T.Settles C m m') : T.Obeys waiting m' c :=
  ⟨h.free, fun g hg => (h.ready g hg).settles hsettles, fun g hg hnot => hsettles.reads (h.gated g hg hnot)⟩

/-- Gates that do not wait are undisturbed, and no value is taken for one that is not stored. -/
theorem Obeys.undisturbed (h : T.Obeys waiting m c) (hle : ∀ g, waiting g → waiting' g) (hflags : T.FlagsStay m m')
    (hundisturbed : ∀ g, c.spec.canExecute = some g → ¬ waiting' g → T.Undisturbed g m m') : T.Obeys waiting' m' c :=
  ⟨h.free, fun g hg => (h.ready g hg).flags hflags, fun g hg hnot =>
    (hundisturbed g hg hnot).reads (h.ready g hg) (h.gated g hg fun hwaiting => hnot (hle g hwaiting))⟩

/-- What becomes of a command while those are evaluated that a gate enables. -/
structure Evaluates (T : Setting) (g : String) (ids : List Nat) (m m' : Machine) : Prop where
  settles : T.Settles (fun _ => True) m m'
  slots : ∀ k ∈ T.model.commands, m'.field? T.object k.slot = m.field? T.object k.slot
  live : T.Live m'
  commands : ∀ (i : Nat) (c' : CommandState), m'.commands[i]? = some c' → ∃ c, m.commands[i]? = some c ∧
    c'.owner = c.owner ∧ c'.spec = c.spec ∧ (i ∉ ids → c'.enabled = c.enabled) ∧
      (c'.enabled = c.enabled ∨ T.Reads m g (.bool c'.enabled)) ∧ (i ∈ ids → T.Reads m g (.bool c'.enabled))

/-- Evaluating commands sets them to what their gate says, and does nothing else. -/
theorem evaluates_of_evaluated (hg : T.Among (fun _ => True) g) {ids : List Nat} (hlive : T.Live m)
    (hrun : T.Evaluated fuel g ids m m') : T.Evaluates g ids m m' := by
  induction hrun with
  | nil m => exact ⟨.refl m, fun _ _ => rfl, hlive, fun i c hc => ⟨c, hc, rfl, rfl, fun _ => rfl, Or.inl rfl, nofun⟩⟩
  | @cons id ids depth enabled m m₁ m₂ m₃ run drift set _ ih =>
    obtain ⟨htracked, -, hreads⟩ := ends_enablement hg hlive enabled m₁ run
    obtain ⟨hobjects, hset, -⟩ := Scene.ends_setEnabled _ _ set
    have hsame : T.Settles (fun _ => True) m m₂ := htracked.toSettles.trans (.of_objects hobjects)
    have hrest := ih (htracked.live.of_objects hobjects)
    have hcommands : m₂.commands = m.commands.modify id fun c => { c with enabled := enabled } := by
      rw [hset, htracked.commands]
    refine ⟨hsame.trans hrest.settles, fun k hk => ?_, hrest.live, fun i c' hc' => ?_⟩
    · rw [hrest.slots k hk, Machine.field?, hobjects]
      exact htracked.slots k hk
    · obtain ⟨c₂, hc₂, howner, hspec, hkept, hthen, hmem⟩ := hrest.commands i c' hc'
      rw [hcommands, List.getElem?_modify] at hc₂
      obtain ⟨c, hc, rfl⟩ := Option.map_eq_some_iff.mp hc₂
      have hback {b : Bool} (h : T.Reads m₂ g (.bool b)) : T.Reads m g (.bool b) := hsame.reads_before h
      by_cases hi : id = i
      · subst hi
        simp only [if_true] at howner hspec hkept hthen
        have hnow : T.Reads m g (.bool c'.enabled) := hthen.elim (fun h => h ▸ hreads) hback
        exact ⟨c, hc, howner, hspec, fun hnot => absurd List.mem_cons_self hnot, Or.inr hnow, fun _ => hnow⟩
      · simp only [if_neg hi] at howner hspec hkept hthen
        refine ⟨c, hc, howner, hspec, fun hnot => hkept fun h => hnot (List.mem_cons_of_mem _ h), hthen.imp_right hback, ?_⟩
        exact fun h => hback (hmem ((List.mem_cons.mp h).resolve_left (Ne.symm hi)))

/-- Behind an announcement a command obeys, also if the property enables it that was announced. -/
theorem Obeys.raised (hg : T.Among (fun _ => True) g) (hlive : T.Live m) (hrun : T.Raised fuel g m m') {i : Nat}
    {c' : CommandState} (hc' : m'.commands[i]? = some c') (howner : c'.owner = T.object)
    (h : ∀ c, m.commands[i]? = some c → c.owner = T.object → T.Obeys waiting m c) :
    T.Obeys (fun x => waiting x ∧ x ≠ g) m' c' := by
  have hlogged : T.Settles (fun _ => True) m (m.logged (.changed T.object g)) := .of_objects rfl
  have hevaluates := evaluates_of_evaluated hg (hlive.logged _) hrun
  obtain ⟨c, hc, howner', hspec, hkept, -, hmem⟩ := hevaluates.commands i c' hc'
  have hobeys := (h c hc (howner' ▸ howner)).settles (hlogged.trans hevaluates.settles)
  have hgated : i ∈ Run.gated m.commands T.object g ↔ c.spec.canExecute = some g := by
    have hlt : i < m.commands.length := (List.getElem?_eq_some_iff.mp hc).1
    have hc : m.commands[i]? = some c := hc
    rw [Run.gated, List.mem_filter]
    simp only [hc, List.mem_range, hlt, howner'.symm.trans howner]
    simp
  refine ⟨fun hfree => ?_, fun x hx => hobeys.ready x (hspec ▸ hx), fun x hx hnot => ?_⟩
  · rw [hspec] at hfree
    rw [hkept fun hmem => by rw [hgated.mp hmem] at hfree; cases hfree]
    exact hobeys.free hfree
  · rw [hspec] at hx
    by_cases hxg : x = g
    · subst hxg
      exact hevaluates.settles.reads (hmem (hgated.mpr hx))
    · rw [hkept fun hmem => hxg (Option.some.inj (hx.symm.trans (hgated.mp hmem)))]
      exact hobeys.gated x hx fun hwaiting => hnot ⟨hwaiting, hxg⟩

end Setting

end Reactive
