import Reactive.Proofs.Current
import Reactive.Proofs.Gating

/-!
# Reactive.Proofs.Enabling — the commands of an object

* `Setting.Managed`: each command of an object is in the slot of its property, stays there, and obeys its gate; but some
  gates wait for an announcement.
* `Setting.Managed.drift`: a command that is created is managed from then on.
* `Setting.Managed.recomputed`, `Setting.Managed.written`: while a write goes on, the gates wait that it affects and that
  are not kept; behind it none waits.
* `Setting.stays_managed`: so it is whatever the object is asked.
* `Setting.command_once`, `Setting.command_again`, `Setting.canExecute_eq_gate`: there is one command for each method, it
  is found again, and it may be executed when its gate says so.
-/

namespace Reactive

open Stateful Run

namespace Setting

variable {T : Setting} {C : PropertyId → Prop} {fuel : Nat} {m₀ m m' : Machine} {waiting waiting' : String → Prop}

/-- The commands of the object are managed: each is in the slot of its property, and has been since an earlier machine if it
was there, and it obeys its gate, unless the gate waits for an announcement. -/
structure Managed (T : Setting) (m₀ : Machine) (waiting : String → Prop) (m : Machine) : Prop where
  live : T.Live m
  filed : ∀ (id : Nat) (c : CommandState), m.commands[id]? = some c → c.owner = T.object →
    ∃ k ∈ T.model.commands, c.spec = k.factory.spec ∧ m.field? T.object k.slot = some (.command id)
  lasting : ∀ k ∈ T.model.commands, ∀ id, m₀.field? T.object k.slot = some (.command id) →
    m.field? T.object k.slot = some (.command id)
  obeys : ∀ (id : Nat) (c : CommandState), m.commands[id]? = some c → c.owner = T.object → T.Obeys waiting m c

namespace Managed

theorem mono (h : T.Managed m₀ waiting m) (hle : ∀ g, waiting g → waiting' g) : T.Managed m₀ waiting' m :=
  ⟨h.live, h.filed, h.lasting, fun id c hc howner => (h.obeys id c hc howner).mono hle⟩

/-- From now on. -/
theorem rebase (h : T.Managed m₀ waiting m) : T.Managed m waiting m := ⟨h.live, h.filed, fun _ _ _ hid => hid, h.obeys⟩

/-- Neither commands nor their slots change. -/
theorem of_commands (h : T.Managed m₀ waiting m) (hlive : T.Live m') (hcommands : m'.commands = m.commands)
    (hslots : ∀ k ∈ T.model.commands, m'.field? T.object k.slot = m.field? T.object k.slot)
    (hobeys : ∀ c, T.Obeys waiting m c → T.Obeys waiting' m' c) : T.Managed m₀ waiting' m' := by
  refine ⟨hlive, fun id c hc howner => ?_, fun k hk id hid => (hslots k hk).trans (h.lasting k hk id hid), fun id c hc howner =>
    hobeys c (h.obeys id c (hcommands ▸ hc) howner)⟩
  obtain ⟨k, hk, hspec, hslot⟩ := h.filed id c (hcommands ▸ hc) howner
  exact ⟨k, hk, hspec, (hslots k hk).trans hslot⟩

/-- Members are read. -/
theorem tracked (h : T.Managed m₀ waiting m) (htracked : T.Tracked C m m') : T.Managed m₀ waiting m' :=
  h.of_commands htracked.live htracked.commands htracked.slots fun _ hc => hc.settles htracked.toSettles

theorem of_objects (h : T.Managed m₀ waiting m) (hobjects : m'.objects = m.objects) (hcommands : m'.commands = m.commands) :
    T.Managed m₀ waiting m' := by
  refine h.of_commands (h.live.of_objects hobjects) hcommands (fun k _ => ?_) fun _ hc =>
    hc.settles (Settles.of_objects (C := fun _ => True) hobjects)
  rw [Machine.field?, hobjects]
  rfl

theorem logged (h : T.Managed m₀ waiting m) (e : Event) : T.Managed m₀ waiting (m.logged e) := h.of_objects rfl rfl

/-- A field is written that is no slot of a command. -/
theorem store (h : T.Managed m₀ waiting m) {field : String} {v : Value} (hv : T.Admits T.object v)
    (hfield : ∀ k ∈ T.model.commands, k.slot ≠ field)
    (hobeys : ∀ c, T.Obeys waiting m c → T.Obeys waiting' (m.store T.object field v) c) :
    T.Managed m₀ waiting' (m.store T.object field v) := by
  refine h.of_commands (h.live.store hv) rfl (fun k hk => ?_) hobeys
  rw [Machine.field?_store, if_neg fun hsame => hfield k hk hsame.2.1]

/-- A change is announced, and the commands are evaluated that the property enables. -/
theorem raised (h : T.Managed m₀ waiting m) {g : String} (hg : T.Among (fun _ => True) g) (hrun : T.Raised fuel g m m') :
    T.Managed m₀ (fun x => waiting x ∧ x ≠ g) m' := by
  have hevaluates := evaluates_of_evaluated hg (h.live.logged _) hrun
  refine ⟨hevaluates.live, fun id c' hc' howner => ?_, fun k hk id hid => (hevaluates.slots k hk).trans (h.lasting k hk id hid),
    fun id c' hc' howner => .raised hg h.live hrun hc' howner fun c hc hown => h.obeys id c hc hown⟩
  obtain ⟨c, hc, howner', hspec, -⟩ := hevaluates.commands id c' hc'
  obtain ⟨k, hk, hkspec, hslot⟩ := h.filed id c hc (howner'.symm.trans howner)
  exact ⟨k, hk, hspec.trans hkspec, (hevaluates.slots k hk).trans hslot⟩

end Managed

/-! ### Commands that are created -/

/-- When a command is created its gate is evaluated, and nothing else happens. -/
theorem tracked_of_gated (hregular : T.Regular) {k : CommandModel} (hk : k ∈ T.model.commands) (hlive : T.Live m)
    {enabled : Bool} (hgate : Scene.Gated fuel T.object m k.factory.enablement enabled m') :
    T.Tracked (fun _ => True) m m' ∧ ∀ n, T.Settles (fun _ => True) m' n →
      T.Obeys waiting n ⟨T.object, k.factory.spec, enabled⟩ := by
  have hgates := hregular.gates k hk
  have hspec : k.factory.spec.canExecute = k.factory.enablement := rfl
  generalize k.factory.enablement = enablement at hgate hgates hspec
  cases hgate with
  | free =>
    have hnever {g : String} (hg : k.factory.spec.canExecute = some g) : False := by
      rw [hspec] at hg
      cases hg
    exact ⟨.refl hlive, fun n _ => ⟨fun _ => rfl, fun g hg => (hnever hg).elim, fun g hg => (hnever hg).elim⟩⟩
  | @read g _ depth refreshing _ run =>
    obtain ⟨htracked, hready, hreads⟩ := ends_enablement (hgates g rfl) hlive enabled m' run
    refine ⟨htracked, fun n hsettles => ⟨fun hfree => ?_, fun x hx => ?_, fun x hx _ => ?_⟩⟩
    · rw [hspec] at hfree
      cases hfree
    · obtain rfl := Option.some.inj (hspec.symm.trans hx)
      exact hready.settles hsettles
    · obtain rfl := Option.some.inj (hspec.symm.trans hx)
      exact hsettles.reads (htracked.toSettles.reads hreads)

/-- A command is created, and stored in the slot of its property, which was empty. -/
theorem Managed.created (h : T.Managed m₀ waiting m) {k : CommandModel} (hk : k ∈ T.model.commands)
    (hempty : m.field? T.object k.slot = some .null) {enabled : Bool}
    (hobeys : ∀ n, T.Settles (fun _ => True) m n → T.Obeys waiting n ⟨T.object, k.factory.spec, enabled⟩) :
    T.Managed m₀ waiting ((m.withCommand T.object k.factory.spec enabled).store T.object k.slot
      (.command m.commands.length)) := by
  have hadded : T.Settles (fun _ => True) m (m.withCommand T.object k.factory.spec enabled) := .of_objects rfl
  have hsettles := hadded.store_command hk (.command m.commands.length)
  -- The other slots hold commands, and this one was empty.
  have hkept {l : CommandModel} {id : Nat} (hid : m.field? T.object l.slot = some (.command id)) :
      ((m.withCommand T.object k.factory.spec enabled).store T.object k.slot (.command m.commands.length)).field? T.object
        l.slot = some (.command id) := by
    rw [Machine.field?_store, if_neg, ← hid]
    · rfl
    · rintro ⟨-, hslot, -⟩
      rw [hslot, hempty] at hid
      cases hid
  have hcases {id : Nat} {c : CommandState} (hc : (m.commands ++ [⟨T.object, k.factory.spec, enabled⟩])[id]? = some c) :
      m.commands[id]? = some c ∨ id = m.commands.length ∧ c = ⟨T.object, k.factory.spec, enabled⟩ := by
    by_cases hlt : id < m.commands.length
    · exact Or.inl (List.getElem?_append_left hlt ▸ hc)
    · obtain ⟨hid, hnew⟩ := List.getElem?_eq_some_iff.mp hc
      rw [List.length_append, List.length_singleton] at hid
      obtain rfl : id = m.commands.length := by omega
      exact Or.inr ⟨rfl, by simpa using hnew.symm⟩
  have hlive : T.Live (m.withCommand T.object k.factory.spec enabled) := h.live.of_objects rfl
  refine ⟨hlive.store fun _ _ => rfl, fun id c hc howner => ?_, fun l hl id hid => hkept (h.lasting l hl id hid),
    fun id c hc howner => ?_⟩
  · obtain hold | ⟨rfl, rfl⟩ := hcases hc
    · obtain ⟨l, hl, hspec, hslot⟩ := h.filed id c hold howner
      exact ⟨l, hl, hspec, hkept hslot⟩
    · obtain ⟨i, hi, -⟩ := hlive.located.image
      exact ⟨k, hk, rfl, by rw [Machine.field?_store, if_pos ⟨rfl, rfl, by rw [hi]; rfl⟩]⟩
  · obtain hold | ⟨rfl, rfl⟩ := hcases hc
    · exact (h.obeys id c hold howner).settles hsettles
    · exact hobeys _ hsettles

/-- Harmless methods compute lazy values and create commands, which are managed from then on. -/
theorem Managed.drift (hregular : T.Regular) (h : T.Managed m₀ waiting m) (hrun : T.Drift fuel m m') :
    T.Managed m₀ waiting m' := by
  induction hrun with
  | refl m => exact h
  | trans _ _ ih₁ ih₂ => exact ih₂ (ih₁ h)
  | logged m _ => exact h.logged _
  | @computed r L model d slot flag value depth a fresh m m₁ located generated mem slotted flagged operand unset receiver run
      _ admitted =>
    obtain rfl := located.near T.leaves
    obtain ⟨rfl, rfl⟩ := located.own_model rfl generated
    obtain ⟨hyields, htracked⟩ :=
      ends_operandValue ClassModel.closed_all mem (fun _ _ => trivial) operand receiver h.live fresh m₁ run
    exact h.tracked (htracked.store mem trivial slotted flagged unset hyields (admitted T.leaves rfl))
  | @created r L model k enabled m m₁ located generated mem empty gate =>
    obtain rfl := located.near T.leaves
    obtain ⟨rfl, rfl⟩ := located.own_model rfl generated
    obtain ⟨htracked, hobeys⟩ := tracked_of_gated hregular mem h.live gate
    exact (h.tracked htracked).created mem ((htracked.slots k mem).trans empty) hobeys

/-! ### Recomputing -/

variable {d : DerivedProperty} {ds : List DerivedProperty}

/-- A lazy value is marked as stored: no command has it for its gate, or it has been stored before. -/
theorem Managed.flagged (hd : d ∈ T.model.derived)
    (hwaiting : ∀ e ∈ T.model.derived, e.slot = none → T.model.DependsOn d.property e → waiting e.name)
    {slot : DerivedSlot} (hslot : d.slot = some slot) (h : T.Managed m₀ waiting m) :
    T.Managed m₀ waiting (T.flagged slot m) := by
  unfold Scene.flagged
  split
  · exact h
  rename_i flag hflag
  have hmem := Scene.flag_mem_fieldNames hslot hflag
  refine h.store (fun _ _ => rfl) (fun k hk heq => (T.nodup_fields.2.2.2 k hk).2 d hd (heq ▸ hmem)) fun c hc => ?_
  by_cases hgate : c.spec.canExecute = some d.name
  · have hset : m.field? T.object flag = some (.bool true) := by
      obtain heager | ⟨flag', hflag', hset⟩ := hc.ready d.name hgate d hd rfl slot hslot
      · rw [cache_of_flag hd hslot hflag] at heager
        cases heager
      · rwa [Option.some.inj (hflag.symm.trans hflag')]
    refine hc.settles (Settles.of_fields (C := fun _ => True) fun field => ?_)
    rw [Machine.field?_store]
    split
    · rename_i hsame
      rw [hsame.2.1, hset]
    · rfl
  · refine hc.undisturbed (fun _ hg => hg) (flagsStay_store fun _ _ _ _ _ _ _ => rfl) fun g hg hnot => ?_
    exact undisturbed_store hd hmem _ (fun heq => hgate (heq ▸ hg)) fun e he hnone hdepends hname =>
      hnot (hname ▸ hwaiting e he hnone hdepends)

/-- A kept value is computed again.  The gates that are not kept and that it matters for are waiting. -/
theorem Managed.recomputed (hd : d ∈ T.model.derived)
    (hwaiting : ∀ e ∈ T.model.derived, e.slot = none → T.model.DependsOn d.property e → waiting e.name)
    (h : T.Managed m₀ waiting m) (hrun : T.Recomputed fuel d m m') : T.Managed m₀ waiting m' := by
  have hcomputed {slot : DerivedSlot} (hslot : d.slot = some slot) {value : Operand} {fresh : Value} {m₁ : Machine}
      (hvalue : T.model.operand? d = some value) (hcomputes : T.Computes fuel value (T.flagged slot m) fresh m₁) :
      T.Managed m₀ waiting m₁ := by
    have hflagged := h.flagged hd hwaiting hslot
    exact hflagged.tracked (tracked_of_computes hd hvalue hflagged.live hcomputes).2
  cases hrun with
  | kept slotted computed run => exact hcomputed slotted computed run
  | @stored slot value fresh current m₁ _ slotted computed run _ _ raised =>
    have hmem := Scene.value_mem_fieldNames slotted
    have hstored : T.Managed m₀ (fun g => waiting g ∨ g = d.name)
        ((m₁.logged (.changing T.object d.name)).store T.object slot.value fresh) := by
      refine ((hcomputed slotted computed run).logged _).store run.admitted
        (fun k hk heq => (T.nodup_fields.2.2.2 k hk).2 d hd (heq ▸ hmem)) fun c hc => ?_
      refine hc.undisturbed (fun _ => Or.inl) (flagsStay_store fun e he slot' hslot' flag hflag heq => ?_) fun g _ hnot => ?_
      · obtain rfl := Scene.eq_of_mem_fieldNames he hd (Scene.flag_mem_fieldNames hslot' hflag) (heq ▸ hmem)
        obtain rfl := Option.some.inj (slotted.symm.trans hslot')
        exact absurd heq (T.flag_ne_value hd slotted hflag)
      · exact undisturbed_store hd hmem _ (fun heq => hnot (Or.inr heq)) fun e he hnone hdepends hname =>
          hnot (Or.inl (hname ▸ hwaiting e he hnone hdepends))
    refine (hstored.raised (Or.inr ⟨d, hd, rfl, trivial⟩) raised).mono ?_
    rintro g ⟨hg, hne⟩
    exact hg.resolve_right hne

/-! ### Writing -/

/-- The gates that derived values are which are not kept. -/
def Waits (ds : List DerivedProperty) (g : String) : Prop := ∃ d ∈ ds, d.slot = none ∧ d.name = g

/-- What follows for derived values, one after another: what is not kept is announced, and does not wait any more. -/
theorem Managed.refreshedAll (hds : ∀ d ∈ ds, d ∈ T.model.derived) (hbehind : T.Behind ds)
    (h : T.Managed m₀ (Waits ds) m) (hrun : T.RefreshedAll fuel ds m m') : T.Managed m₀ (fun _ => False) m' := by
  induction hrun with
  | nil m => exact h.mono fun g hg => nomatch hg
  | @cons d ds m m₁ _ first _ ih =>
    obtain ⟨hnext, hrest⟩ := hbehind.cons
    have hd := hds d List.mem_cons_self
    refine ih (fun e he => hds e (List.mem_cons_of_mem _ he)) hrest ?_
    cases first with
    | announced uncached raised =>
      refine (h.raised (Or.inr ⟨d, hd, rfl, trivial⟩) raised).mono ?_
      rintro g ⟨⟨e, he, hnone, rfl⟩, hne⟩
      obtain rfl | he := List.mem_cons.mp he
      · exact absurd rfl hne
      · exact ⟨e, he, hnone, rfl⟩
    | recomputed cached run =>
      obtain ⟨slot, hslot⟩ := Option.isSome_iff_exists.mp ((T.own_generated.2.derived d hd).cached cached).1
      refine Managed.recomputed hd (fun e he hnone hdepends => ⟨e, hnext e hdepends, hnone, rfl⟩) (h.mono ?_) run
      rintro g ⟨e, he, hnone, rfl⟩
      obtain rfl | he := List.mem_cons.mp he
      · rw [hslot] at hnone
        cases hnone
      · exact ⟨e, he, hnone, rfl⟩

/-- Behind a write no gate waits. -/
theorem Managed.written (hregular : T.Regular) {p : MutableProperty} (hp : p ∈ T.model.mutableProperties) {v : Value}
    (hv : T.Admits T.object v) (h : T.Managed m₀ (fun _ => False) m) (hrun : T.Written fuel p v m m') :
    T.Managed m₀ (fun _ => False) m' := by
  have haffected {e : DerivedProperty} : e ∈ T.model.affected p ↔ T.model.DependsOn p.id e :=
    ClassModel.mem_affected_iff T.own_generated.2 T.orderly
  cases hrun with
  | unchanged => exact h
  | @changed m₁ m₂ m₃ _ _ before raised behind follow =>
    have hbefore : T.Managed m₀ (fun _ => False) (m₁.loggedAll (T.changings (T.model.affected p))) :=
      ((h.logged _).drift hregular before).of_objects rfl rfl
    have hstored : T.Managed m₀ (fun g => g = p.name ∨ Waits (T.model.affected p) g)
        ((m₁.loggedAll (T.changings (T.model.affected p))).store T.object p.slot v) := by
      refine hbefore.store hv (fun k hk => (T.nodup_fields.2.2.2 k hk).1 p hp) fun c hc => ?_
      refine hc.undisturbed (fun _ => False.elim) (flagsStay_store fun e he slot hslot flag hflag heq => ?_) fun g _ hnot => ?_
      · exact absurd (heq ▸ Scene.flag_mem_fieldNames hslot hflag) (T.nodup_fields.2.2.1 p hp e he)
      · exact undisturbed_store_slot hp v (fun heq => hnot (Or.inl heq)) fun e _ hnone hdepends hname =>
          hnot (Or.inr ⟨e, haffected.mpr hdepends, hnone, hname⟩)
    have hraised : T.Managed m₀ (Waits (T.model.affected p)) m₂ := by
      refine (hstored.raised (Or.inl ⟨p, hp, rfl, trivial⟩) raised).mono ?_
      rintro g ⟨hg, hne⟩
      exact hg.resolve_left hne
    refine (hraised.drift hregular behind).refreshedAll (fun d hd => (haffected.mp hd).mem)
      (fun pre d post hsplit e hdepends => ?_) follow
    have hd : d ∈ T.model.affected p := hsplit ▸ List.mem_append_right _ List.mem_cons_self
    exact Scene.behind_of_dependsOn T.orderly (haffected.mp hd) hdepends hsplit

/-! ### Whatever is asked -/

theorem undisturbed_of_unmoved (h : T.Unmoved m m') (g : String) : T.Undisturbed g m m' :=
  ⟨fun _ hp _ => h.reactive hp, fun d hd _ => ⟨fun _ hfield => h.derived hd hfield, h.automatic d hd, fun _ => h.same _⟩⟩

theorem flagsStay_of_unmoved (h : T.Unmoved m m') : T.FlagsStay m m' := fun _ hd _ hslot _ hflag hset =>
  (h.derived hd (Scene.flag_mem_fieldNames hslot hflag)).trans hset

/-- Whatever the object is asked, its commands stay managed. -/
theorem Managed.moves (hregular : T.Regular) (h : T.Managed m₀ (fun _ => False) m) (hlive : T.Live m')
    (hmove : T.Moves fuel m m') : T.Managed m₀ (fun _ => False) m' := by
  have hobeys (hunmoved : T.Unmoved m m') {c : CommandState} (hc : T.Obeys (fun _ => False) m c) :
      T.Obeys (fun _ => False) m' c :=
    hc.undisturbed (fun _ => False.elim) (flagsStay_of_unmoved hunmoved) fun g _ _ => undisturbed_of_unmoved hunmoved g
  cases hmove with
  | drifts drift => exact h.drift hregular drift
  | writes mem plain written => exact h.written hregular mem (fun _ _ => plain) written
  | @assigns x v apart =>
    have hunmoved := unmoved_store (m := m) apart v
    exact h.of_commands hlive rfl (fun k hk => hunmoved.slot hk) fun c hc => hobeys hunmoved hc
  | elsewhere spares =>
    have hunmoved := unmoved_of_spares spares
    refine ⟨hlive, fun id c hc howner => ?_, fun k hk id hid => (hunmoved.slot hk).trans (h.lasting k hk id hid),
      fun id c hc howner => hobeys hunmoved (h.obeys id c ((spares.commands id c howner).mp hc) howner)⟩
    obtain ⟨k, hk, hspec, hslot⟩ := h.filed id c ((spares.commands id c howner).mp hc) howner
    exact ⟨k, hk, hspec, (hunmoved.slot hk).trans hslot⟩

/-- While there are no commands they are managed. -/
theorem managed_of_commandless (hlive : T.Live m) (h : T.Commandless m) : T.Managed m waiting m :=
  ⟨hlive, fun _ c hc howner => absurd howner (h.none c (List.mem_of_getElem? hc)), fun _ _ _ hid => hid,
    fun _ c hc howner => absurd howner (h.none c (List.mem_of_getElem? hc))⟩

/-- One thing after another. -/
theorem Managed.uses (hregular : T.Regular) (hstands : T.Stands m) (h : T.Managed m₀ (fun _ => False) m)
    (huses : T.Uses m m') : T.Managed m₀ (fun _ => False) m' :=
  huses.induct hregular hstands h fun _ _ _ _ h₂ hmanaged hmove => hmanaged.moves hregular h₂.live hmove

/-- **The commands of an object are managed.**  Let an object be in its place, and let no command have been created for it;
init creates none.  Whatever the object is asked from then on, and whatever others are asked, if it is granted, its commands
are managed, and no gate waits. -/
theorem stays_managed (hregular : T.Regular) (hstands : T.Stands m₀) (hnone : T.Commandless m₀) (huses : T.Uses m₀ m) :
    T.Managed m₀ (fun _ => False) m := (managed_of_commandless hstands.live hnone).uses hregular hstands huses

/-! ### What managed commands are like -/

theorem eq_of_slot {k l : CommandModel} (hk : k ∈ T.model.commands) (hl : l ∈ T.model.commands) (h : k.slot = l.slot) : k = l := by
  have hnodup := T.own_generated.1.fields
  rw [ClassModel.fieldNames, List.nodup_append] at hnodup
  exact List.inj_on_of_nodup_map hnodup.2.1 hk hl h

/-- **Each method has one command.**  An object has at most one command of each method. -/
theorem command_once (h : T.Managed m₀ waiting m) {i j : Nat} {c c' : CommandState} (hc : m.commands[i]? = some c)
    (hc' : m.commands[j]? = some c') (howner : c.owner = T.object) (howner' : c'.owner = T.object)
    (hmethod : c.spec.method = c'.spec.method) : i = j := by
  obtain ⟨k, hk, hspec, hslot⟩ := h.filed i c hc howner
  obtain ⟨l, hl, hspec', hslot'⟩ := h.filed j c' hc' howner'
  have hfits := T.own_generated.2.commands
  have hkl : k.method = l.method := by rwa [hspec, hspec'] at hmethod
  have hsame : k.slot = l.slot := by
    rw [(hfits k hk).slot, (hfits l hl).slot, (hfits k hk).property, (hfits l hl).property, hkl]
  rw [hsame, hslot'] at hslot
  cases hslot
  rfl

/-- The getter of a command gives what is in its slot then. -/
theorem ends_returnCommand {enter : Enter} {a : Activation} {declares : String → Bool} {slot : String}
    {factory : CommandFactory} : Ends (interpretBody enter a declares [] [.returnCommand slot factory]) m
      fun v m' => m'.field? a.receiver slot = some v := by
  simp only [interpretBody, interpretAll, interpret, bind_assoc]
  refine ends_loadField.bind ?_
  rintro current m ⟨rfl, hcurrent⟩
  split
  · simp only [bind_assoc, pure_bind, Flow.follow]
    refine Ends.bind (P := fun _ _ => True) (fun _ _ _ => trivial) fun id m₁ _ => ?_
    refine ends_storeField.bind ?_
    rintro _ _ ⟨rfl, hpresent⟩
    exact ends_pure (by rw [Machine.field?_store, if_pos ⟨rfl, rfl, hpresent⟩])
  · simp only [pure_bind, Flow.follow]
    exact ends_pure hcurrent

/-- The property of a command gives the command that is in its slot. -/
theorem ends_command_slot (hlive : T.Live m) {k : CommandModel} (hk : k ∈ T.model.commands) :
    Ends (Run.command fuel T.object k.property) m fun id m' => m'.field? T.object k.slot = some (.command id) := by
  have hmethod : T.model.HasMethod _ [.returnCommand k.slot k.factory] := .commandGetter k hk
  have hread : Ends (getProperty fuel T.object k.property) m fun v m' => m'.field? T.object k.slot = some v := by
    refine ends_accessor.bind ?_
    rintro getter m ⟨rfl, i, p, hi, hp, hgetter⟩
    obtain ⟨rfl, hinit⟩ := T.own_generated.1.getters _ _ _ (hlive.located.image_eq hi ▸ hp) hgetter
    refine Scene.ends_invoke_generated hlive.located hmethod (fun signature body h hname => ?_)
      (show 0 < UInt16.size by decide) fun _ _ method => ends_returnCommand
    obtain ⟨p, hp, hpk, -⟩ | ⟨d, hd, hdk, -⟩ | ⟨l, hl, hlk, rfl, rfl⟩ := getter_cases hinit h hname
    · exact absurd hpk.symm ((T.commands k hk).1 p hp)
    · exact absurd hdk.symm ((T.commands k hk).2 d hd)
    · have hfits := T.own_generated.2.commands
      obtain rfl := eq_of_slot hl hk (by rw [(hfits l hl).slot, (hfits k hk).slot, hlk])
      exact ⟨rfl, rfl⟩
  refine hread.bind fun v m' h => ?_
  cases v with
  | command id => exact ends_pure h
  | _ => exact ends_throw

/-- Asking for a command is an ordinary action. -/
theorem Uses.command (h : T.Uses m₀ m) {x : String} {id : Nat} (hrun : Run.command fuel T.object x m = .ok id m') :
    T.Uses m₀ m' := by
  have hordinary : (Action.command T.object x).Ordinary T.object := trivial
  have hgranted : (Action.command T.object x).perform fuel m = .ok () m' := by
    rw [show Action.perform fuel (.command T.object x) m = _ from discard_apply .., hrun]
  exact h.one hordinary hgranted

/-- **A command is found again.**  The property of a command gives the same command as before, whatever the object has been
asked meanwhile. -/
theorem command_again (hregular : T.Regular) (hstands : T.Stands m₀) (hnone : T.Commandless m₀) (huses : T.Uses m₀ m)
    {k : CommandModel} (hk : k ∈ T.model.commands) {id : Nat} (hfirst : Run.command fuel T.object k.property m = .ok id m')
    {m₁ m₂ : Machine} (hmeanwhile : T.Uses m' m₁) {fuel' id' : Nat}
    (hagain : Run.command fuel' T.object k.property m₁ = .ok id' m₂) : id' = id := by
  have hstands' := hstands.uses hregular (huses.command hfirst)
  have hslot := ends_command_slot (hstands.uses hregular huses).live hk id m' hfirst
  have hslot' := ends_command_slot (hstands'.uses hregular hmeanwhile).live hk id' m₂ hagain
  -- From the first read on the command stays in its slot.
  have hmanaged : T.Managed m' (fun _ => False) m' := (stays_managed hregular hstands hnone (huses.command hfirst)).rebase
  have hlasting := (hmanaged.uses hregular hstands' (hmeanwhile.command hagain)).lasting k hk id hslot
  rw [hslot'] at hlasting
  cases hlasting
  rfl

/-- **A command may be executed when its gate says so.**  A command of the object that has no gate may always be executed.
For one that has a gate, what is read of the gate says whether it may. -/
theorem canExecute_eq_gate (hregular : T.Regular) (hstands : T.Stands m₀) (hnone : T.Commandless m₀) (huses : T.Uses m₀ m)
    {id : Nat} {c : CommandState} (hc : m.commands[id]? = some c) (howner : c.owner = T.object) {b : Bool}
    (hrun : Run.canExecute id m = .ok b m') : (c.spec.canExecute = none → b = true) ∧
      ∀ g, c.spec.canExecute = some g → ∀ v m₁, getProperty fuel T.object g m = .ok v m₁ → v = .bool b := by
  have hmanaged := stays_managed hregular hstands hnone huses
  have hobeys := hmanaged.obeys id c hc howner
  have henabled : b = c.enabled := by
    have hends : Ends (Run.canExecute id) m fun b _ => b = c.enabled := by
      refine ends_command.bind ?_
      rintro c' m ⟨rfl, hc'⟩
      rw [Option.some.inj (hc.symm.trans hc')]
      exact ends_pure rfl
    exact hends b m' hrun
  refine ⟨fun hfree => henabled.trans (hobeys.free hfree), fun g hg v m₁ hread => ?_⟩
  obtain ⟨k, hk, hspec, -⟩ := hmanaged.filed id c hc howner
  have hgate : k.factory.enablement = some g := by
    rw [hspec] at hg
    exact hg
  have hreads := (ends_read (hregular.gates k hk g hgate) hmanaged.live v m₁ hread).2
  rw [henabled]
  exact hreads.unique _ (hobeys.gated g hg nofun)

end Setting

/-! ### A door -/

/-- A door with a level, which is open if that is above twenty, and can be passed then. -/
def door : ClassDecl where
  name := "Door"
  typeParams := []
  modifiers := [.partial_]
  bases := [⟨"IReactiveObject", [], false⟩]
  members :=
    [reactiveInt "Level",
      ⟨"Open", [⟨"Derived", [⟨none, .path ["CacheMode", "LazyOnFirstAccess"], .none⟩, ⟨none, .string "Level", .none⟩],
          .none⟩], [],
        .property ⟨boolType, some ⟨some (.binary .greater (.name "Level" .none) (.literal (.int 20) .none) .none), .none⟩,
          none, none⟩, .none, .none⟩,
      ⟨"Pass", [⟨"Command", [⟨some "CanExecute", .string "Open", .none⟩], .none⟩], [],
        .method ⟨⟨"void", [], false⟩, [], none⟩, .none, .none⟩]
  nameSpan := .none
  span := .none

/-- The file that declares a door and nothing else. -/
def doorFile : DeclarationSet := ⟨"", "", ⟨[], none, [door]⟩, default⟩

/-- A door as it is loaded. -/
def doorClass : LoadedClass := (LoadedClass.load? doorFile door).get (by decide +kernel)

/-- The model of a door. -/
def doorModel : ClassModel := doorClass.model.get (by decide +kernel)

theorem load?_door : LoadedClass.load? doorFile door = some doorClass := (Option.some_get _).symm

theorem model_door : doorClass.model = some doorModel := (Option.some_get _).symm

theorem declaration_door : doorClass.declaration = door := (LoadedClass.load?_eq_some load?_door).2.1

theorem tame_door : Tame [doorClass] :=
  LoadedClass.tame_singleton (LoadedClass.uncalled_singleton (LoadedClass.load?_eq_some load?_door).1 (by decide +kernel)
    (by decide +kernel)) model_door (by decide +kernel)

/-- The derived values of a door are not the door itself, nothing observes or sets them, and they are computed from sources
that are tracked. -/
theorem derived_door : ∀ d ∈ doorModel.derived, d.isWithheld = true ∧ d.isObservable = false ∧
    (doorClass.image.properties.find? d.name).bind PropertyDef.setter = none ∧ (∀ i ∈ d.sources, doorModel.Tracks i) ∧
      ∀ n ∈ (doorClass.formula? doorModel d).elim [] Formula.readNames,
        ∃ i ∈ d.sources, doorModel.members.resolve? n = some i := by
  unfold ClassModel.Tracks
  decide +kernel

theorem withholds_door : doorClass.Withholds doorModel := by
  have hbodies : door.bodies = [.binary .greater (.name "Level" .none) (.literal (.int 20) .none) .none] := rfl
  refine ⟨fun name params body h _ => ?_, fun d hd body h => ?_, by decide +kernel⟩
  · have hbody := (declaration_door ▸ h : door.HasBody name params body).mem_bodies
    rw [hbodies] at hbody
    rw [List.mem_singleton.mp hbody]
    rfl
  · have hvalue := (derived_door d hd).1
    rwa [DerivedProperty.isWithheld, h] at hvalue

theorem orderly_door : doorModel.Orderly := by
  obtain ⟨-, -, hanalyzed, -⟩ := LoadedClass.load?_eq_some load?_door
  exact (analyzeClass_eq_some (hanalyzed.trans model_door)).2.2.2 (by decide +kernel)

theorem distinct_door : doorClass.declaration.Distinct := by
  rw [declaration_door]
  refine ⟨by decide, fun member hmem decl hkind x => ?_⟩
  simp only [door, List.mem_cons, List.not_mem_nil, or_false] at hmem
  obtain rfl | rfl | rfl := hmem
  · cases hkind
  · cases hkind
  · have hother : Naming.isAccessor "Pass" = false := by decide
    refine ⟨fun heq => ?_, fun heq => ?_⟩
    · rw [show "Pass" = Naming.getter x from heq, Naming.isAccessor_getter] at hother
      cases hother
    · rw [show "Pass" = Naming.setter x from heq, Naming.isAccessor_setter] at hother
      cases hother

/-- The first object as a door. -/
def doorSetting : Setting where
  classes := [doorClass]
  tame := tame_door
  own := doorClass
  mem := List.mem_singleton.mpr rfl
  model := doorModel
  generated := model_door
  object := 0
  plain := True
  withholds := fun _ => withholds_door
  leaves := trivial
  orderly := orderly_door
  distinct := distinct_door
  unobserved := fun d hd => (derived_door d hd).2.1
  tracked := fun d hd => (derived_door d hd).2.2.2.1
  traced := fun d hd φ hφ n hn => (derived_door d hd).2.2.2.2 n (by rw [hφ]; exact hn)
  commands := orderly_door.commands
  fields := (LoadedClass.load?_eq_some load?_door).1.autoField_not_mem model_door

theorem regular_door : doorSetting.Regular := by
  have hown : doorSetting.own = doorClass := by simp only [doorSetting]
  have hmodel : doorSetting.model = doorModel := by simp only [doorSetting]
  have hgates : ∀ k ∈ doorModel.commands, ∀ g ∈ k.factory.enablement, ∃ d ∈ doorModel.derived, d.name = g := by
    decide +kernel
  have hcommands : ∀ k ∈ doorModel.commands, k.method ≠ doorModel.initMethod := by decide +kernel
  refine ⟨fun d hd p hp => ?_, fun k hk g hg => ?_, by rwa [hmodel]⟩
  · rw [hown] at hp
    have hnone := (derived_door d (hmodel ▸ hd)).2.2.1
    rwa [hp] at hnone
  · obtain ⟨d, hd, hname⟩ := hgates k (hmodel ▸ hk) g hg
    exact Or.inr ⟨d, hmodel ▸ hd, hname, trivial⟩

/-- A new door is the only object, and holds none; there are no commands, and its own has not been created. -/
theorem alone_door : doorClass.alone.objects.length = 1 ∧ doorClass.alone.commands = [] ∧
    doorClass.alone.objects[0]?.map Instance.image = some doorClass.image ∧
      (doorClass.alone.objects[0]?.all fun i => i.fields.all fun entry => !entry.2.isObject) = true ∧
        ∀ c ∈ doorModel.commands, doorClass.alone.field? 0 c.slot = some .null := by
  decide +kernel

theorem stands_door : doorSetting.Stands doorClass.alone := by
  obtain ⟨hsole, hnone, himage, hplain, -⟩ := alone_door
  have hreached : doorSetting.Reached doorClass.alone :=
    .of_fields (.perform (.load .empty (List.mem_singleton.mpr rfl)) 100 _) himage hplain
  exact .of_sole hreached.live hreached.reachable.of hsole hnone

/-- A door that has been asked for its command. -/
def askedDoor : Machine := final (Run.command 100 0 "PassCommand" doorClass.alone)

/-- The door when it has been opened then. -/
def openDoor : Machine := final ((Action.set 0 "Level" (.int 25)).perform 100 askedDoor)

/-- What a door answers, before it is opened and then. -/
theorem asked_door : (Run.command 100 0 "PassCommand").run' doorClass.alone = some 0 ∧
    isOk ((Action.set 0 "Level" (.int 25)).perform 100 askedDoor) = true ∧
      openDoor.commands[0]? = some ⟨0, ⟨"Pass", false, false, some "Open"⟩, true⟩ ∧
        (Run.canExecute 0).run' askedDoor = some false ∧ (Run.canExecute 0).run' openDoor = some true := by
  decide +kernel

/-- A door that is opened can be passed. -/
theorem canExecute_eq_gate_door : Run.command 100 0 "PassCommand" doorClass.alone = .ok 0 askedDoor ∧
    (Run.canExecute 0).run' askedDoor = some false ∧ (Run.canExecute 0).run' openDoor = some true ∧
      ∀ v m, getProperty 100 0 "Open" openDoor = .ok v m → v = .bool true := by
  obtain ⟨hasked, hopened, hfound, hbefore, hafter⟩ := asked_door
  have hcommand : Run.command 100 0 "PassCommand" doorClass.alone = .ok 0 askedDoor := eq_ok_of_run' hasked
  have hset : (Action.set 0 "Level" (.int 25)).perform 100 askedDoor = .ok () openDoor := eq_ok_final hopened
  have hordinary : (Action.set 0 "Level" (.int 25)).Ordinary 0 := rfl
  have huses : doorSetting.Uses doorClass.alone openDoor := .one (.command .none hcommand) hordinary hset
  have hnone : doorSetting.Commandless doorClass.alone := .of_nil alone_door.2.1 alone_door.2.2.2.2
  have hexecute : Run.canExecute 0 openDoor = .ok true _ := eq_ok_of_run' hafter
  refine ⟨hcommand, hbefore, hafter, fun v m hread => ?_⟩
  exact (Setting.canExecute_eq_gate regular_door stands_door hnone huses hfound rfl hexecute).2 "Open" rfl v m hread

end Reactive
