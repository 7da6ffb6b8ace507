import Reactive.Proofs.Storing

/-!
# Reactive.Proofs.Notification — what a write to a reactive property announces

* `Contract`: the announcements of a write, as a property of the log.
* `Scene.Kept`: fields that stay as they are while other values are announced and recomputed.
* `Scene.contract`: a write that changes something meets the contract.
-/

namespace Reactive

open Stateful Run

/-! ### Logs -/

/-- Nothing of the property is announced. -/
def Silent (object : Nat) (name : String) (log : List Event) : Prop :=
  .changing object name ∉ log ∧ .changed object name ∉ log

/-- The property is announced once before and once behind a change, with nothing in between. -/
structure Paired (object : Nat) (name : String) (log : List Event) : Prop where
  adjacent : ∃ before behind, log = before ++ .changing object name :: .changed object name :: behind
  changing : log.count (.changing object name) = 1
  changed : log.count (.changed object name) = 1

/-- What a write announces of a reactive property and of everything that depends on it. -/
structure Contract (model : ClassModel) (object : Nat) (p : MutableProperty) (m m' : Machine) (log : List Event) :
    Prop where
  first : log.head? = some (.changing object p.name)
  changing : log.count (.changing object p.name) = 1
  changed : log.count (.changed object p.name) = 1
  uncached : ∀ d, model.DependsOn p.id d → d.cache = .disabled → log.count (.changing object d.name) = 1 ∧
    log.count (.changed object d.name) = 1 ∧
      ∃ before behind, log = before ++ .changed object p.name :: behind ∧ .changing object d.name ∈ before
  cached : ∀ d, model.DependsOn p.id d → d.cache.isCached = true →
    Silent object d.name log ∨ Paired object d.name log
  settled : ∀ d slot, model.DependsOn p.id d → d.slot = some slot →
    (d.cache = .eager ∨ ∃ flag, slot.flag = some flag ∧ m.field? object flag = some (.bool true)) →
      (Silent object d.name log ∧ m'.field? object slot.value = m.field? object slot.value) ∨
        (Paired object d.name log ∧ ∃ old new, m.field? object slot.value = some old ∧
          m'.field? object slot.value = some new ∧ old.equals new = false)
  others : ∀ other name, .changing other name ∈ log ∨ .changed other name ∈ log →
    other = object ∧ (name = p.name ∨ ∃ d, model.DependsOn p.id d ∧ d.name = name)
  ordered : ∀ d e, model.DependsOn p.id d → model.DependsOn p.id e → model.DependsOn e.property d →
    ¬ ∃ before behind, log = before ++ .changed object d.name :: behind ∧ .changed object e.name ∈ behind

theorem silent_of_silent {object : Nat} {name : String} {log : List Event} (h : ∀ x ∈ log, x.isAnnouncement = false) :
    Silent object name log := by
  constructor
  · intro hmem
    cases h _ hmem
  · intro hmem
    cases h _ hmem

theorem Silent.append {object : Nat} {name : String} {l₁ l₂ : List Event} (h₁ : Silent object name l₁)
    (h₂ : Silent object name l₂) : Silent object name (l₁ ++ l₂) := by
  constructor
  · exact fun hmem => (List.mem_append.mp hmem).elim h₁.1 h₂.1
  · exact fun hmem => (List.mem_append.mp hmem).elim h₁.2 h₂.2

theorem Silent.counts {object : Nat} {name : String} {log : List Event} (h : Silent object name log) :
    log.count (.changing object name) = 0 ∧ log.count (.changed object name) = 0 :=
  ⟨List.count_eq_zero.mpr h.1, List.count_eq_zero.mpr h.2⟩

/-- An adjacent pair with nothing else of the property around it. -/
theorem Paired.around {object : Nat} {name : String} {l₁ l₂ : List Event} (h₁ : Silent object name l₁)
    (h₂ : Silent object name l₂) : Paired object name (l₁ ++ .changing object name :: .changed object name :: l₂) := by
  refine ⟨⟨l₁, l₂, rfl⟩, ?_, ?_⟩
  · rw [List.count_append, List.count_cons_self, List.count_cons_of_ne (by rintro ⟨⟩), h₁.counts.1, h₂.counts.1]
  · rw [List.count_append, List.count_cons_of_ne (by rintro ⟨⟩), List.count_cons_self, h₁.counts.2, h₂.counts.2]

namespace Scene

variable {S : Scene} {fuel : Nat} {m m' : Machine}

/-- Only the derived values are announced, before their change only cached ones. -/
def Announces (S : Scene) (ds : List DerivedProperty) (log : List Event) : Prop :=
  ∀ e ∈ log, e.isAnnouncement = true → ∃ d ∈ ds, (e = .changing S.object d.name ∧ d.cache.isCached = true) ∨
    e = .changed S.object d.name

theorem Announces.silent {ds : List DerivedProperty} {log : List Event} (h : S.Announces ds log) {name : String}
    (hname : ∀ d ∈ ds, d.name ≠ name) : Silent S.object name log := by
  constructor
  · intro hmem
    obtain ⟨d, hd, ⟨heq, -⟩ | heq⟩ := h _ hmem rfl
    · cases heq
      exact hname d hd rfl
    · cases heq
  · intro hmem
    obtain ⟨d, hd, ⟨heq, -⟩ | heq⟩ := h _ hmem rfl
    · cases heq
    · cases heq
      exact hname d hd rfl

/-- What a recomputed value adds to the log: nothing of it, or an adjacent pair. -/
theorem Recomputed.log {d : DerivedProperty} (h : S.Recomputed fuel d m m') :
    ∃ log, m'.events = m.events ++ log ∧ ((∀ e ∈ log, e.isAnnouncement = false) ∨ ∃ l₁ l₂,
      log = l₁ ++ .changing S.object d.name :: .changed S.object d.name :: l₂ ∧
        (∀ e ∈ l₁, e.isAnnouncement = false) ∧ ∀ e ∈ l₂, e.isAnnouncement = false) := by
  have hflagged (slot : DerivedSlot) : (S.flagged slot m).events = m.events := by
    unfold flagged
    cases slot.flag <;> rfl
  cases h with
  | kept _ _ run _ _ =>
    obtain ⟨log, hlog, hsilent⟩ := run.drift.quiet.events
    exact ⟨log, by rw [hlog, hflagged], Or.inl hsilent⟩
  | stored _ _ run _ _ raised =>
    obtain ⟨l₁, hl₁, h₁⟩ := run.drift.quiet.events
    obtain ⟨l₂, hl₂, h₂⟩ := raised.quiet.events
    refine ⟨_, ?_, Or.inr ⟨l₁, l₂, rfl, h₁, h₂⟩⟩
    rw [hl₂, Machine.logged, Machine.events_store, Machine.logged, hl₁, hflagged]
    simp only [List.append_assoc, List.cons_append, List.nil_append]

/-- What follows for a derived value adds to the log. -/
theorem Refreshed.log {d : DerivedProperty} (h : S.Refreshed fuel d m m') :
    ∃ log, m'.events = m.events ++ log ∧ S.Announces [d] log ∧
      (d.cache = .disabled → ∃ q, log = .changed S.object d.name :: q ∧ ∀ e ∈ q, e.isAnnouncement = false) ∧
      (d.cache.isCached = true → (∀ e ∈ log, e.isAnnouncement = false) ∨ ∃ l₁ l₂,
        log = l₁ ++ .changing S.object d.name :: .changed S.object d.name :: l₂ ∧
          (∀ e ∈ l₁, e.isAnnouncement = false) ∧ ∀ e ∈ l₂, e.isAnnouncement = false) := by
  cases h with
  | announced uncached raised =>
    obtain ⟨q, hq, hsilent⟩ := raised.quiet.events
    refine ⟨.changed S.object d.name :: q, ?_, fun e he hannounce => ?_, fun _ => ⟨q, rfl, hsilent⟩, fun hcached => ?_⟩
    · rw [hq, Machine.logged, List.append_assoc, List.singleton_append]
    · obtain rfl | he := List.mem_cons.mp he
      · exact ⟨d, List.mem_cons_self, Or.inr rfl⟩
      · rw [hsilent e he] at hannounce
        cases hannounce
    · rw [uncached] at hcached
      cases hcached
  | recomputed cached run =>
    obtain ⟨log, hlog, hshape⟩ := run.log
    refine ⟨log, hlog, fun e he hannounce => ⟨d, List.mem_cons_self, ?_⟩, fun huncached => ?_, fun _ => hshape⟩
    · obtain hsilent | ⟨l₁, l₂, rfl, h₁, h₂⟩ := hshape
      · rw [hsilent e he] at hannounce
        cases hannounce
      · simp only [List.mem_append, List.mem_cons] at he
        obtain he | rfl | rfl | he := he
        · rw [h₁ e he] at hannounce
          cases hannounce
        · exact Or.inl ⟨rfl, cached⟩
        · exact Or.inr rfl
        · rw [h₂ e he] at hannounce
          cases hannounce
    · rw [huncached] at cached
      cases cached

/-- What follows for derived values announces nothing else. -/
theorem RefreshedAll.log {ds : List DerivedProperty} (h : S.RefreshedAll fuel ds m m') :
    ∃ log, m'.events = m.events ++ log ∧ S.Announces ds log := by
  induction h with
  | nil m => exact ⟨[], (List.append_nil _).symm, nofun⟩
  | cons first _ ih =>
    obtain ⟨l₁, hl₁, h₁, -⟩ := first.log
    obtain ⟨l₂, hl₂, h₂⟩ := ih
    refine ⟨l₁ ++ l₂, by rw [hl₂, hl₁, List.append_assoc], fun e he hannounce => ?_⟩
    obtain he | he := List.mem_append.mp he
    · obtain ⟨d, hd, hshape⟩ := h₁ e he hannounce
      exact ⟨d, List.mem_singleton.mp hd ▸ List.mem_cons_self, hshape⟩
    · obtain ⟨d, hd, hshape⟩ := h₂ e he hannounce
      exact ⟨d, List.mem_cons_of_mem _ hd, hshape⟩

theorem RefreshedAll.split {post : List DerivedProperty} : ∀ {pre : List DerivedProperty} {m m' : Machine},
    S.RefreshedAll fuel (pre ++ post) m m' → ∃ m₁, S.RefreshedAll fuel pre m m₁ ∧ S.RefreshedAll fuel post m₁ m'
  | [], m, _, h => ⟨m, .nil m, h⟩
  | _ :: _, _, _, .cons first rest => by
    obtain ⟨m₁, h₁, h₂⟩ := rest.split
    exact ⟨m₁, .cons first h₁, h₂⟩

/-! ### Fields that stay -/

/-- The fields have the same values. -/
def Agree (S : Scene) (fields : List String) (m m' : Machine) : Prop :=
  ∀ field ∈ fields, m'.field? S.object field = m.field? S.object field

/-- The fields are kept wherever they have these values. -/
def Kept (S : Scene) (fields : List String) (m : Machine) : Prop :=
  ∀ m', S.Agree fields m m' → ∀ field ∈ fields, S.Keeps m' field

variable {fields : List String}

theorem Agree.trans {m₁ m₂ m₃ : Machine} (h : S.Agree fields m₁ m₂) (h' : S.Agree fields m₂ m₃) :
    S.Agree fields m₁ m₃ := fun field hfield => (h' field hfield).trans (h field hfield)

theorem Kept.of_agree (h : S.Kept fields m) (hagree : S.Agree fields m m') : S.Kept fields m' :=
  fun m'' h'' => h m'' (hagree.trans h'')

theorem Kept.quiet (h : S.Kept fields m) (hquiet : S.Quiet m m') : S.Agree fields m m' :=
  fun field hfield => hquiet.kept field (h m (fun _ _ => rfl) field hfield)

/-- Another field is written. -/
theorem agree_store {object : Nat} {field : String} {value : Value} (h : field ∉ fields) :
    S.Agree fields m (m.store object field value) := by
  intro name hname
  rw [Machine.field?_store, if_neg]
  rintro ⟨-, rfl, -⟩
  exact h hname

theorem agree_flagged {slot : DerivedSlot} (h : ∀ flag, slot.flag = some flag → flag ∉ fields) :
    S.Agree fields m (S.flagged slot m) := by
  unfold flagged
  split
  · exact fun _ _ => rfl
  · exact agree_store (h _ ‹_›)

/-- Recomputing one value leaves the fields of others. -/
theorem Recomputed.agree {d : DerivedProperty} (h : S.Recomputed fuel d m m') (hkept : S.Kept fields m)
    (hother : ∀ field ∈ fields, field ∉ d.fieldNames) : S.Agree fields m m' := by
  have hstart {slot : DerivedSlot} (hslot : d.slot = some slot) : S.Agree fields m (S.flagged slot m) :=
    agree_flagged fun flag hflag hmem => hother flag hmem (flag_mem_fieldNames hslot hflag)
  cases h with
  | kept slotted _ run _ _ => exact (hstart slotted).trans ((hkept.of_agree (hstart slotted)).quiet run.drift.quiet)
  | @stored slot value fresh current m₁ m' slotted _ run _ _ raised =>
    have h₁ := (hstart slotted).trans ((hkept.of_agree (hstart slotted)).quiet run.drift.quiet)
    have h₂ : S.Agree fields m₁ (((m₁.logged (.changing S.object d.name)).store S.object slot.value fresh).logged
        (.changed S.object d.name)) :=
      agree_store (m := m₁.logged (.changing S.object d.name)) fun hmem => hother _ hmem (value_mem_fieldNames slotted)
    exact (h₁.trans h₂).trans ((hkept.of_agree (h₁.trans h₂)).quiet raised.quiet)

theorem Refreshed.agree {d : DerivedProperty} (h : S.Refreshed fuel d m m') (hkept : S.Kept fields m)
    (hother : ∀ field ∈ fields, field ∉ d.fieldNames) : S.Agree fields m m' := by
  cases h with
  | announced _ raised =>
    have hlogged : S.Agree fields m (m.logged (.changed S.object d.name)) := fun _ _ => rfl
    exact hlogged.trans ((hkept.of_agree hlogged).quiet raised.quiet)
  | recomputed _ run => exact run.agree hkept hother

theorem RefreshedAll.agree {ds : List DerivedProperty} (h : S.RefreshedAll fuel ds m m') (hkept : S.Kept fields m)
    (hother : ∀ d ∈ ds, ∀ field ∈ fields, field ∉ d.fieldNames) : S.Agree fields m m' := by
  induction h with
  | nil m => exact fun _ _ => rfl
  | cons first _ ih =>
    have h₁ := first.agree hkept (hother _ List.mem_cons_self)
    exact h₁.trans (ih (hkept.of_agree h₁) fun d hd => hother d (List.mem_cons_of_mem _ hd))

/-- Everything up to the change leaves the fields of others. -/
theorem Kept.opening (hkept : S.Kept fields m) {p : MutableProperty} (hslot : p.slot ∉ fields) {es : List Event}
    {v : Value} {m₁ m₃ : Machine} (before : S.Quiet (m.logged (.changing S.object p.name)) m₁)
    (behind : S.Quiet (((m₁.loggedAll es).store S.object p.slot v).logged (.changed S.object p.name)) m₃) :
    S.Agree fields m m₃ := by
  have hlogged : S.Agree fields m (m.logged (.changing S.object p.name)) := fun _ _ => rfl
  have h₁ := hlogged.trans ((hkept.of_agree hlogged).quiet before)
  have h₂ : S.Agree fields m₁ (((m₁.loggedAll es).store S.object p.slot v).logged (.changed S.object p.name)) :=
    agree_store (m := m₁.loggedAll es) hslot
  exact (h₁.trans h₂).trans ((hkept.of_agree (h₁.trans h₂)).quiet behind)

/-! ### Values that are stored -/

section

variable {d : DerivedProperty} (hd : d ∈ S.model.derived) {slot : DerivedSlot} (hslot : d.slot = some slot)

theorem Settled.of_flag (h : S.Settled d slot m)
    (hflag : ∀ flag, slot.flag = some flag → m'.field? S.object flag = m.field? S.object flag) : S.Settled d slot m' := by
  obtain heager | ⟨flag, hsome, hset⟩ := h
  · exact Or.inl heager
  · exact Or.inr ⟨flag, hsome, (hflag flag hsome).trans hset⟩

include hslot in
theorem Settled.of_agree (h : S.Settled d slot m) (hagree : S.Agree d.fieldNames m m') : S.Settled d slot m' :=
  h.of_flag fun flag hflag => hagree flag (flag_mem_fieldNames hslot hflag)

include hd hslot

/-- The value is written where no flag is. -/
theorem Settled.store (h : S.Settled d slot m) (v : Value) : S.Settled d slot (m.store S.object slot.value v) := by
  refine h.of_flag fun flag hflag => ?_
  rw [Machine.field?_store, if_neg]
  rintro ⟨-, heq, -⟩
  exact flag_ne_value hd hslot hflag heq

/-- The fields of a stored value are kept. -/
theorem Settled.kept (h : S.Settled d slot m) : S.Kept d.fieldNames m := by
  intro m' hagree field hfield
  rw [fieldNames_eq hslot] at hfield
  obtain heager | ⟨flag, hflag, hset⟩ := h.of_agree hslot hagree
  · refine Or.inr ⟨d, hd, slot, hslot, Or.inl ⟨heager, ?_⟩⟩
    obtain rfl | hfield := List.mem_cons.mp hfield
    · rfl
    · have hlazy := ((S.own_generated.2.derived d hd).lazy slot hslot).mp (by rw [Option.mem_toList.mp hfield]; rfl)
      rw [heager] at hlazy
      cases hlazy
  · refine Or.inr ⟨d, hd, slot, hslot, Or.inr ⟨flag, hflag, hset, ?_⟩⟩
    rw [hflag] at hfield
    simpa using hfield

/-- The flag of a stored value is set already. -/
theorem Settled.flagged (h : S.Settled d slot m) : S.Agree d.fieldNames m (S.flagged slot m) := by
  intro field _
  unfold Scene.flagged
  split
  · rfl
  · rename_i flag hflag
    obtain heager | ⟨flag', hflag', hset⟩ := h
    · have hlazy := ((S.own_generated.2.derived d hd).lazy slot hslot).mp (by rw [hflag]; rfl)
      rw [heager] at hlazy
      cases hlazy
    · rw [hflag] at hflag'
      cases hflag'
      rw [Machine.field?_store]
      split
      · rename_i hfield
        rw [hfield.2.1, hset]
      · rfl

/-- A stored value changes exactly if its pair is announced. -/
theorem Recomputed.settled (hsettled : S.Settled d slot m) (h : S.Recomputed fuel d m m') :
    S.Settled d slot m' ∧ ∃ log, m'.events = m.events ++ log ∧
      (((∀ e ∈ log, e.isAnnouncement = false) ∧ m'.field? S.object slot.value = m.field? S.object slot.value) ∨
        ((∃ l₁ l₂, log = l₁ ++ .changing S.object d.name :: .changed S.object d.name :: l₂ ∧
          (∀ e ∈ l₁, e.isAnnouncement = false) ∧ ∀ e ∈ l₂, e.isAnnouncement = false) ∧
            ∃ old new, m.field? S.object slot.value = some old ∧ m'.field? S.object slot.value = some new ∧
              old.equals new = false)) := by
  have hflagged := hsettled.flagged hd hslot
  have hvalue := value_mem_fieldNames hslot
  have hsame {m₁ : Machine} {value : Operand} {fresh : Value} (run : S.Computes fuel value (S.flagged slot m) fresh m₁) :
      S.Agree d.fieldNames m m₁ := hflagged.trans (((hsettled.kept hd hslot).of_agree hflagged).quiet run.drift.quiet)
  have hevents : (S.flagged slot m).events = m.events := by
    unfold Scene.flagged
    cases slot.flag <;> rfl
  cases h with
  | kept slotted _ run loaded equal =>
    rw [hslot] at slotted
    cases slotted
    obtain ⟨log, hlog, hsilent⟩ := run.drift.quiet.events
    exact ⟨hsettled.of_agree hslot (hsame run), log, by rw [hlog, hevents], Or.inl ⟨hsilent, hsame run _ hvalue⟩⟩
  | @stored slot' value fresh current m₁ m' slotted _ run loaded unequal raised =>
    rw [hslot] at slotted
    cases slotted
    obtain ⟨l₁, hl₁, h₁⟩ := run.drift.quiet.events
    obtain ⟨l₂, hl₂, h₂⟩ := raised.quiet.events
    have hlogged : S.Settled d slot (m₁.logged (.changing S.object d.name)) :=
      (hsettled.of_agree hslot (hsame run)).of_flag fun _ _ => rfl
    have hsettled₂ : S.Settled d slot (((m₁.logged (.changing S.object d.name)).store S.object slot.value fresh).logged
        (.changed S.object d.name)) := (hlogged.store hd hslot fresh).of_flag fun _ _ => rfl
    have hquiet := (hsettled₂.kept hd hslot).quiet raised.quiet
    have hnew : (((m₁.logged (.changing S.object d.name)).store S.object slot.value fresh).logged
        (.changed S.object d.name)).field? S.object slot.value = some fresh := by
      rw [Machine.field?_logged, Machine.field?_store, if_pos]
      refine ⟨rfl, rfl, ?_⟩
      cases hobject : m₁.objects[S.object]? with
      | none =>
        rw [Machine.field?, hobject] at loaded
        cases loaded
      | some i =>
        rw [Machine.objects_logged, hobject]
        rfl
    refine ⟨hsettled₂.of_agree hslot hquiet, _, ?_, Or.inr ⟨⟨l₁, l₂, rfl, h₁, h₂⟩, current, fresh, ?_, ?_, unequal⟩⟩
    · rw [hl₂, Machine.logged, Machine.events_store, Machine.logged, hl₁, hevents]
      simp only [List.append_assoc, List.cons_append, List.nil_append]
    · rw [← hsame run _ hvalue, loaded]
    · rw [hquiet _ hvalue, hnew]

end

/-! ### The whole write -/

/-- In a list of affected values each comes behind those that it depends on. -/
theorem behind_of_dependsOn (ho : S.model.Orderly) {p : MutableProperty} {d e : DerivedProperty}
    (he : S.model.DependsOn p.id e) (h : S.model.DependsOn e.property d) {pre post : List DerivedProperty}
    (hsplit : S.model.affected p = pre ++ e :: post) : d ∈ post := by
  have hmem {x : DerivedProperty} (hx : S.model.DependsOn p.id x) : x ∈ S.model.affected p :=
    (ClassModel.mem_affected_iff S.own_generated.2 ho).mpr hx
  have hpairwise := ClassModel.pairwise_affected S.own_generated.2 p
  -- One that has another one as a source is not before it.
  have hdirect {x y : DerivedProperty} (hx : S.model.DependsOn p.id x) (hy : y ∈ S.model.derived)
      (hsource : x.property ∈ y.sources) {pre post : List DerivedProperty}
      (hsplit : S.model.affected p = pre ++ x :: post) : y ∈ post := by
    have hy' := hmem (.through hx hy hsource)
    rw [hsplit, List.pairwise_append] at hpairwise
    rw [hsplit, List.mem_append, List.mem_cons] at hy'
    obtain hy' | rfl | hy' := hy'
    · exact absurd hsource (hpairwise.2.2 y hy' x List.mem_cons_self)
    · obtain ⟨i, hi⟩ := List.mem_iff_getElem?.mp hy
      exact absurd (.single ⟨y, y, hi, hi, hsource⟩) (ho.acyclic i)
    · exact hy'
  have hdepends {x : DerivedProperty} (hx : S.model.DependsOn e.property x) : S.model.DependsOn p.id x := by
    induction hx with
    | direct mem named => exact .through he mem named
    | through _ mem named ih => exact .through ih mem named
  induction h with
  | direct mem named => exact hdirect he mem named hsplit
  | through first mem named ih =>
    obtain ⟨pre', post', rfl⟩ := List.append_of_mem ih
    have hlater := hdirect (hdepends first) mem named (by rw [hsplit, ← List.cons_append, ← List.append_assoc])
    exact List.mem_append_right _ (List.mem_cons_of_mem _ hlater)

/-- Names tell derived values apart. -/
theorem eq_of_name (ho : S.model.Orderly) {p : MutableProperty} {d e : DerivedProperty}
    (hd : S.model.DependsOn p.id d) (he : S.model.DependsOn p.id e) (h : d.name = e.name) : d = e :=
  List.inj_on_of_nodup_map ho.distinct hd.mem he.mem h

/-- Affected values have different names. -/
theorem name_ne_of_split (ho : S.model.Orderly) {p : MutableProperty} {d : DerivedProperty}
    {pre post : List DerivedProperty} (hsplit : S.model.affected p = pre ++ d :: post) :
    (∀ x ∈ pre, ∀ y ∈ d :: post, x.name ≠ y.name) ∧ ∀ y ∈ post, y.name ≠ d.name := by
  have hnodup := ClassModel.nodup_affected S.own_generated.2 ho p
  rw [hsplit, List.map_append, List.nodup_append, List.map_cons, List.nodup_cons] at hnodup
  obtain ⟨-, ⟨hpost, -⟩, hpre⟩ := hnodup
  refine ⟨fun x hx y hy => hpre _ (List.mem_map_of_mem hx) _ ?_, fun y hy heq => hpost (heq ▸ List.mem_map_of_mem hy)⟩
  exact List.map_cons ▸ List.mem_map_of_mem hy

/-- What a write announces before anything that depends on the property follows. -/
structure Opening (S : Scene) (p : MutableProperty) (log : List Event) : Prop where
  first : log.head? = some (.changing S.object p.name)
  changing : log.count (.changing S.object p.name) = 1
  changed : log.count (.changed S.object p.name) = 1
  uncached : ∀ d ∈ S.model.affected p, d.cache = .disabled → log.count (.changing S.object d.name) = 1 ∧
    .changed S.object d.name ∉ log ∧
      ∃ before behind, log = before ++ .changed S.object p.name :: behind ∧ .changing S.object d.name ∈ before
  cached : ∀ d ∈ S.model.affected p, d.cache.isCached = true → Silent S.object d.name log
  others : ∀ e ∈ log, e.isAnnouncement = true → e = .changing S.object p.name ∨ e = .changed S.object p.name ∨
    ∃ d ∈ S.model.affected p, e = .changing S.object d.name

theorem opening (ho : S.model.Orderly) {p : MutableProperty} (hp : p ∈ S.model.mutableProperties)
    {q₁ q₂ : List Event} (h₁ : ∀ e ∈ q₁, e.isAnnouncement = false) (h₂ : ∀ e ∈ q₂, e.isAnnouncement = false) :
    S.Opening p (.changing S.object p.name :: q₁ ++ S.changings (S.model.affected p) ++
      .changed S.object p.name :: q₂) := by
  have hdepends {d : DerivedProperty} (hd : d ∈ S.model.affected p) : S.model.DependsOn p.id d :=
    (ClassModel.mem_affected_iff S.own_generated.2 ho).mp hd
  have happart {d : DerivedProperty} (hd : d ∈ S.model.affected p) : d.name ≠ p.name :=
    (ho.apart p hp d (hdepends hd).mem).symm
  have hchanging {e : Event} (he : e ∈ S.changings (S.model.affected p)) :
      ∃ d ∈ S.model.affected p, d.cache = .disabled ∧ e = .changing S.object d.name := by
    obtain ⟨d, hd, rfl⟩ := List.mem_map.mp he
    obtain ⟨hd, huncached⟩ := List.mem_filter.mp hd
    exact ⟨d, hd, of_decide_eq_true huncached, rfl⟩
  have hnever (n : String) : .changed S.object n ∉ S.changings (S.model.affected p) := by
    intro hmem
    obtain ⟨d, -, -, heq⟩ := hchanging hmem
    cases heq
  have hown : Silent S.object p.name (S.changings (S.model.affected p)) := by
    refine ⟨fun hmem => ?_, hnever p.name⟩
    obtain ⟨d, hd, -, heq⟩ := hchanging hmem
    exact happart hd (Event.changing.inj heq).2.symm
  have hq₁ (n : String) : Silent S.object n q₁ := silent_of_silent h₁
  have hq₂ (n : String) : Silent S.object n q₂ := silent_of_silent h₂
  refine ⟨rfl, ?_, ?_, fun d hd huncached => ⟨?_, ?_, ?_⟩, fun d hd hcached => ?_, fun e he hannounce => ?_⟩
  · simp [(hq₁ p.name).counts, (hq₂ p.name).counts, hown.counts]
  · simp [(hq₁ p.name).counts, (hq₂ p.name).counts, hown.counts]
  · have hone : (S.changings (S.model.affected p)).count (.changing S.object d.name) = 1 := by
      refine List.count_eq_one_of_mem ?_ (List.mem_map.mpr ⟨d, List.mem_filter.mpr ⟨hd, decide_eq_true huncached⟩, rfl⟩)
      have hnodup := (ClassModel.nodup_affected S.own_generated.2 ho p).sublist
        ((List.filter_sublist (p := fun d => decide (d.cache = .disabled))).map DerivedProperty.name)
      have hmap : S.changings (S.model.affected p) = (((S.model.affected p).filter (·.cache = .disabled)).map
          DerivedProperty.name).map (Event.changing S.object) := by
        rw [List.map_map]
        rfl
      rw [hmap]
      exact hnodup.map fun _ _ h => (Event.changing.inj h).2
    simp [(hq₁ d.name).counts, (hq₂ d.name).counts, hone, (happart hd).symm]
  · simp [(hq₁ d.name).2, (hq₂ d.name).2, hnever, happart hd]
  · refine ⟨_, q₂, rfl, List.mem_append_right _ ?_⟩
    exact List.mem_map.mpr ⟨d, List.mem_filter.mpr ⟨hd, decide_eq_true huncached⟩, rfl⟩
  · have hcached : .changing S.object d.name ∉ S.changings (S.model.affected p) := by
      intro hmem
      obtain ⟨e, he, huncached, heq⟩ := hchanging hmem
      obtain rfl := eq_of_name ho (hdepends hd) (hdepends he) (Event.changing.inj heq).2
      rw [huncached] at hcached
      cases hcached
    constructor
    · simp [(hq₁ d.name).1, (hq₂ d.name).1, hcached, happart hd]
    · simp [(hq₁ d.name).2, (hq₂ d.name).2, hnever, happart hd]
  · simp only [List.mem_append, List.mem_cons] at he
    obtain ((rfl | he) | he) | rfl | he := he
    · exact Or.inl rfl
    · rw [h₁ e he] at hannounce
      cases hannounce
    · obtain ⟨d, hd, -, rfl⟩ := hchanging he
      exact Or.inr (Or.inr ⟨d, hd, rfl⟩)
    · exact Or.inr (Or.inl rfl)
    · rw [h₂ e he] at hannounce
      cases hannounce

/-- The log of what follows, around one of the affected values. -/
theorem around (ho : S.model.Orderly) {p : MutableProperty} {d : DerivedProperty} (hd : S.model.DependsOn p.id d)
    (h : S.RefreshedAll fuel (S.model.affected p) m m') {t : List Event} (ht : m'.events = m.events ++ t) :
    ∃ pre post m₁ m₂ l₁ l₂ l₃, S.model.affected p = pre ++ d :: post ∧ t = l₁ ++ (l₂ ++ l₃) ∧
      (S.RefreshedAll fuel pre m m₁ ∧ S.Refreshed fuel d m₁ m₂ ∧ S.RefreshedAll fuel post m₂ m') ∧
        m₂.events = m₁.events ++ l₂ ∧ S.Announces pre l₁ ∧ S.Announces [d] l₂ ∧ S.Announces post l₃ := by
  obtain ⟨pre, post, hsplit⟩ := List.append_of_mem ((ClassModel.mem_affected_iff S.own_generated.2 ho).mpr hd)
  rw [hsplit] at h
  obtain ⟨m₁, hpre, hrest⟩ := h.split
  cases hrest with
  | cons first rest =>
    obtain ⟨l₁, hl₁, h₁⟩ := hpre.log
    obtain ⟨l₂, hl₂, h₂, -⟩ := first.log
    obtain ⟨l₃, hl₃, h₃⟩ := rest.log
    rw [hl₃, hl₂, hl₁, List.append_assoc, List.append_assoc] at ht
    exact ⟨pre, post, m₁, _, l₁, l₂, l₃, hsplit, (List.append_cancel_left ht).symm, ⟨hpre, first, rest⟩, hl₂, h₁, h₂, h₃⟩

/-- Before and behind what follows for a value nothing of it is announced. -/
theorem silent_around (ho : S.model.Orderly) {p : MutableProperty} {d : DerivedProperty}
    {pre post : List DerivedProperty} (hsplit : S.model.affected p = pre ++ d :: post) {l₁ l₃ : List Event}
    (h₁ : S.Announces pre l₁) (h₃ : S.Announces post l₃) : Silent S.object d.name l₁ ∧ Silent S.object d.name l₃ := by
  obtain ⟨hpre, hpost⟩ := name_ne_of_split ho hsplit
  exact ⟨h₁.silent fun x hx => hpre x hx d List.mem_cons_self, h₃.silent hpost⟩

/-- An adjacent pair of a derived value, or nothing of it, stays so with nothing of it around. -/
theorem silent_or_paired {d : DerivedProperty} {head l₁ l₃ : List Event} (l₂ : List Event) (hhead : Silent S.object d.name head)
    (hl₁ : Silent S.object d.name l₁) (hl₃ : Silent S.object d.name l₃) :
    ((∀ e ∈ l₂, e.isAnnouncement = false) → Silent S.object d.name (head ++ (l₁ ++ (l₂ ++ l₃)))) ∧
      ((∃ k₁ k₂, l₂ = k₁ ++ .changing S.object d.name :: .changed S.object d.name :: k₂ ∧
        (∀ e ∈ k₁, e.isAnnouncement = false) ∧ ∀ e ∈ k₂, e.isAnnouncement = false) →
          Paired S.object d.name (head ++ (l₁ ++ (l₂ ++ l₃)))) := by
  constructor
  · intro hsilent
    exact hhead.append (hl₁.append ((silent_of_silent hsilent).append hl₃))
  · rintro ⟨k₁, k₂, rfl, hk₁, hk₂⟩
    have hpair := Paired.around (hhead.append (hl₁.append (silent_of_silent hk₁))) ((silent_of_silent hk₂).append hl₃)
    simpa only [List.append_assoc, List.cons_append] using hpair

/-- **The contract of a write.**  A write that changes something announces what the contract says. -/
theorem contract (ho : S.model.Orderly) {p : MutableProperty} (hp : p ∈ S.model.mutableProperties) {v : Value}
    {m₁ m₃ : Machine} (before : S.Quiet (m.logged (.changing S.object p.name)) m₁)
    (behind : S.Quiet (((m₁.loggedAll (S.changings (S.model.affected p))).store S.object p.slot v).logged
      (.changed S.object p.name)) m₃) (follow : S.RefreshedAll fuel (S.model.affected p) m₃ m') :
    ∃ log, m'.events = m.events ++ log ∧ Contract S.model S.object p m m' log := by
  obtain ⟨q₁, hq₁, h₁⟩ := before.events
  obtain ⟨q₂, hq₂, h₂⟩ := behind.events
  obtain ⟨t, ht, hannounces⟩ := follow.log
  have hopening := opening ho hp h₁ h₂
  generalize hhead : (.changing S.object p.name :: q₁ ++ S.changings (S.model.affected p) ++
    .changed S.object p.name :: q₂ : List Event) = head at hopening
  have hm₃ : m₃.events = m.events ++ head := by
    rw [hq₂, Machine.logged, Machine.events_store, Machine.loggedAll, hq₁, Machine.logged, ← hhead]
    simp only [List.append_assoc, List.cons_append, List.nil_append]
  have hdepends {d : DerivedProperty} : d ∈ S.model.affected p ↔ S.model.DependsOn p.id d :=
    ClassModel.mem_affected_iff S.own_generated.2 ho
  have hown : Silent S.object p.name t :=
    hannounces.silent fun d hd => (ho.apart p hp d (hdepends.mp hd).mem).symm
  refine ⟨head ++ t, by rw [ht, hm₃, List.append_assoc], ?_, ?_, ?_, fun d hd huncached => ?_, fun d hd hcached => ?_,
    fun d slot hd hslot hsettled => ?_, fun other name h => ?_, fun d e hd he hde => ?_⟩
  · rw [List.head?_append, hopening.first]
    rfl
  · rw [List.count_append, hopening.changing, hown.counts.1]
  · rw [List.count_append, hopening.changed, hown.counts.2]
  · obtain ⟨hone, hnone, l, l', hl, hmem⟩ := hopening.uncached d (hdepends.mpr hd) huncached
    obtain ⟨pre, post, m₄, m₅, l₁, l₂, l₃, hsplit, rfl, ⟨-, hfirst, -⟩, hl₂, ha₁, -, ha₃⟩ := around ho hd follow ht
    obtain ⟨hs₁, hs₃⟩ := silent_around ho hsplit ha₁ ha₃
    obtain ⟨l₂', hl₂', -, hshape, -⟩ := hfirst.log
    obtain rfl := List.append_cancel_left (hl₂.symm.trans hl₂')
    obtain ⟨q, rfl, hq⟩ := hshape huncached
    have hs : Silent S.object d.name q := silent_of_silent hq
    refine ⟨?_, ?_, l, l' ++ (l₁ ++ (.changed S.object d.name :: q ++ l₃)), ?_, hmem⟩
    · simp [hone, hs₁.counts, hs.counts, hs₃.counts]
    · simp [List.count_eq_zero.mpr hnone, hs₁.counts, hs.counts, hs₃.counts]
    · rw [hl, List.append_assoc, List.cons_append]
  · obtain ⟨pre, post, m₄, m₅, l₁, l₂, l₃, hsplit, rfl, ⟨-, hfirst, -⟩, hl₂, ha₁, -, ha₃⟩ := around ho hd follow ht
    obtain ⟨hs₁, hs₃⟩ := silent_around ho hsplit ha₁ ha₃
    obtain ⟨l₂', hl₂', -, -, hshape⟩ := hfirst.log
    obtain rfl := List.append_cancel_left (hl₂.symm.trans hl₂')
    have hparts := silent_or_paired l₂ (hopening.cached d (hdepends.mpr hd) hcached) hs₁ hs₃
    exact (hshape hcached).imp hparts.1 hparts.2
  · replace hsettled : S.Settled d slot m := hsettled
    have hcached : d.cache.isCached = true := by
      by_contra hno
      rw [(S.own_generated.2.derived d hd.mem).uncached (Bool.eq_false_iff.mpr hno)] at hslot
      cases hslot
    obtain ⟨pre, post, m₄, m₅, l₁, l₂, l₃, hsplit, rfl, ⟨hpre, hfirst, hpost⟩, hl₂, ha₁, -, ha₃⟩ := around ho hd follow ht
    obtain ⟨hs₁, hs₃⟩ := silent_around ho hsplit ha₁ ha₃
    have hparts := silent_or_paired l₂ (hopening.cached d (hdepends.mpr hd) hcached) hs₁ hs₃
    have hother {e : DerivedProperty} (he : e ∈ S.model.affected p) (hne : e.name ≠ d.name) :
        ∀ field ∈ d.fieldNames, field ∉ e.fieldNames := fun field hfield hmem =>
      hne (congrArg DerivedProperty.name (eq_of_mem_fieldNames (hdepends.mp he).mem hd.mem hmem hfield))
    obtain ⟨hnames₁, hnames₃⟩ := name_ne_of_split ho hsplit
    -- The fields stay up to the value's turn, and from then on.
    have hopened := (hsettled.kept hd.mem hslot).opening (S.nodup_fields.2.2.1 p hp d hd.mem) before behind
    have hsettled₃ := hsettled.of_agree hslot hopened
    have hbefore := hopened.trans (hpre.agree (hsettled₃.kept hd.mem hslot) fun e he =>
      hother (hsplit ▸ List.mem_append_left _ he) (hnames₁ e he d List.mem_cons_self))
    have hsettled₄ := hsettled.of_agree hslot hbefore
    cases hfirst with
    | announced uncached =>
      rw [uncached] at hcached
      cases hcached
    | recomputed _ run =>
      obtain ⟨hsettled₅, l₂', hl₂', hshape⟩ := run.settled hd.mem hslot hsettled₄
      obtain rfl := List.append_cancel_left (hl₂.symm.trans hl₂')
      have hbehind := hpost.agree (hsettled₅.kept hd.mem hslot) fun e he =>
        hother (hsplit ▸ List.mem_append_right _ (List.mem_cons_of_mem _ he)) (hnames₃ e he)
      have hvalue := value_mem_fieldNames hslot
      rw [hbefore _ hvalue, ← hbehind _ hvalue] at hshape
      exact hshape.imp (fun h => ⟨hparts.1 h.1, h.2⟩) fun h => ⟨hparts.2 h.1, h.2⟩
  · obtain ⟨event, hevent, hmem, hannounce⟩ : ∃ event, (event = .changing other name ∨ event = .changed other name) ∧
        event ∈ head ++ t ∧ event.isAnnouncement = true :=
      h.elim (fun h => ⟨_, Or.inl rfl, h, rfl⟩) fun h => ⟨_, Or.inr rfl, h, rfl⟩
    obtain hmem | hmem := List.mem_append.mp hmem
    · obtain rfl | rfl | ⟨d, hd, rfl⟩ := hopening.others event hmem hannounce
      · obtain heq | heq := hevent <;> cases heq
        exact ⟨rfl, Or.inl rfl⟩
      · obtain heq | heq := hevent <;> cases heq
        exact ⟨rfl, Or.inl rfl⟩
      · obtain heq | heq := hevent <;> cases heq
        exact ⟨rfl, Or.inr ⟨d, hdepends.mp hd, rfl⟩⟩
    · obtain ⟨d, hd, ⟨rfl, -⟩ | rfl⟩ := hannounces event hmem hannounce
      · obtain heq | heq := hevent <;> cases heq
        exact ⟨rfl, Or.inr ⟨d, hdepends.mp hd, rfl⟩⟩
      · obtain heq | heq := hevent <;> cases heq
        exact ⟨rfl, Or.inr ⟨d, hdepends.mp hd, rfl⟩⟩
  · obtain ⟨pre, post, m₄, m₅, l₁, l₂, l₃, hsplit, rfl, -, -, ha₁, ha₂, ha₃⟩ := around ho he follow ht
    obtain ⟨hnames₁, hnames₃⟩ := name_ne_of_split ho hsplit
    have hlater := behind_of_dependsOn ho he hde hsplit
    have hearlier : .changed S.object d.name ∉ head ++ (l₁ ++ l₂) := by
      have hhead : .changed S.object d.name ∉ head := by
        by_cases hcached : d.cache.isCached = true
        · exact (hopening.cached d (hdepends.mpr hd) hcached).2
        · exact (hopening.uncached d (hdepends.mpr hd) (by simpa [CachePolicy.isCached] using hcached)).2.1
      have hfirst := (ha₁.silent fun x hx => hnames₁ x hx d (List.mem_cons_of_mem _ hlater)).2
      have hown := (ha₂.silent fun x hx => List.mem_singleton.mp hx ▸ (hnames₃ d hlater).symm).2
      simp [hhead, hfirst, hown]
    have hafter : .changed S.object e.name ∉ l₃ := (ha₃.silent hnames₃).2
    rintro ⟨l, l', heq, hmem⟩
    rw [← List.append_assoc l₁, ← List.append_assoc head, List.append_eq_append_iff] at heq
    obtain ⟨k, -, rfl⟩ | ⟨k, hk, heq⟩ := heq
    · exact hafter (List.mem_append_right _ (List.mem_cons_of_mem _ hmem))
    · cases k with
      | nil =>
        obtain rfl : _ = l₃ := heq
        exact hafter (List.mem_cons_of_mem _ hmem)
      | cons x k =>
        obtain ⟨rfl, -⟩ := List.cons.inj heq
        exact hearlier (hk ▸ List.mem_append_right _ List.mem_cons_self)

end Scene

end Reactive
