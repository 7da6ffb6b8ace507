import Mathlib.Data.List.Nodup
import Reactive.Analysis

/-!
# Reactive.Proofs.Drafting — what the steps of the analysis leave as it is

* `Draft.Later`: a draft to which properties, taken names and findings have been added; of a property only the role may
  have changed.
* `Adds`: a step that only adds, and finds no cycle; every step but the one that looks for cycles is one.
* `Notes`: a step that adds no property, either.
-/

namespace Reactive

/-- The finding is about a cycle. -/
def FindingCause.isCycle : FindingCause → Bool
  | .derivedCycle .. => true
  | _ => false

/-- A name that is taken keeps something from being generated. -/
theorem Finding.isWarning_of_code {f : Finding} (h : f.code = "RX0002") : f.isWarning = false := by
  obtain ⟨cause, span⟩ := f
  cases cause <;> first | rfl | simp [code] at h

/-- What no step of the analysis changes of a property. -/
def PropertyInfo.fixed (i : PropertyInfo) : PropertyInfo := { i with role := .plain }

namespace Draft

/-- A draft at a later time. -/
structure Later (d d' : Draft) : Prop where
  members : d.members.map PropertyInfo.fixed <+: d'.members.map PropertyInfo.fixed
  taken : d.taken <+: d'.taken
  findings : d.findings <+: d'.findings
  distinct : (d.members.map PropertyInfo.name).Nodup → (d'.members.map PropertyInfo.name).Nodup

theorem Later.refl (d : Draft) : d.Later d := ⟨List.prefix_rfl, List.prefix_rfl, List.prefix_rfl, id⟩

theorem Later.trans {d d₁ d₂ : Draft} (h : d.Later d₁) (h' : d₁.Later d₂) : d.Later d₂ :=
  ⟨h.members.trans h'.members, h.taken.trans h'.taken, h.findings.trans h'.findings, h'.distinct ∘ h.distinct⟩

/-- The properties of a draft have their names and setters in a later one. -/
theorem Later.resolve? {d d' : Draft} (h : d.Later d') {name : String} {id : PropertyId}
    (hid : d.members.resolve? name = some id) : d'.members.resolve? name = some id := by
  have hfixed (t : MemberTable) : t.resolve? name = (t.map PropertyInfo.fixed).findIdx? (·.name == name) := by
    rw [List.findIdx?_map]
    rfl
  rw [hfixed] at hid ⊢
  exact h.members.findIdx?_eq_some hid

theorem Later.find? {d d' : Draft} (h : d.Later d') {name : String} {i : PropertyInfo}
    (hi : d.members.find? name = some i) : ∃ i', d'.members.find? name = some i' ∧ i'.fixed = i.fixed := by
  have hfixed (t : MemberTable) :
      (t.map PropertyInfo.fixed).find? (·.name == name) = (t.find? name).map PropertyInfo.fixed := by
    rw [List.find?_map]
    rfl
  have hlater := h.members.find?_eq_some ((hfixed d.members).trans (congrArg _ hi))
  rw [hfixed] at hlater
  exact Option.map_eq_some_iff.mp hlater

/-- What was found about cycles so far. -/
def cycles (d : Draft) : List Finding := d.findings.filter (·.cause.isCycle)

/-- No property has the role of a derived value so far. -/
def Underived (d : Draft) : Prop := ∀ i ∈ d.members, ∀ id, i.role ≠ .derived id

/-- The names of all properties are taken. -/
def Listed (d : Draft) : Prop := ∀ i ∈ d.members, i.name ∈ d.taken.map Prod.fst

/-- The property has the role of a reactive one. -/
def Reacts (d : Draft) (id : PropertyId) : Prop := d.members[id]?.map PropertyInfo.role = some .mutable

/-- A draft at a later time, in which no other properties than these have become reactive, and nothing has been found
about cycles since. -/
structure Marked (ids : List PropertyId) (d d' : Draft) : Prop extends d.Later d' where
  cycles : d'.cycles = d.cycles
  underived : d.Underived → d'.Underived
  listed : d.Listed → d'.Listed
  reactive : ∀ id, d'.Reacts id → d.Reacts id ∨ id ∈ ids

theorem Marked.trans {ids ids' : List PropertyId} {d d₁ d₂ : Draft} (h : d.Marked ids d₁) (h' : d₁.Marked ids' d₂) :
    d.Marked (ids ++ ids') d₂ := by
  refine ⟨h.toLater.trans h'.toLater, h'.cycles.trans h.cycles, h'.underived ∘ h.underived, h'.listed ∘ h.listed,
    fun id hid => ?_⟩
  obtain hid | hid := h'.reactive id hid
  · exact (h.reactive id hid).imp_right (List.mem_append_left _)
  · exact Or.inr (List.mem_append_right _ hid)

/-- A draft at a later time, in which no property has become reactive. -/
abbrev Added (d d' : Draft) : Prop := d.Marked [] d'

theorem Added.refl (d : Draft) : d.Added d := ⟨.refl d, rfl, id, id, fun _ => Or.inl⟩

theorem Added.trans {d d₁ d₂ : Draft} (h : d.Added d₁) (h' : d₁.Added d₂) : d.Added d₂ := Marked.trans h h'

/-- A draft in which names have been taken and something has been found, but nothing about cycles. -/
structure Noted (d d' : Draft) : Prop where
  members : d'.members = d.members
  taken : d.taken <+: d'.taken
  findings : d.findings <+: d'.findings
  cycles : d'.cycles = d.cycles

theorem Noted.refl (d : Draft) : d.Noted d := ⟨rfl, List.prefix_rfl, List.prefix_rfl, rfl⟩

theorem Noted.trans {d d₁ d₂ : Draft} (h : d.Noted d₁) (h' : d₁.Noted d₂) : d.Noted d₂ :=
  ⟨h'.members.trans h.members, h.taken.trans h'.taken, h.findings.trans h'.findings, h'.cycles.trans h.cycles⟩

theorem Noted.added {d d' : Draft} (h : d.Noted d') : d.Added d' := by
  obtain ⟨hmembers, htaken, hfindings, hcycles⟩ := h
  refine ⟨⟨hmembers ▸ List.prefix_rfl, htaken, hfindings, fun hdistinct => hmembers ▸ hdistinct⟩, hcycles,
    fun hunderived i hi => hunderived i (hmembers ▸ hi), fun hlisted i hi => ?_, fun id hid => Or.inl ?_⟩
  · exact (htaken.map Prod.fst).subset (hlisted i (hmembers ▸ hi))
  · rwa [Reacts, hmembers] at hid

/-- What was found so far are warnings. -/
def Clean (d : Draft) : Prop := ∀ f ∈ d.findings, f.isWarning = true

/-- No name was found to be taken so far when a property or a command was to have it. -/
def Unrepeated (d : Draft) : Prop := ∀ f ∈ d.findings, f.code ≠ "RX0002"

theorem Later.unrepeated {d d' : Draft} (h : d.Later d') (hunrepeated : d'.Unrepeated) : d.Unrepeated :=
  fun f hf => hunrepeated f (h.findings.subset hf)

theorem Clean.unrepeated {d : Draft} (h : d.Clean) : d.Unrepeated := by
  intro f hf hcode
  have hwarning := h f hf
  rw [Finding.isWarning_of_code hcode] at hwarning
  cases hwarning

end Draft

namespace Drafting

variable {α β : Type}

/-- A step of the analysis that leaves the properties as they are, and does not find a cycle. -/
def Notes (x : Drafting α) : Prop := ∀ d : Draft, d.Noted (x d).2

/-- A step of the analysis that only adds, and does not find a cycle. -/
def Adds (x : Drafting α) : Prop := ∀ d : Draft, d.Added (x d).2

theorem run_bind (x : Drafting α) (f : α → Drafting β) (d : Draft) : (x >>= f) d = f (x d).1 (x d).2 := rfl

theorem run_get_bind (f : Draft → Drafting β) (d : Draft) : (get >>= f) d = f d d := rfl

/-- What a step gives goes with the draft that it leaves. -/
def Yields (x : Drafting α) (d : Draft) (P : α → Draft → Prop) : Prop := P (x d).1 (x d).2

theorem Yields.of_eq {x : Drafting α} {d d' : Draft} {P : α → Draft → Prop} {a : α} (h : Yields x d P)
    (heq : x d = (a, d')) : P a d' := by
  unfold Yields at h
  rwa [heq] at h

theorem Yields.intro {x : Drafting α} {d d' : Draft} {P : α → Draft → Prop} {a : α} (heq : x d = (a, d'))
    (h : P a d') : Yields x d P := by
  unfold Yields
  rwa [heq]

/-- What follows a step may rely on what the step gives, and on the draft being later. -/
theorem Yields.bind {x : Drafting α} {f : α → Drafting β} {d : Draft} {Q : α → Draft → Prop} {P : β → Draft → Prop}
    (hx : Yields x d Q) (hf : ∀ a d', Q a d' → Yields (f a) d' P) : Yields (x >>= f) d P := hf _ _ hx

theorem Yields.imp {x : Drafting α} {d : Draft} {P Q : α → Draft → Prop} (h : Yields x d P)
    (himp : ∀ a d', P a d' → Q a d') : Yields x d Q := himp _ _ h

theorem Yields.and {x : Drafting α} {d : Draft} {P Q : α → Draft → Prop} (hP : Yields x d P) (hQ : Yields x d Q) :
    Yields x d fun a d' => P a d' ∧ Q a d' := ⟨hP, hQ⟩

theorem Yields.and_later {x : Drafting α} {d : Draft} {P : α → Draft → Prop} (h : Yields x d P) (hx : Adds x) :
    Yields x d fun a d' => P a d' ∧ d.Later d' := ⟨h, (hx d).toLater⟩

theorem Notes.adds {x : Drafting α} (hx : Notes x) : Adds x := fun d => (hx d).added

theorem Notes.yields {x : Drafting α} (hx : Notes x) (d : Draft) : Yields x d fun _ d' => d.Later d' := (hx.adds d).toLater

theorem notes_pure (a : α) : Notes (pure a : Drafting α) := fun d => .refl d

theorem notes_get : Notes (get : Drafting Draft) := fun d => .refl d

theorem Notes.bind {x : Drafting α} {f : α → Drafting β} (hx : Notes x) (hf : ∀ a, Notes (f a)) : Notes (x >>= f) :=
  fun d => (hx d).trans (hf _ _)

theorem Adds.bind {x : Drafting α} {f : α → Drafting β} (hx : Adds x) (hf : ∀ a, Adds (f a)) : Adds (x >>= f) :=
  fun d => (hx d).trans (hf _ _)

/-- A step that adds to a draft, before another step that adds. -/
theorem added_bind {x : Drafting α} {f : α → Drafting β} {d : Draft} (hx : d.Added (x d).2) (hf : ∀ a, Adds (f a)) :
    d.Added ((x >>= f) d).2 := hx.trans (hf _ _)

theorem later_bind {x : Drafting α} {f : α → Drafting β} {d : Draft} (hx : d.Later (x d).2) (hf : ∀ a, Adds (f a)) :
    d.Later ((x >>= f) d).2 := hx.trans (hf _ _).toLater

theorem notes_report (cause : FindingCause) (span : Span) (hcause : cause.isCycle = false) :
    Notes (report cause span) := by
  refine fun d => ⟨rfl, List.prefix_rfl, List.prefix_append _ _, ?_⟩
  show (d.findings ++ [Finding.mk cause span]).filter (·.cause.isCycle) = d.findings.filter (·.cause.isCycle)
  rw [List.filter_append, List.filter_cons_of_neg (by simp [hcause]), List.filter_nil, List.append_nil]

theorem notes_reject (cause : FindingCause) (span : Span) (hcause : cause.isCycle = false) :
    Notes (reject cause span : Drafting (Option α)) := (notes_report cause span hcause).bind fun _ => notes_pure none

theorem notes_resolve (name : String) : Notes (resolve name) := fun d => .refl d

/-! ### Taking names -/

/-- Either all names were free and are taken now, or nothing has changed. -/
theorem claimAll_cases (names : List String) (span : Span) (d : Draft) :
    (∃ conflict, claimAll names span d = (some conflict, d)) ∨
      ((∀ n ∈ names, n ∉ d.taken.map Prod.fst) ∧
        claimAll names span d = (none, { d with taken := d.taken ++ names.map (·, span) })) := by
  unfold claimAll
  rw [run_get_bind]
  cases h : names.findSome? (fun n => (d.taken.lookup n).map fun owner => (n, owner)) with
  | some conflict => exact Or.inl ⟨conflict, rfl⟩
  | none =>
    refine Or.inr ⟨fun n hn hmem => ?_, rfl⟩
    have hnone := List.findSome?_eq_none_iff.mp h n hn
    have hlookup := List.lookup_eq_none_iff.mp (Option.map_eq_none_iff.mp hnone)
    obtain ⟨e, he, rfl⟩ := List.mem_map.mp hmem
    simpa using hlookup e he

theorem claim_eq (name : String) (span : Span) (d : Draft) :
    claim name span d = ((claimAll [name] span d).1.map Prod.snd, (claimAll [name] span d).2) := rfl

/-- Either the name was free and is taken now, or nothing has changed. -/
theorem claim_cases (name : String) (span : Span) (d : Draft) :
    (∃ owner, claim name span d = (some owner, d)) ∨
      (name ∉ d.taken.map Prod.fst ∧ claim name span d = (none, { d with taken := d.taken ++ [(name, span)] })) := by
  rw [claim_eq]
  obtain ⟨conflict, h⟩ | ⟨hfree, h⟩ := claimAll_cases [name] span d
  · exact Or.inl ⟨conflict.2, by rw [h]; rfl⟩
  · exact Or.inr ⟨hfree name List.mem_cons_self, by rw [h]; rfl⟩

theorem notes_claimAll (names : List String) (span : Span) : Notes (claimAll names span) := by
  intro d
  obtain ⟨conflict, h⟩ | ⟨-, h⟩ := claimAll_cases names span d
  · rw [h]
    exact .refl d
  · rw [h]
    exact ⟨rfl, List.prefix_append _ _, List.prefix_rfl, rfl⟩

theorem notes_claim (name : String) (span : Span) : Notes (claim name span) :=
  (notes_claimAll [name] span).bind fun _ => notes_pure _

/-! ### Properties -/

/-- Either the property is the last one now, or there was one of the name and nothing has changed. -/
theorem addProperty_cases (info : PropertyInfo) (d : Draft) :
    (∃ earlier, d.members.find? info.name = some earlier ∧ addProperty info d = (.error earlier.span, d)) ∨
      (info.name ∉ d.members.map PropertyInfo.name ∧
        addProperty info d = (.ok d.members.length, { d with members := d.members ++ [info] })) := by
  unfold addProperty
  rw [run_get_bind]
  cases h : d.members.find? info.name with
  | some existing => exact Or.inl ⟨existing, rfl, rfl⟩
  | none =>
    refine Or.inr ⟨fun hmem => ?_, rfl⟩
    obtain ⟨i, hi, hname⟩ := List.mem_map.mp hmem
    have := List.find?_eq_none.mp h i hi
    exact this (by simp [hname])

theorem later_addProperty (info : PropertyInfo) (d : Draft) : d.Later (addProperty info d).2 := by
  obtain ⟨earlier, -, h⟩ | ⟨hfree, h⟩ := addProperty_cases info d
  · rw [h]
    exact .refl d
  · rw [h]
    refine ⟨?_, List.prefix_rfl, List.prefix_rfl, fun hdistinct => ?_⟩
    · rw [List.map_append]
      exact List.prefix_append _ _
    · rw [List.map_append]
      exact List.nodup_append.mpr ⟨hdistinct, List.nodup_singleton _, fun a ha b hb => by
        rintro rfl
        exact hfree (List.mem_singleton.mp hb ▸ ha)⟩

/-- A property whose name is taken is added. -/
theorem added_addProperty {info : PropertyInfo} (hrole : info.role = .plain) {d : Draft}
    (htaken : info.name ∈ d.taken.map Prod.fst) : d.Added (addProperty info d).2 := by
  have hlater := later_addProperty info d
  obtain ⟨earlier, -, h⟩ | ⟨-, h⟩ := addProperty_cases info d
  · rw [h]
    exact .refl d
  · rw [h] at hlater ⊢
    refine ⟨hlater, rfl, fun hunderived i hi => ?_, fun hlisted i hi => ?_, fun id hid => Or.inl ?_⟩
    · obtain hi | hi := List.mem_append.mp hi
      · exact hunderived i hi
      · rw [List.mem_singleton.mp hi, hrole]
        exact nofun
    · obtain hi | hi := List.mem_append.mp hi
      · exact hlisted i hi
      · exact List.mem_singleton.mp hi ▸ htaken
    · obtain ⟨i, hi, hrole'⟩ := Option.map_eq_some_iff.mp hid
      rw [List.getElem?_append] at hi
      split at hi
      · exact Option.map_eq_some_iff.mpr ⟨i, hi, hrole'⟩
      · rw [List.mem_singleton.mp (List.mem_of_getElem? hi), hrole] at hrole'
        cases hrole'

theorem map_modify_of_eq {γ δ : Type} {f : δ → δ} {g : δ → γ} (h : ∀ i, g (f i) = g i) :
    ∀ (is : List δ) (n : Nat), (is.modify n f).map g = is.map g
  | [], n => by cases n <;> rfl
  | i :: is, 0 => by simp [h]
  | i :: is, n + 1 => by simp [map_modify_of_eq h is n]

theorem later_setRole (id : PropertyId) (role : PropertyRole) (d : Draft) : d.Later (setRole id role d).2 := by
  have hfixed : (d.members.setRole id role).map PropertyInfo.fixed = d.members.map PropertyInfo.fixed :=
    map_modify_of_eq (f := fun info : PropertyInfo => { info with role := role }) (fun _ => rfl) _ _
  have hname : (d.members.setRole id role).map PropertyInfo.name = d.members.map PropertyInfo.name :=
    map_modify_of_eq (f := fun info : PropertyInfo => { info with role := role }) (fun _ => rfl) _ _
  refine ⟨hfixed ▸ List.prefix_rfl, List.prefix_rfl, List.prefix_rfl, fun h => ?_⟩
  show ((d.members.setRole id role).map PropertyInfo.name).Nodup
  rwa [hname]

theorem mem_of_mem_modify {δ : Type} {f : δ → δ} {is : List δ} {n : Nat} {i : δ} (h : i ∈ is.modify n f) :
    ∃ j ∈ is, i = j ∨ i = f j := by
  obtain ⟨k, hk⟩ := List.mem_iff_getElem?.mp h
  rw [List.getElem?_modify] at hk
  obtain ⟨j, hj, rfl⟩ := Option.map_eq_some_iff.mp hk
  refine ⟨j, List.mem_of_getElem? hj, ?_⟩
  by_cases hn : n = k <;> simp [hn]

/-- A property with another role is one of before. -/
theorem mem_setRole {t : MemberTable} {id : PropertyId} {role : PropertyRole} {i : PropertyInfo}
    (h : i ∈ t.setRole id role) : ∃ j ∈ t, i = j ∨ i = { j with role } := mem_of_mem_modify h

theorem listed_setRole {id : PropertyId} {role : PropertyRole} {d : Draft} (h : d.Listed) :
    (setRole id role d).2.Listed := by
  intro i hi
  obtain ⟨j, hj, heq | heq⟩ := mem_setRole hi <;> rw [heq] <;> exact h j hj

/-- A property becomes reactive. -/
theorem marked_setRole (id : PropertyId) (d : Draft) : d.Marked [id] (setRole id .mutable d).2 := by
  refine ⟨later_setRole id .mutable d, rfl, fun h i hi => ?_, listed_setRole, fun id' hid' => ?_⟩
  · obtain ⟨j, hj, heq | heq⟩ := mem_setRole hi
    · exact heq ▸ h j hj
    · rw [heq]
      exact nofun
  · by_cases hid : id = id'
    · exact Or.inr (hid ▸ List.mem_singleton_self id)
    · have hother : (setRole id .mutable d).2.members[id']? = d.members[id']? := List.getElem?_modify_ne _ _ hid
      rw [Draft.Reacts, hother] at hid'
      exact Or.inl hid'

/-! ### Steps of the analysis -/

theorem later_declare (m : MemberDecl) (d : Draft) : d.Later (declare m d).2 := by
  unfold declare
  cases m.kind with
  | method decl => exact .refl d
  | property p =>
    refine later_bind (later_addProperty _ d) fun result => ?_
    split
    · exact Notes.adds <| notes_report _ _ rfl
    · exact Notes.adds <| notes_pure _

/-- A member whose name is taken is declared. -/
theorem added_declare {m : MemberDecl} {d : Draft} (htaken : m.name ∈ d.taken.map Prod.fst) :
    d.Added (declare m d).2 := by
  unfold declare
  cases m.kind with
  | method decl => exact .refl d
  | property p =>
    refine added_bind (added_addProperty rfl htaken) fun result => ?_
    split
    · exact Notes.adds <| notes_report _ _ rfl
    · exact Notes.adds <| notes_pure _

theorem added_declareAll : ∀ {ms : List MemberDecl} {d : Draft}, (∀ m ∈ ms, m.name ∈ d.taken.map Prod.fst) →
    d.Added (ms.forM declare d).2
  | [], d, _ => .refl d
  | m :: ms, d, htaken => by
    have hm := added_declare (htaken m List.mem_cons_self)
    refine hm.trans (added_declareAll fun n hn => ?_)
    exact (hm.taken.map Prod.fst).subset (htaken n (List.mem_cons_of_mem _ hn))

theorem notes_mutableProperty (m : MemberDecl) (a : Annotation) : Notes (mutableProperty m a) := by
  unfold mutableProperty
  split
  · exact notes_reject _ _ rfl
  · split
    · exact notes_reject _ _ rfl
    · split
      · exact notes_reject _ _ rfl
      · refine notes_get.bind fun d => ?_
        dsimp only
        split
        · exact notes_pure _
        · split
          · exact notes_pure _
          · refine (notes_claimAll _ _).bind fun conflict => ?_
            split
            · exact notes_reject _ _ rfl
            · exact notes_pure _

/-- Exactly the properties that reactive ones are made of become reactive. -/
theorem yields_mutableProperties_marked : ∀ (records : List (MemberDecl × List Annotation)) (d : Draft),
    Yields (mutableProperties records) d fun ps d' => d.Marked (ps.map MutableProperty.id) d'
  | [], d => Draft.Added.refl d
  | (m, annotations) :: rest, d => by
    have hskip {d₁ : Draft} (h : d.Added d₁) :
        Yields (mutableProperties rest) d₁ fun ps d' => d.Marked (ps.map MutableProperty.id) d' :=
      (yields_mutableProperties_marked rest d₁).imp fun _ _ h' => Draft.Marked.trans h h'
    unfold mutableProperties
    split
    · exact hskip (.refl d)
    · refine Yields.bind (Q := fun _ d₁ => d.Added d₁) (notes_mutableProperty m _ d).added fun result d₁ h₁ => ?_
      split
      · exact hskip h₁
      · rename_i p
        refine Yields.bind (Q := fun _ d₂ => d₁.Marked [p.id] d₂) (marked_setRole p.id d₁) fun _ d₂ h₂ => ?_
        exact (yields_mutableProperties_marked rest d₂).bind fun ps d₃ h₃ => (Draft.Marked.trans h₁ h₂).trans h₃

theorem notes_bindEnablement (command : String) (a : Annotation) (name : String) :
    Notes (bindEnablement command a name) := by
  refine notes_get.bind fun d => ?_
  dsimp only
  split
  · split
    · exact notes_reject _ _ rfl
    · split
      · exact notes_reject _ _ rfl
      · exact notes_pure _
  · exact notes_reject _ _ rfl

theorem notes_command (m : MemberDecl) (a : Annotation) : Notes (command m a) := by
  unfold command
  split
  · exact notes_reject _ _ rfl
  · split
    · exact notes_reject _ _ rfl
    · refine (notes_claim _ _).bind fun earlier => ?_
      split
      · exact notes_reject _ _ rfl
      · refine (notes_claim _ _).bind fun existing => ?_
        split
        · exact notes_reject _ _ rfl
        · dsimp only
          split
          · exact (notes_bindEnablement _ _ _).bind fun _ => notes_pure _
          · exact notes_pure _

theorem notes_commands : ∀ records : List (MemberDecl × List Annotation), Notes (commands records)
  | [] => notes_pure _
  | (m, annotations) :: rest => by
    unfold commands
    split
    · exact notes_commands rest
    · refine (notes_command m _).bind fun result => ?_
      split
      · exact (notes_commands rest).bind fun _ => notes_pure _
      · exact notes_commands rest

theorem notes_localeBinding (m : MemberDecl) (a : Annotation) : Notes (localeBinding m a) := by
  unfold localeBinding
  split
  · exact notes_reject _ _ rfl
  · split
    · exact notes_reject _ _ rfl
    · split
      · refine (notes_resolve _).bind fun key => ?_
        split
        · exact notes_reject _ _ rfl
        · refine (notes_resolve _).bind fun target => ?_
          split <;> exact notes_pure _
      · exact notes_reject _ _ rfl

theorem notes_localeGroups : ∀ (records : List (MemberDecl × List Annotation)) (groups : List LocaleGroup),
    Notes (localeGroups records groups)
  | [], _ => notes_pure _
  | (m, annotations) :: rest, groups => by
    unfold localeGroups
    split
    · exact notes_localeGroups rest groups
    · refine (notes_localeBinding m _).bind fun result => ?_
      split
      · exact notes_localeGroups rest _
      · exact notes_localeGroups rest groups

/-! ### Derived values -/

theorem notes_stagedBody (m : MemberDecl) (body : Expr) : Notes (stagedBody m body) := by
  unfold stagedBody
  split
  · split
    · exact notes_reject _ _ rfl
    · split
      · exact notes_reject _ _ rfl
      · exact notes_pure _
  · split
    · exact notes_reject _ _ rfl
    · exact notes_pure _

theorem notes_propertyTarget (m : MemberDecl) (p : PropertyDecl) (a : Annotation) (cache : CachePolicy) :
    Notes (propertyTarget m p a cache) := by
  unfold propertyTarget
  split
  · exact notes_reject _ _ rfl
  · split
    · exact notes_reject _ _ rfl
    · refine (notes_resolve _).bind fun id => ?_
      split
      · exact notes_pure _
      · split
        · refine (notes_stagedBody _ _).bind fun result => ?_
          split <;> exact notes_pure _
        · split
          · exact notes_reject _ _ rfl
          · exact notes_pure _

theorem adds_methodTarget (m : MemberDecl) (d : MethodDecl) (a : Annotation) : Adds (methodTarget m d a) := by
  unfold methodTarget
  split
  · exact Notes.adds <| notes_reject _ _ rfl
  · rename_i exposed _
    split
    · exact Notes.adds <| notes_reject _ _ rfl
    · split
      · exact Notes.adds <| notes_reject _ _ rfl
      · intro d₀
        have hclaim := (notes_claim exposed a.span).adds d₀
        rw [run_bind]
        obtain ⟨owner, h⟩ | ⟨-, h⟩ := claim_cases exposed a.span d₀
        · rw [h]
          exact Notes.adds (notes_reject _ _ rfl) d₀
        · -- The name of the property that is added has just been taken.
          rw [h] at hclaim ⊢
          have htaken : exposed ∈ (d₀.taken ++ [(exposed, a.span)]).map Prod.fst := by simp
          refine hclaim.trans (added_bind (added_addProperty rfl htaken) fun result => ?_)
          split
          · exact Notes.adds <| notes_reject _ _ rfl
          · exact Notes.adds <| notes_pure _

theorem notes_cacheSlot (m : MemberDecl) (name : String) (cache : CachePolicy) : Notes (cacheSlot m name cache) := by
  unfold cacheSlot
  split
  · exact notes_pure _
  · refine (notes_claimAll _ _).bind fun conflict => ?_
    split
    · exact notes_reject _ _ rfl
    · exact notes_pure _

theorem notes_claimFunction (m : MemberDecl) (name : String) (recompute : Option StagedRecompute) :
    Notes (claimFunction m name recompute) := by
  unfold claimFunction
  split
  · refine (notes_claim _ _).bind fun existing => ?_
    split
    · exact (notes_report _ _ rfl).bind fun _ => notes_pure _
    · exact notes_pure _
  · exact notes_pure _

theorem notes_resolveSources (name : String) (a : Annotation) : ∀ (names : List String) (sources : List PropertyId),
    Notes (resolveSources name a names sources)
  | [], _ => notes_pure _
  | source :: rest, sources => by
    unfold resolveSources
    refine (notes_resolve _).bind fun id => ?_
    split
    · exact notes_resolveSources name a rest _
    · exact (notes_report _ _ rfl).bind fun _ => notes_resolveSources name a rest sources

theorem notes_checkReads (name : String) (declared : List String) : ∀ reads : List Expr.Read,
    Notes (checkReads name declared reads)
  | [] => notes_pure _
  | read :: rest => by
    have hrest := notes_checkReads name declared rest
    unfold checkReads
    dsimp only
    split
    · exact hrest
    · refine (notes_resolve _).bind fun id => ?_
      split
      · exact (notes_report _ _ rfl).bind fun _ => hrest
      · exact hrest

/-- The names and the sources of a derived value, once it is known what it is. -/
def stageTarget (m : MemberDecl) (a : Annotation) (cache : CachePolicy) (notifies : Bool) (t : Target) :
    Drafting (Option Staged) := do
  match ← cacheSlot m t.name cache with
  | none => return none
  | some slot => do
    if !(← claimFunction m t.name t.recompute) then return none
    let declared := a.strings "Sources"
    let sources ← resolveSources t.name a declared []
    checkReads t.name declared t.reads
    return some ⟨t.property, t.name, t.type, t.origin, t.recompute, cache, notifies, slot, sources, m.nameSpan⟩

theorem notes_stageTarget (m : MemberDecl) (a : Annotation) (cache : CachePolicy) (notifies : Bool) (t : Target) :
    Notes (stageTarget m a cache notifies t) := by
  unfold stageTarget
  refine (notes_cacheSlot _ _ _).bind fun slot => ?_
  split
  · exact notes_pure _
  · refine (notes_claimFunction _ _ _).bind fun free => ?_
    split
    · exact notes_pure _
    · exact (notes_resolveSources _ _ _ _).bind fun _ => (notes_checkReads _ _ _).bind fun _ => notes_pure _

/-- What a derived member is, with the caching that its annotation asks for. -/
def derivedTarget (m : MemberDecl) (a : Annotation) (cache : CachePolicy) : Drafting (Option Target) :=
  match m.kind with
  | .property p => propertyTarget m p a cache
  | .method d => methodTarget m d a

theorem adds_derivedTarget (m : MemberDecl) (a : Annotation) (cache : CachePolicy) : Adds (derivedTarget m a cache) := by
  unfold derivedTarget
  split
  · exact (notes_propertyTarget _ _ _ _).adds
  · exact adds_methodTarget _ _ _

/-- A derived member is staged in two steps, with a warning in between if the annotation asks for too much. -/
theorem stageDerived_eq (m : MemberDecl) (a : Annotation) : ∃ (cache : CachePolicy) (notifies ignored : Bool),
    stageDerived m a = (do
      match ← derivedTarget m a cache with
      | none => return none
      | some t => do
        if ignored then report (.ignoredInitialNotification t.name) a.span
        stageTarget m a cache notifies t) := by
  let cache := ((a.constant? "CacheMode").bind CachePolicy.ofName?).getD .eager
  let notifies := a.bool "NotifyOnInitialValue" false
  let ignored := cache = .lazy && notifies
  refine ⟨cache, notifies && !ignored, ignored, ?_⟩
  unfold stageDerived derivedTarget
  cases m.kind <;> rfl

theorem adds_stageDerived (m : MemberDecl) (a : Annotation) : Adds (stageDerived m a) := by
  obtain ⟨cache, notifies, ignored, heq⟩ := stageDerived_eq m a
  rw [heq]
  refine (adds_derivedTarget m a cache).bind fun target => ?_
  split
  · exact Notes.adds <| notes_pure _
  · split
    · exact Notes.adds <| (notes_report _ _ rfl).bind fun _ => notes_stageTarget _ _ _ _ _
    · exact (notes_stageTarget _ _ _ _ _).adds

theorem notes_stageObservable (m : MemberDecl) (a : Annotation) : Notes (stageObservable m a) := by
  unfold stageObservable
  split
  · exact notes_reject _ _ rfl
  · split
    · exact notes_reject _ _ rfl
    · exact notes_reject _ _ rfl
    · split
      · exact notes_reject _ _ rfl
      · refine (notes_resolve _).bind fun id => ?_
        split
        · exact notes_pure _
        · refine (notes_claim _ _).bind fun existing => ?_
          split
          · exact notes_reject _ _ rfl
          · exact notes_pure _

theorem adds_stageMember (m : MemberDecl) (annotations : List Annotation) : Adds (stageMember m annotations) := by
  unfold stageMember
  split
  · exact Notes.adds <| notes_reject _ _ rfl
  · exact adds_stageDerived _ _
  · exact (notes_stageObservable _ _).adds
  · exact Notes.adds <| notes_pure _

theorem adds_stageAll : ∀ records : List (MemberDecl × List Annotation), Adds (stageAll records)
  | [] => (notes_pure _).adds
  | (m, annotations) :: rest => by
    unfold stageAll
    refine (adds_stageMember m annotations).bind fun staged => ?_
    split
    · exact (adds_stageAll rest).bind fun _ => (notes_pure _).adds
    · exact adds_stageAll rest

theorem notes_announce (c : ClassDecl) (m : MemberDecl) (a : Annotation) (source : PropertyId) (staged : List Staged)
    (target : String) : Notes (announce c m a source staged target) := by
  unfold announce
  refine notes_get.bind fun d => ?_
  dsimp only
  split
  · exact (notes_report _ _ rfl).bind fun _ => notes_pure _
  · split
    · split
      · exact (notes_report _ _ rfl).bind fun _ => notes_pure _
      · split <;> exact notes_pure _
    · split
      · exact notes_pure _
      · split
        · exact (notes_report _ _ rfl).bind fun _ => notes_pure _
        · exact notes_pure _

theorem notes_foldlM {γ δ : Type} {f : γ → δ → Drafting γ} (h : ∀ y x, Notes (f y x)) : ∀ (xs : List δ) (y : γ),
    Notes (xs.foldlM f y)
  | [], _ => notes_pure _
  | x :: xs, y => (h y x).bind fun _ => notes_foldlM h xs _

theorem notes_mergeAnnouncements (c : ClassDecl) (m : MemberDecl) (a : Annotation) (staged : List Staged) :
    Notes (mergeAnnouncements c m a staged) := by
  have hreport : Notes (do
      report (.invalidArguments a.kind.text m.name (.propertiesOnly .notifyFor)) a.span
      return staged : Drafting (List Staged)) := (notes_report _ _ rfl).bind fun _ => notes_pure _
  unfold mergeAnnouncements
  split
  · refine (notes_resolve _).bind fun source => ?_
    cases source with
    | none => exact hreport
    | some id => exact notes_foldlM (fun _ _ => notes_announce _ _ _ _ _ _) _ _
  · exact hreport

theorem notes_mergeAll (c : ClassDecl) : ∀ (records : List (MemberDecl × List Annotation)) (staged : List Staged),
    Notes (mergeAll c records staged)
  | [], _ => notes_pure _
  | (m, annotations) :: rest, staged => by
    unfold mergeAll
    split
    · exact (notes_mergeAnnouncements _ _ _ _).bind fun _ => notes_mergeAll c rest _
    · exact notes_mergeAll c rest staged

/-- The properties of derived values have the numbers of these, the others stay as they are. -/
theorem yields_setDerivedRoles : ∀ (staged : List Staged) (id : DerivedId) (d : Draft),
    Yields (setDerivedRoles id staged) d fun _ d' => d.Later d' ∧ d'.findings = d.findings ∧ (d.Listed → d'.Listed) ∧
      (∀ s, (∀ t ∈ staged, t.property ≠ s) → d'.members[s]? = d.members[s]?) ∧
        ((staged.map Staged.property).Nodup → ∀ j t, staged[j]? = some t → ∀ i, d.members[t.property]? = some i →
          d'.members[t.property]?.map PropertyInfo.role = some (.derived (id + j)))
  | [], _, d => ⟨.refl d, rfl, fun h => h, fun _ _ => rfl, fun _ _ _ hj => nomatch hj⟩
  | t :: rest, id, d => by
    refine Yields.bind (Q := fun _ d₁ => d₁ = (setRole t.property (.derived id) d).2) rfl ?_
    rintro _ _ rfl
    refine (yields_setDerivedRoles rest (id + 1) _).imp ?_
    rintro _ d' ⟨hlater, hfindings, hlisted, hothers, hroles⟩
    have hone (s : PropertyId) : (setRole t.property (.derived id) d).2.members[s]? =
        (fun i : PropertyInfo => if t.property = s then { i with role := .derived id } else i) <$> d.members[s]? :=
      List.getElem?_modify ..
    refine ⟨(later_setRole _ _ d).trans hlater, hfindings, hlisted ∘ listed_setRole, fun s hs => ?_,
      fun hnodup j u hj i hi => ?_⟩
    · rw [hothers s fun u hu => hs u (List.mem_cons_of_mem _ hu), hone]
      simp [hs t List.mem_cons_self]
    · rw [List.map_cons, List.nodup_cons] at hnodup
      cases j with
      | zero =>
        cases hj
        rw [hothers t.property fun u hu heq => hnodup.1 (heq ▸ List.mem_map_of_mem hu), hone, hi]
        simp
      | succ j =>
        obtain ⟨i', hi'⟩ : ∃ i', (setRole t.property (.derived id) d).2.members[u.property]? = some i' := by
          rw [hone, hi]
          exact ⟨_, rfl⟩
        rw [hroles hnodup.2 j u hj i' hi', Nat.add_right_comm, Nat.add_assoc]

/-- A loop that reports what is found about the elements of a list. -/
theorem forIn_report {γ : Type} (find : γ → Option Finding) : ∀ (xs : List γ) (d : Draft),
    (forIn xs PUnit.unit fun x _ =>
      match find x with
      | some finding => do
        report finding.cause finding.span
        pure (ForInStep.yield PUnit.unit)
      | _ => pure (ForInStep.yield PUnit.unit) : Drafting PUnit) d =
    (.unit, { d with findings := d.findings ++ xs.filterMap find })
  | [], d => by
    rw [List.forIn_nil, List.filterMap_nil, List.append_nil]
    rfl
  | x :: xs, d => by
    rw [List.forIn_cons, run_bind, List.filterMap_cons]
    cases find x with
    | none => exact forIn_report find xs d
    | some finding =>
      refine (forIn_report find xs { d with findings := d.findings ++ [finding] }).trans ?_
      rw [List.append_assoc]
      rfl

end Drafting

end Reactive
