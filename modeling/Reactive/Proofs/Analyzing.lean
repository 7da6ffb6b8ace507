import Mathlib.Control.Traversable.Basic
import Mathlib.Data.List.Forall2
import Reactive.Proofs.Announcing
import Reactive.Proofs.Commands
import Reactive.Proofs.Cycles

/-!
# Reactive.Proofs.Analyzing — what the model of a class is like

* `ClassModel.Analyzed`: where the parts of a model are written in the class, and which generated names are not declared.
* `ClassModel.Orderly`: if no name is found to be taken, properties and derived values have names of their own, and no
  derived value is computed from itself.
* `ClassModel.Built`: the derived values are the staged ones that are kept, and every cycle is reported.
-/

namespace Reactive

/-- A reactive property is declared with a setter, and the method that stores it is not declared. -/
structure MutableProperty.Fits (c : ClassDecl) (p : MutableProperty) : Prop where
  declared : ∃ m ∈ c.members, m.name = p.name ∧ ∃ decl, m.kind = .property decl ∧ decl.setter.isSome
  own : Naming.raiseAndSet p.name ∉ c.names
  slot : p.slot = Naming.slot p.name

/-- What a derived value is computed from is written in the class, projections being hoisted. -/
inductive Recompute.WrittenIn (c : ClassDecl) (statics : List HoistedFunction) : Recompute → Prop
  | getter {name : String} {body : Expr} (declared : c.HasGetter name body) (flat : body.staticProjection? = none) :
    WrittenIn c statics (.inline body)
  | helper {name : String} {body : Expr} (declared : c.HasGetter name body) : WrittenIn c statics (.inline body.helper)
  | projection {name : String} {body : Expr} {id : Nat} {f : HoistedFunction} (declared : c.HasGetter name body)
    (hoisted : statics[id]? = some f) (projects : body.staticProjection? = some (f.param, f.body)) :
    WrittenIn c statics (.hoisted id)
  | method {name : String} (declared : c.HasMethod name) : WrittenIn c statics (.method name)

/-- A derived value goes with its class. -/
structure DerivedProperty.Fits (c : ClassDecl) (statics : List HoistedFunction) (d : DerivedProperty) : Prop where
  written : ∀ r, d.recompute = some r → r.WrittenIn c statics
  cached : d.cache.isCached = true → d.slot.isSome ∧ d.recompute.isSome
  uncached : d.cache.isCached = false → d.slot = none
  lazy : ∀ slot, d.slot = some slot → (slot.flag.isSome ↔ d.cache = .lazy)
  named : ∀ slot, d.slot = some slot → slot.Named d.name
  helper : d.isObservable = true → d.sources = []
  own : d.isObservable = false → d.cache.isCached = true → Naming.recompute d.name ∉ c.names

/-- What a derived value is computed from, when projections are hoisted. -/
inductive Recompute.Of (statics : List HoistedFunction) : Option StagedRecompute → Option Recompute → Prop
  | none : Of statics none none
  | inline (body : Expr) : Of statics (some (.inline body)) (some (.inline body))
  | method (name : String) : Of statics (some (.method name)) (some (.method name))
  | projection {id : Nat} {f : HoistedFunction} (hoisted : statics[id]? = some f) :
    Of statics (some (.projection f.param f.body f.name)) (some (.hoisted id))

/-- The derived value that a staged one becomes. -/
structure DerivedProperty.Of (statics : List HoistedFunction) (d : DerivedProperty) (s : Staged) : Prop where
  property : d.property = s.property
  name : d.name = s.name
  origin : d.origin = s.origin
  cache : d.cache = s.cache
  slot : d.slot = s.slot
  sources : d.sources = s.sources
  recompute : Recompute.Of statics s.recompute d.recompute

theorem DerivedProperty.Of.mono {statics : List HoistedFunction} {d : DerivedProperty} {s : Staged}
    (h : d.Of statics s) (fs : List HoistedFunction) : d.Of (statics ++ fs) s := by
  obtain ⟨hproperty, hname, horigin, hcache, hslot, hsources, hrecompute⟩ := h
  refine ⟨hproperty, hname, horigin, hcache, hslot, hsources, ?_⟩
  generalize d.recompute = r, s.recompute = sr at hrecompute ⊢
  cases hrecompute with
  | none => exact .none
  | inline body => exact .inline body
  | method name => exact .method name
  | projection hoisted => exact .projection (List.getElem?_append_left (List.getElem?_eq_some_iff.mp hoisted).1 ▸ hoisted)

theorem DerivedProperty.Of.isSome_recompute {statics : List HoistedFunction} {d : DerivedProperty} {s : Staged}
    (h : d.Of statics s) : d.recompute.isSome = s.recompute.isSome := by
  have hrecompute := h.recompute
  generalize d.recompute = r, s.recompute = sr at hrecompute ⊢
  cases hrecompute <;> rfl

/-- What a staged value is computed from stays written in the class when it is hoisted. -/
theorem DerivedProperty.Of.fits {c : ClassDecl} {statics : List HoistedFunction} {d : DerivedProperty} {s : Staged}
    (h : d.Of statics s) (hs : s.Fits c) : d.Fits c statics := by
  have hsome := h.isSome_recompute
  obtain ⟨-, hname, horigin, hcache, hslot, hsources, hrecompute⟩ := h
  obtain ⟨hwritten, hcached, huncached, hlazy, hnamed, hhelper, hown, -⟩ := hs
  refine ⟨fun r hr => ?_, ?_, ?_, ?_, ?_, fun ho => ?_, fun ho => ?_⟩
  · rw [hr] at hrecompute
    generalize hsr : s.recompute = sr at hrecompute
    cases hrecompute with
    | inline body =>
      cases hwritten _ hsr with
      | getter declared flat => exact .getter declared flat
      | helper declared => exact .helper declared
    | method name =>
      cases hwritten _ hsr with
      | method declared => exact .method declared
    | projection hoisted =>
      cases hwritten _ hsr with
      | projection declared projects => exact .projection declared hoisted projects
  · rw [hcache, hslot, hsome]
    exact hcached
  · rw [hcache, hslot]
    exact huncached
  · rw [hcache, hslot]
    exact hlazy
  · rw [hslot, hname]
    exact hnamed
  · rw [hsources]
    exact hhelper (horigin ▸ of_decide_eq_true ho)
  · rw [hcache, hname]
    exact hown (horigin ▸ of_decide_eq_false ho)

namespace DerivedSection

/-- One more staged value is one more derived value, and one more function if it is projected. -/
theorem add_eq (section_ : DerivedSection) (s : Staged) : ∃ d fs,
    section_.add s = { section_ with derived := section_.derived ++ [d], statics := section_.statics ++ fs } ∧
      d.Of (section_.statics ++ fs) s ∧
      fs.map (fun f => f.name) = s.function?.toList ∧
      ∀ f ∈ fs, ∃ function, s.recompute = some (.projection f.param f.body function) := by
  cases h : s.recompute with
  | none =>
    refine ⟨⟨s.property, s.name, s.type, s.origin, none, s.cache, s.notifiesInitially, s.slot, s.sources, s.span⟩, [],
      ?_, ⟨rfl, rfl, rfl, rfl, rfl, rfl, h ▸ .none⟩, ?_, nofun⟩
    · simp [add, h]
    · simp [Staged.function?, h]
  | some r =>
    cases r with
    | inline body =>
      refine ⟨⟨s.property, s.name, s.type, s.origin, some (.inline body), s.cache, s.notifiesInitially, s.slot,
        s.sources, s.span⟩, [], ?_, ⟨rfl, rfl, rfl, rfl, rfl, rfl, h ▸ .inline body⟩, ?_, nofun⟩
      · simp [add, h]
      · simp [Staged.function?, h]
    | method name =>
      refine ⟨⟨s.property, s.name, s.type, s.origin, some (.method name), s.cache, s.notifiesInitially, s.slot,
        s.sources, s.span⟩, [], ?_, ⟨rfl, rfl, rfl, rfl, rfl, rfl, h ▸ .method name⟩, ?_, nofun⟩
      · simp [add, h]
      · simp [Staged.function?, h]
    | projection param body function =>
      refine ⟨⟨s.property, s.name, s.type, s.origin, some (.hoisted section_.statics.length), s.cache,
        s.notifiesInitially, s.slot, s.sources, s.span⟩, [⟨⟨function, param, body, s.type⟩, section_.derived.length⟩],
        ?_, ⟨rfl, rfl, rfl, rfl, rfl, rfl, ?_⟩, ?_, ?_⟩
      · simp [add, h]
      · rw [h]
        refine Recompute.Of.projection (f := ⟨⟨function, param, body, s.type⟩, section_.derived.length⟩) ?_
        rw [List.getElem?_append_right (Nat.le_refl _), Nat.sub_self]
        rfl
      · simp [Staged.function?, h]
      · intro f hf
        obtain rfl := List.mem_singleton.mp hf
        exact ⟨function, rfl⟩

/-- Staged values become derived values one by one. -/
theorem foldl_add_eq : ∀ (staged : List Staged) (section_ : DerivedSection), ∃ ds fs,
    staged.foldl add section_ =
        { section_ with derived := section_.derived ++ ds, statics := section_.statics ++ fs } ∧
      List.Forall₂ (DerivedProperty.Of (section_.statics ++ fs)) ds staged ∧
      fs.map (fun f => f.name) = staged.filterMap Staged.function? ∧
      ∀ f ∈ fs, ∃ s ∈ staged, ∃ function, s.recompute = some (.projection f.param f.body function)
  | [], section_ => ⟨[], [], by simp, .nil, rfl, nofun⟩
  | s :: rest, section_ => by
    obtain ⟨d, fs, hadd, hof, hnames, hfs⟩ := add_eq section_ s
    obtain ⟨ds, fs', hrest, hofs, hnames', hfs'⟩ := foldl_add_eq rest (section_.add s)
    rw [hadd] at hrest hofs
    rw [List.append_assoc] at hofs
    refine ⟨d :: ds, fs ++ fs', ?_, ?_, ?_, ?_⟩
    · rw [List.foldl_cons, hadd, hrest]
      simp
    · refine .cons ?_ hofs
      rw [← List.append_assoc]
      exact hof.mono fs'
    · rw [List.map_append, hnames, hnames', List.filterMap_cons]
      cases s.function? <;> rfl
    · intro f hf
      obtain hf | hf := List.mem_append.mp hf
      · obtain ⟨function, hr⟩ := hfs f hf
        exact ⟨s, List.mem_cons_self, function, hr⟩
      · obtain ⟨t, ht, hr⟩ := hfs' f hf
        exact ⟨t, List.mem_cons_of_mem _ ht, hr⟩

/-- What is kept becomes derived values, one for one, with the graph of their sources. -/
theorem ofStaged_eq (kept : List Staged) : ∃ ds fs, ofStaged kept = ⟨ds, .ofEdges (edges 0 ds), fs⟩ ∧
    List.Forall₂ (DerivedProperty.Of fs) ds kept ∧ fs.map (fun f => f.name) = kept.filterMap Staged.function? ∧
      ∀ f ∈ fs, ∃ s ∈ kept, ∃ function, s.recompute = some (.projection f.param f.body function) := by
  obtain ⟨ds, fs, heq, hof, hfunctions, hwritten⟩ := foldl_add_eq kept ⟨[], .empty, []⟩
  refine ⟨ds, fs, ?_, hof, hfunctions, hwritten⟩
  unfold ofStaged
  rw [heq]
  rfl

/-- A derived value is announced on initialization if the staged one is. -/
theorem mem_foldl_add : ∀ (staged : List Staged) (section_ : DerivedSection) {d : DerivedProperty},
    d ∈ (staged.foldl add section_).derived →
      d ∈ section_.derived ∨ ∃ s ∈ staged, d.origin = s.origin ∧ d.notifiesInitially = s.notifiesInitially
  | [], _, _, h => Or.inl h
  | s :: rest, section_, d, h => by
    obtain h | ⟨t, ht, hsame⟩ := mem_foldl_add rest (section_.add s) h
    · obtain ⟨d', hd', hsame⟩ : ∃ d', (section_.add s).derived = section_.derived ++ [d'] ∧ d'.origin = s.origin ∧
          d'.notifiesInitially = s.notifiesInitially := by
        unfold add
        cases s.recompute with
        | none => exact ⟨_, rfl, rfl, rfl⟩
        | some r => cases r <;> exact ⟨_, rfl, rfl, rfl⟩
      rw [hd', List.mem_append, List.mem_singleton] at h
      obtain h | rfl := h
      · exact Or.inl h
      · exact Or.inr ⟨s, List.mem_cons_self, hsame⟩
    · exact Or.inr ⟨t, List.mem_cons_of_mem _ ht, hsame⟩

end DerivedSection

namespace Drafting

variable {c : ClassDecl}

/-! ### Declared properties -/

/-- A declared property is the last one of the table, unless its name is found to be taken. -/
theorem yields_declare (m : MemberDecl) (d : Draft) : Yields (declare m) d fun _ d' => d.Later d' ∧
    ∀ p, m.kind = .property p → (∃ f ∈ d'.findings, f.code = "RX0002") ∨
      (m.name ∉ d.members.map PropertyInfo.name ∧ m.name ∈ d'.members.map PropertyInfo.name ∧
        ∃ i, d'.members.find? m.name = some i ∧ i.hasSetter = p.setter.isSome) := by
  refine ⟨later_declare m d, ?_⟩
  suffices h : Yields (declare m) d fun _ d' => ∀ p, m.kind = .property p →
      (∃ f ∈ d'.findings, f.code = "RX0002") ∨
      (m.name ∉ d.members.map PropertyInfo.name ∧ m.name ∈ d'.members.map PropertyInfo.name ∧
        ∃ i, d'.members.find? m.name = some i ∧ i.hasSetter = p.setter.isSome) from h
  unfold declare
  split
  · rename_i p hp
    refine (yields_addProperty ⟨m.name, p.type, p.setter.isSome, .plain, false, accessibility m.modifiers, m.nameSpan⟩
      d).bind fun result d₁ hadd => ?_
    split
    · rename_i earlier
      intro _ _
      exact Or.inl ⟨⟨.duplicateTarget m.name earlier, m.nameSpan⟩,
        List.mem_append_right d₁.findings (List.mem_singleton.mpr rfl), rfl⟩
    · rename_i hok
      cases result with
      | error earlier => exact absurd rfl (hok earlier)
      | ok id =>
        obtain ⟨hnew, rfl, rfl⟩ := hadd _ rfl
        intro p' hp'
        have hsame : p' = p := by
          rw [hp] at hp'
          cases hp'
          rfl
        subst hsame
        refine Or.inr ⟨hnew, ?_, ⟨m.name, p'.type, p'.setter.isSome, .plain, false, accessibility m.modifiers,
          m.nameSpan⟩, ?_, rfl⟩
        · show m.name ∈ List.map _ (d.members ++ [_])
          simp
        have hnone : ∀ i ∈ d.members, ¬ (i.name == m.name) = true := fun i hi heq =>
          hnew (List.mem_map.mpr ⟨i, hi, by simpa using heq⟩)
        show List.find? _ (d.members ++ [_]) = _
        rw [List.find?_append, List.find?_eq_none.mpr hnone]
        simp
  · rename_i hother
    intro p hp
    exact absurd hp (hother p)

/-- Unless a name is found to be taken, the declared properties have names of their own, and the table has them. -/
theorem yields_declareAll : ∀ (ms : List MemberDecl) (d : Draft),
    Yields (ms.forM declare) d fun _ d' => d.Later d' ∧ (d'.Unrepeated →
      (propertyNames ms).Nodup ∧ (∀ n ∈ propertyNames ms, n ∉ d.members.map PropertyInfo.name) ∧
        ∀ m ∈ ms, ∀ p, m.kind = .property p → ∃ i, d'.members.find? m.name = some i ∧ i.hasSetter = p.setter.isSome)
  | [], d => ⟨.refl d, fun _ => ⟨List.nodup_nil, nofun, nofun⟩⟩
  | m :: ms, d => by
    refine (yields_declare m d).bind fun _ d₁ hm => ?_
    obtain ⟨h₁, hm⟩ := hm
    refine (yields_declareAll ms d₁).imp fun _ d₂ hms => ?_
    obtain ⟨h₂, hms⟩ := hms
    refine ⟨h₁.trans h₂, fun hunrepeated => ?_⟩
    obtain ⟨hnodup, hfree, hfound⟩ := hms hunrepeated
    have hnew (p : PropertyDecl) (hp : m.kind = .property p) := (hm p hp).resolve_left fun ⟨f, hf, hcode⟩ =>
      h₂.unrepeated hunrepeated f hf hcode
    have hold {n : String} (hn : n ∈ d.members.map PropertyInfo.name) : n ∈ d₁.members.map PropertyInfo.name := by
      have hprefix : d.members.map PropertyInfo.name <+: d₁.members.map PropertyInfo.name := by
        have hfixed := h₁.members.map PropertyInfo.name
        rwa [List.map_map, List.map_map] at hfixed
      exact hprefix.subset hn
    rw [propertyNames_cons]
    refine ⟨?_, ?_, ?_⟩
    · refine List.nodup_append.mpr ⟨?_, hnodup, fun n hn n' hn' heq => ?_⟩
      · cases m.property? <;> simp
      · obtain ⟨p, hp, rfl⟩ := Option.map_eq_some_iff.mp (Option.mem_toList.mp hn)
        exact hfree n' hn' (heq ▸ (hnew p (MemberDecl.property?_eq_some.mp hp)).2.1)
    · intro n hn
      obtain hn | hn := List.mem_append.mp hn
      · obtain ⟨p, hp, rfl⟩ := Option.map_eq_some_iff.mp (Option.mem_toList.mp hn)
        exact (hnew p (MemberDecl.property?_eq_some.mp hp)).1
      · exact fun h => hfree n hn (hold h)
    · refine List.forall_mem_cons.mpr ⟨fun p hp => ?_, hfound⟩
      obtain ⟨-, -, i, hi, hsetter⟩ := hnew p hp
      obtain ⟨i', hi', hfixed⟩ := h₂.find? hi
      have hsame : i'.fixed.hasSetter = i.fixed.hasSetter := by rw [hfixed]
      exact ⟨i', hi', hsame.trans hsetter⟩

/-! ### Reactive properties -/

theorem yields_mutableProperty {m : MemberDecl} (a : Annotation) (hm : m ∈ c.members) (d : Draft)
    (htaken : ∀ n ∈ c.names, n ∈ d.taken.map Prod.fst) :
    Yields (mutableProperty m a) d fun r d' => ∀ p, r = some p → p.Fits c ∧
      d'.members.resolve? p.name = some p.id ∧ Naming.raiseAndSet p.name ∉ d.taken.map Prod.fst ∧
        Naming.raiseAndSet p.name ∈ d'.taken.map Prod.fst := by
  unfold mutableProperty
  split
  · exact yields_reject
  · rename_i decl hdecl
    split
    · exact yields_reject
    · rename_i setter hsetter
      split
      · exact yields_reject
      · refine Yields.bind (Q := fun d₀ d' => d₀ = d ∧ d' = d) ⟨rfl, rfl⟩ ?_
        rintro _ d ⟨rfl, rfl⟩
        dsimp only
        split
        · exact yields_none
        · rename_i id hid
          split
          · exact yields_none
          · refine (yields_claimAll _ m.nameSpan _).bind fun conflict d₁ hclaim => ?_
            split
            · exact yields_reject
            · rintro p ⟨⟩
              obtain ⟨hfree, hnow, -⟩ := hclaim.2 rfl
              have hmem : Naming.raiseAndSet m.name ∈ [Naming.slot m.name, Naming.raiseAndSet m.name] := by simp
              refine ⟨⟨⟨m, hm, rfl, decl, hdecl, ?_⟩, fun hname => hfree _ hmem (htaken _ hname), rfl⟩,
                hclaim.1.resolve? hid, hfree _ hmem, hnow _ hmem⟩
              rw [hsetter]
              rfl

/-- Reactive properties have names and numbers of their own. -/
theorem yields_mutableProperties : ∀ (records : List (MemberDecl × List Annotation)) (d : Draft),
    (∀ m ∈ records.map Prod.fst, m ∈ c.members) → (∀ n ∈ c.names, n ∈ d.taken.map Prod.fst) →
      Yields (mutableProperties records) d fun ps d' => d.Later d' ∧
        (∀ p ∈ ps, p.Fits c ∧ d'.members.resolve? p.name = some p.id ∧
          Naming.raiseAndSet p.name ∉ d.taken.map Prod.fst) ∧ (ps.map MutableProperty.name).Nodup
  | [], d, _, _ => ⟨.refl d, nofun, List.nodup_nil⟩
  | (m, annotations) :: rest, d, hmem, htaken => by
    have hm : m ∈ c.members := hmem _ List.mem_cons_self
    have hmem : ∀ n ∈ rest.map Prod.fst, n ∈ c.members := fun n hn => hmem n (List.mem_cons_of_mem _ hn)
    have hrest (d₁ : Draft) (h₁ : d.Later d₁) := yields_mutableProperties rest d₁ hmem fun n hn =>
      (h₁.taken.map Prod.fst).subset (htaken n hn)
    have hskip (d₁ : Draft) (h₁ : d.Later d₁) : Yields (mutableProperties rest) d₁ fun ps d' => d.Later d' ∧
        (∀ p ∈ ps, p.Fits c ∧ d'.members.resolve? p.name = some p.id ∧
          Naming.raiseAndSet p.name ∉ d.taken.map Prod.fst) ∧ (ps.map MutableProperty.name).Nodup :=
      (hrest d₁ h₁).imp fun ps d₂ h => ⟨h₁.trans h.1, fun p hp => by
        obtain ⟨hfits, hid, hfree⟩ := h.2.1 p hp
        exact ⟨hfits, hid, fun hn => hfree ((h₁.taken.map Prod.fst).subset hn)⟩, h.2.2⟩
    unfold mutableProperties
    split
    · exact hskip d (.refl d)
    · refine ((yields_mutableProperty _ hm d htaken).and_later (notes_mutableProperty m _).adds).bind
        fun result d₁ hresult => ?_
      obtain ⟨hp, h₁⟩ := hresult
      split
      · exact hskip d₁ h₁
      · rename_i p
        obtain ⟨hfits, hid, hfree, htaken₁⟩ := hp p rfl
        refine Yields.bind (Q := fun _ d₂ => d₁.Later d₂) (later_setRole _ _ d₁) fun _ d₂ h₂ => ?_
        refine (hrest d₂ (h₁.trans h₂)).bind fun ps d₃ hps => ?_
        obtain ⟨h₃, hps, hnodup⟩ := hps
        refine ⟨(h₁.trans h₂).trans h₃, ?_, ?_⟩
        · refine List.forall_mem_cons.mpr ⟨⟨hfits, (h₂.trans h₃).resolve? hid, hfree⟩, fun q hq => ?_⟩
          obtain ⟨hfits, hid, hfree⟩ := hps q hq
          exact ⟨hfits, hid, fun hn => hfree (((h₁.trans h₂).taken.map Prod.fst).subset hn)⟩
        · refine List.nodup_cons.mpr ⟨fun hagain => ?_, hnodup⟩
          obtain ⟨q, hq, hname⟩ := List.mem_map.mp hagain
          refine (hps q hq).2.2 ?_
          rw [hname]
          exact (h₂.taken.map Prod.fst).subset htaken₁

end Drafting

/-! ### Derived values -/

namespace Drafting

variable {c : ClassDecl}

/-- The derived values of a class with their announcements, as they are staged. -/
def stagedSection (c : ClassDecl) (records : List (MemberDecl × List Annotation)) : Drafting (List Staged) := do
  mergeAll c records (← stageAll records)

theorem adds_stagedSection (c : ClassDecl) (records : List (MemberDecl × List Annotation)) :
    Adds (stagedSection c records) :=
  (adds_stageAll records).bind fun staged => (notes_mergeAll c records staged).adds

/-- Staged values go with their class; they are apart if the declared properties are. -/
theorem yields_stagedSection (records : List (MemberDecl × List Annotation)) (d : Draft)
    (hmem : ∀ m ∈ records.map Prod.fst, m ∈ c.members) (htaken : ∀ n ∈ c.names, n ∈ d.taken.map Prod.fst) :
    Yields (stagedSection c records) d fun staged d' => (∀ s ∈ staged, s.Fits c) ∧
      (d.members.Registers c → (propertyNames (records.map Prod.fst)).Nodup → d.names ⊆ propertyNames c.members →
        Announceable c staged d') := by
  refine ((yields_stageAll records d hmem htaken).and (yields_stageAll_extends records d)).bind fun staged d₁ h => ?_
  obtain ⟨hall, hextends⟩ := h
  refine ⟨fits_mergeAll c records staged d₁ hall.fits, fun hreg hnodup hnames => ?_⟩
  refine announceable_mergeAll records staged d₁ ⟨⟨hall.placed hreg, hall.distinct hnodup, hall.functions⟩,
    fun _ s hs hrecompute => ?_, fun hclean n hn => ?_⟩
  · exact (List.filterMap_subset _ hmem) (hall.announced s hs hrecompute)
  · exact (List.mem_append.mp (hextends hclean hn)).elim (fun hn => List.mem_append_left _ (hnames hn))
      (List.mem_append_right _)

/-- Staged values that are apart have properties of their own. -/
theorem Apart.properties {staged : List Staged} {d : Draft} (h : Apart staged d) :
    (staged.map Staged.property).Nodup := by
  refine List.pairwise_map.mpr ((List.pairwise_map.mp h.distinct).imp_of_mem fun hs ht hne heq => hne ?_)
  obtain ⟨i, hi, hname⟩ := MemberTable.name_of_resolve? (h.placed _ hs).resolved
  obtain ⟨j, hj, hname'⟩ := MemberTable.name_of_resolve? (h.placed _ ht).resolved
  rw [heq, hj] at hi
  rw [← hname, ← hname', Option.some.inj hi]

/-- What is kept of values that are apart is apart. -/
theorem Apart.sublist {staged kept : List Staged} {d : Draft} (h : Apart staged d) (hkept : kept.Sublist staged) :
    Apart kept d :=
  ⟨fun s hs => h.placed s (hkept.subset hs), h.distinct.sublist (hkept.map _), h.functions.sublist (hkept.filterMap _)⟩

/-- Numbers change the roles of properties, and nothing else. -/
theorem yields_setDerivedRoles_fixed : ∀ (staged : List Staged) (id : DerivedId) (d : Draft),
    Yields (setDerivedRoles id staged) d fun _ d' =>
      d'.members.map PropertyInfo.fixed = d.members.map PropertyInfo.fixed
  | [], _, _ => rfl
  | s :: rest, id, d => by
    refine Yields.bind (Q := fun _ d₁ => d₁.members.map PropertyInfo.fixed = d.members.map PropertyInfo.fixed) ?_
      fun _ d₁ h₁ => (yields_setDerivedRoles_fixed rest (id + 1) d₁).imp fun _ _ h => h.trans h₁
    exact map_modify_of_eq (f := fun info : PropertyInfo => { info with role := .derived id }) (fun _ => rfl) _ _

/-- What the derived values of a class leave: every cycle is reported, and the properties of the values that are kept have
their numbers. -/
structure Numbered (kept : List Staged) (d d' : Draft) : Prop extends d.Later d' where
  listed : d.Listed → d'.Listed
  fixed : d'.members.map PropertyInfo.fixed = d.members.map PropertyInfo.fixed
  others : ∀ s, (∀ t ∈ kept, t.property ≠ s) → d'.members[s]? = d.members[s]?
  roles : (kept.map Staged.property).Nodup → ∀ (j : Nat) (t : Staged), kept[j]? = some t → ∀ i, d.members[t.property]? = some i →
    d'.members[t.property]?.map PropertyInfo.role = some (.derived j)

/-- The derived values of a class are the staged ones that lie on no cycle; every cycle is reported. -/
theorem yields_derivedSection (c : ClassDecl) (records : List (MemberDecl × List Annotation)) (d : Draft) :
    Yields (derivedSection c records) d fun section_ d' =>
      section_ = .ofStaged (Staged.acyclic (stagedSection c records d).1) ∧
        Numbered (Staged.acyclic (stagedSection c records d).1) (stagedSection c records d).2 d' ∧ d'.cycles = d.cycles ++
          (Staged.cycles (stagedSection c records d).1).filterMap (Staged.cycleFinding (stagedSection c records d).1) := by
  unfold derivedSection
  rw [← bind_assoc]
  refine Yields.bind (Q := fun staged d₁ => stagedSection c records d = (staged, d₁)) rfl fun staged d₁ hstaged => ?_
  have h₁ : d₁.cycles = d.cycles := by
    have hadds := adds_stagedSection c records d
    rw [hstaged] at hadds
    exact hadds.cycles
  rw [hstaged, ← h₁]
  have hcyclic : ((Staged.cycles staged).filterMap (Staged.cycleFinding staged)).filter (·.cause.isCycle) =
      (Staged.cycles staged).filterMap (Staged.cycleFinding staged) := by
    refine List.filter_eq_self.mpr fun f hf => ?_
    obtain ⟨group, -, first, rest, -, rfl⟩ := exists_mem_left (Staged.reports_cycles staged) hf
    rfl
  have hreport := forIn_report (Staged.cycleFinding staged) (Staged.cycles staged) d₁
  refine Yields.bind (Q := fun _ d₂ =>
    d₂ = ⟨d₁.members, d₁.taken, d₁.findings ++ (Staged.cycles staged).filterMap (Staged.cycleFinding staged)⟩)
    (.intro hreport rfl) ?_
  rintro _ d₂ rfl
  refine ((yields_setDerivedRoles (Staged.acyclic staged) 0 _).and (yields_setDerivedRoles_fixed _ 0 _)).bind ?_
  rintro _ d₃ ⟨⟨hlater, hfindings, hlisted, hothers, hroles⟩, hfixed⟩
  have hfound : d₁.Later
      ⟨d₁.members, d₁.taken, d₁.findings ++ (Staged.cycles staged).filterMap (Staged.cycleFinding staged)⟩ :=
    ⟨List.prefix_rfl, List.prefix_rfl, List.prefix_append _ _, id⟩
  refine ⟨rfl, ⟨hfound.trans hlater, hlisted, hfixed, hothers, fun hnodup j t hj i hi => ?_⟩, ?_⟩
  · exact Nat.zero_add j ▸ hroles hnodup j t hj i hi
  · show d₃.findings.filter _ = d₁.findings.filter _ ++ _
    rw [hfindings, List.filter_append, hcyclic]

/-- Exactly the properties of kept values have the role of a derived value, and it has the number of the value. -/
theorem Numbered.role_iff {kept : List Staged} {d d' : Draft} (h : Numbered kept d d') (hunderived : d.Underived)
    (hnodup : (kept.map Staged.property).Nodup) (hplaced : ∀ t ∈ kept, t.Placed d.members) (s : PropertyId) (j : DerivedId) :
    d'.members[s]?.map PropertyInfo.role = some (.derived j) ↔ ∃ t, kept[j]? = some t ∧ t.property = s := by
  have hrole {k : Nat} {t : Staged} (ht : kept[k]? = some t) :
      d'.members[t.property]?.map PropertyInfo.role = some (.derived k) := by
    obtain ⟨i, hi, -⟩ := MemberTable.name_of_resolve? (hplaced t (List.mem_of_getElem? ht)).resolved
    exact h.roles hnodup k t ht i hi
  constructor
  · intro hs
    by_cases hkept : ∃ t ∈ kept, t.property = s
    · obtain ⟨t, ht, rfl⟩ := hkept
      obtain ⟨k, hk⟩ := List.mem_iff_getElem?.mp ht
      rw [hrole hk] at hs
      cases hs
      exact ⟨t, hk, rfl⟩
    · rw [h.others s fun t ht heq => hkept ⟨t, ht, heq⟩] at hs
      obtain ⟨i, hi, hrole⟩ := Option.map_eq_some_iff.mp hs
      exact absurd hrole (hunderived i (List.mem_of_getElem? hi) j)
  · rintro ⟨t, ht, rfl⟩
    exact hrole ht

/-- A property whose changes are announced is reactive, or that of a kept value. -/
theorem Numbered.announced {kept : List Staged} {d d' : Draft} (h : Numbered kept d d') (hunderived : d.Underived)
    {id : PropertyId} {i : PropertyInfo} (hi : d'.members[id]? = some i) (hrole : i.role ≠ .plain) :
    d.Reacts id ∨ ∃ t ∈ kept, t.property = id := by
  by_cases hkept : ∃ t ∈ kept, t.property = id
  · exact Or.inr hkept
  · rw [h.others id fun t ht heq => hkept ⟨t, ht, heq⟩] at hi
    refine Or.inl (Option.map_eq_some_iff.mpr ⟨i, hi, ?_⟩)
    cases hi' : i.role with
    | plain => exact absurd hi' hrole
    | mutable => rfl
    | derived j => exact absurd hi' (hunderived i (List.mem_of_getElem? hi) j)

/-- The property of a staged value is not declared with a setter. -/
theorem setter_of_placed {c : ClassDecl} {table : MemberTable} {t : Staged} (h : t.Placed table) (hreg : table.Registers c)
    {x : MemberDecl} (hx : x ∈ c.members) (hname : x.name = t.name) {p : PropertyDecl} (hp : x.kind = .property p) :
    p.setter = none := by
  obtain ⟨i, hi, hsetter⟩ := h.info
  obtain ⟨i', hi', hset⟩ := hreg x hx p hp
  rw [hname, hi] at hi'
  cases hi'
  rw [hsetter] at hset
  exact Option.not_isSome_iff_eq_none.mp (by simp [← hset])

end Drafting

/-! ### Whole models -/

namespace ClassModel

/-- What the model of a class takes over from the class. -/
structure Analyzed (c : ClassDecl) (m : ClassModel) : Prop where
  name : m.header.name = c.name
  mutable : ∀ p ∈ m.mutableProperties, p.Fits c
  distinct : (m.mutableProperties.map MutableProperty.name).Nodup
  derived : ∀ d ∈ m.derived, d.Fits c m.statics
  statics : ∀ f ∈ m.statics, ∃ name body, c.HasGetter name body ∧ body.staticProjection? = some (f.param, f.body)
  commands : ∀ k ∈ m.commands, k.Fits c
  graph : m.graph = .ofEdges (DerivedSection.edges 0 m.derived)

/-- The value numbered `e` is a source of the one numbered `d`. -/
def Feeds (m : ClassModel) (e d : DerivedId) : Prop :=
  ∃ x y, m.derived[e]? = some x ∧ m.derived[d]? = some y ∧ x.property ∈ y.sources

/-- Names and numbers belong together, and no derived value is computed from itself. -/
structure Orderly (m : ClassModel) : Prop where
  mutable : ∀ p ∈ m.mutableProperties, m.members.resolve? p.name = some p.id
  derived : ∀ d ∈ m.derived, m.members.resolve? d.name = some d.property
  distinct : (m.derived.map DerivedProperty.name).Nodup
  apart : ∀ p ∈ m.mutableProperties, ∀ d ∈ m.derived, p.name ≠ d.name
  functions : (m.statics.map fun f => f.name).Nodup
  acyclic : ∀ d, ¬ Relation.TransGen m.Feeds d d
  /-- The role of a property says which derived value it belongs to. -/
  roles : ∀ s i, m.members[s]?.map PropertyInfo.role = some (.derived i) ↔ ∃ d, m.derived[i]? = some d ∧ d.property = s
  /-- Commands have names of their own. -/
  commands : ∀ k ∈ m.commands, (∀ p ∈ m.mutableProperties, k.property ≠ p.name) ∧ ∀ d ∈ m.derived, k.property ≠ d.name

end ClassModel

/-- The derived values that staged ones on no cycle become are not computed from themselves. -/
theorem not_transGen_feeds {statics : List HoistedFunction} {staged kept : List Staged} {m : ClassModel}
    (hof : List.Forall₂ (DerivedProperty.Of statics) m.derived kept) (hkept : ∀ s ∈ kept, s ∈ staged ∧ ¬ s.OnCycle staged)
    (d : DerivedId) : ¬ Relation.TransGen m.Feeds d d := by
  have hget {i : Nat} {x : DerivedProperty} (hx : m.derived[i]? = some x) : ∃ s, kept[i]? = some s ∧ x.Of statics s :=
    exists_getElem?_left hof hx
  have hsource {i j : DerivedId} (h : m.Feeds i j) {s t : Staged} (hs : kept[i]? = some s) (ht : kept[j]? = some t) :
      Staged.HasSource staged t s := by
    obtain ⟨x, y, hx, hy, hnamed⟩ := h
    obtain ⟨s', hs', hxs⟩ := hget hx
    obtain ⟨t', ht', hyt⟩ := hget hy
    obtain rfl := Option.some.inj (hs.symm.trans hs')
    obtain rfl := Option.some.inj (ht.symm.trans ht')
    refine ⟨(hkept _ (List.mem_of_getElem? ht)).1, (hkept _ (List.mem_of_getElem? hs)).1, ?_⟩
    rwa [← hxs.property, ← hyt.sources]
  have hchain {i j : DerivedId} (h : Relation.TransGen m.Feeds i j) {s t : Staged} (hs : kept[i]? = some s)
      (ht : kept[j]? = some t) : Relation.TransGen (Staged.HasSource staged) t s := by
    induction h generalizing t with
    | single hfeeds => exact .single (hsource hfeeds hs ht)
    | tail _ hfeeds ih =>
      obtain ⟨u, hu, -⟩ := hget hfeeds.choose_spec.choose_spec.1
      exact .head (hsource hfeeds hu ht) (ih hu)
  intro hcycle
  obtain ⟨e, hfeeds, -⟩ := Relation.TransGen.head'_iff.mp hcycle
  obtain ⟨s, hs, -⟩ := hget hfeeds.choose_spec.choose_spec.1
  exact (hkept s (List.mem_of_getElem? hs)).2 (hchain hcycle hs hs)

theorem annotatedMembers_fst (c : ClassDecl) : (annotatedMembers c).1.map Prod.fst = c.members := by
  unfold annotatedMembers
  rw [List.map_map, List.map_map]
  exact List.map_id c.members

/-- The finding is about the use of an annotation. -/
def FindingCause.isUse : FindingCause → Bool
  | .invalidArguments .. | .repeatedUse .. | .noConstructor .. => true
  | _ => false

namespace Annotation

theorem isUse_of_splitArgs {shape : Shape} {use : Attribute} {member : String} {f : Finding} :
    ∀ {args : List AttributeArg} {positional : List Constant} {named : List (String × Constant)},
      splitArgs shape use member args positional named = .error f → f.cause.isUse = true
  | [], _, _, h => nomatch h
  | ⟨none, value, span⟩ :: rest, positional, named, h => by
    rw [splitArgs] at h
    split at h
    · exact isUse_of_splitArgs h
    · cases h
      rfl
  | ⟨some name, value, span⟩ :: rest, positional, named, h => by
    rw [splitArgs] at h
    split at h
    · cases h
      rfl
    · split at h
      · exact isUse_of_splitArgs h
      · cases h
        rfl

theorem isUse_of_bind {kind : AnnotationKind} {use : Attribute} {member : String} {f : Finding}
    (h : bind kind use member = .error f) : f.cause.isUse = true := by
  unfold bind at h
  cases hsplit : splitArgs kind.shape use member use.args [] [] with
  | error g =>
    rw [hsplit] at h
    cases h
    exact isUse_of_splitArgs hsplit
  | ok parts =>
    rw [hsplit] at h
    simp only [Bind.bind, Except.bind] at h
    split at h
    · split at h
      · cases h
        rfl
      · split at h <;> cases h
        rfl
    · split at h <;> cases h
      rfl

/-- What is found about annotations is about their use. -/
theorem isUse_of_mem {member : String} : ∀ {uses : List Attribute} {seen : List (AnnotationKind × Span)}
    {f : Finding}, f ∈ (ofAttributes member uses seen).2 → f.cause.isUse = true
  | [], _, _, h => nomatch h
  | use :: rest, seen, f, h => by
    rw [ofAttributes] at h
    split at h
    · exact isUse_of_mem h
    · split at h
      · obtain rfl | h := List.mem_cons.mp h
        · rfl
        · exact isUse_of_mem h
      · split at h
        · exact isUse_of_mem h
        · rename_i hbind
          obtain rfl := List.mem_singleton.mp h
          exact isUse_of_bind hbind

end Annotation

theorem isUse_of_annotatedMembers {c : ClassDecl} {f : Finding} (hf : f ∈ (annotatedMembers c).2) :
    f.cause.isUse = true := by
  obtain ⟨e, he, hf⟩ := List.mem_flatMap.mp hf
  obtain ⟨m, -, rfl⟩ := List.mem_map.mp he
  exact Annotation.isUse_of_mem hf

theorem FindingCause.not_isCycle_of_isUse {cause : FindingCause} (h : cause.isUse = true) : cause.isCycle = false := by
  cases cause <;> first | rfl | cases h

namespace Drafting

/-- What is known when derived values are staged: the declared properties, of which some are reactive. -/
def properties (c : ClassDecl) : Drafting (List MutableProperty) := do
  c.members.forM declare
  modify fun d => { d with findings := d.findings ++ (annotatedMembers c).2 }
  mutableProperties (annotatedMembers c).1

theorem yields_properties (c : ClassDecl) :
    Yields (properties c) ⟨[], declaredNames c, []⟩ fun ps d => (∀ n ∈ c.names, n ∈ d.taken.map Prod.fst) ∧
      (∀ p ∈ ps, p.Fits c ∧ d.members.resolve? p.name = some p.id) ∧ (ps.map MutableProperty.name).Nodup ∧
        (d.Unrepeated → (propertyNames c.members).Nodup ∧ d.members.Registers c) ∧ d.cycles = [] ∧
          d.Underived ∧ d.Listed ∧ ∀ id, d.Reacts id → ∃ p ∈ ps, p.id = id := by
  have hnames (d : Draft) (h : Draft.Later ⟨[], declaredNames c, []⟩ d) : ∀ n ∈ c.names, n ∈ d.taken.map Prod.fst := by
    intro n hn
    refine (h.taken.map Prod.fst).subset ?_
    rwa [declaredNames, List.map_map]
  have hmem : ∀ m ∈ (annotatedMembers c).1.map Prod.fst, m ∈ c.members := by
    rw [annotatedMembers_fst]
    exact fun _ h => h
  have hannotations : (annotatedMembers c).2.filter (·.cause.isCycle) = [] := by
    refine List.filter_eq_nil_iff.mpr fun f hf => ?_
    exact Bool.eq_false_iff.mp (FindingCause.not_isCycle_of_isUse (isUse_of_annotatedMembers hf))
  unfold properties
  refine Yields.bind (Q := fun _ d₁ => Draft.Added ⟨[], declaredNames c, []⟩ d₁ ∧ (d₁.Unrepeated →
      (propertyNames c.members).Nodup ∧ d₁.members.Registers c))
    ⟨added_declareAll fun m hm => ?_, fun hd => ?_⟩ fun _ d₁ h₁ => ?_
  · show m.name ∈ (declaredNames c).map Prod.fst
    rw [declaredNames, List.map_map]
    exact List.mem_map_of_mem hm
  · obtain ⟨hnodup, -, hfound⟩ := (yields_declareAll c.members _).2 hd
    exact ⟨hnodup, hfound⟩
  obtain ⟨h₁, hdeclared⟩ := h₁
  refine Yields.bind (Q := fun _ d₂ => d₁.Later d₂ ∧ d₂.cycles = [] ∧ d₂.Underived ∧ d₂.Listed ∧ ∀ id, ¬ d₂.Reacts id)
    ⟨⟨List.prefix_rfl, List.prefix_rfl, List.prefix_append _ _, id⟩, ?_, h₁.underived nofun, h₁.listed nofun,
      fun id hid => ?_⟩ fun _ d₂ h₂ => ?_
  · show (d₁.findings ++ (annotatedMembers c).2).filter (·.cause.isCycle) = []
    rw [List.filter_append, hannotations, List.append_nil]
    exact h₁.cycles
  · obtain hid | hid := h₁.reactive id hid
    · cases hid
    · cases hid
  obtain ⟨h₂, hcycles, hunderived, hlisted, hplain⟩ := h₂
  have hlater := h₁.toLater.trans h₂
  have hmarked := yields_mutableProperties_marked (annotatedMembers c).1 d₂
  obtain ⟨h₃, hps, hdistinct⟩ := yields_mutableProperties (c := c) _ d₂ hmem (hnames d₂ hlater)
  refine ⟨hnames _ (hlater.trans h₃), fun p hp => ⟨(hps p hp).1, (hps p hp).2.1⟩, hdistinct, fun hd => ?_,
    hmarked.cycles.trans hcycles, hmarked.underived hunderived, hmarked.listed hlisted, fun id hid => ?_⟩
  · obtain ⟨hnodup, hreg⟩ := hdeclared ((h₂.trans h₃).unrepeated hd)
    exact ⟨hnodup, hreg.later (h₂.trans h₃)⟩
  · exact List.mem_map.mp ((hmarked.reactive id hid).resolve_left (hplain id))

/-- Before derived values are staged, there are no properties but declared ones. -/
theorem yields_properties_names (c : ClassDecl) :
    Yields (properties c) ⟨[], declaredNames c, []⟩ fun _ d => d.names ⊆ propertyNames c.members := by
  unfold properties
  refine (yields_declareAll_names c.members ⟨[], declaredNames c, []⟩).bind fun _ d₁ h₁ => ?_
  refine Yields.bind (Q := fun _ d₂ => d₂.names = d₁.names) rfl fun _ d₂ h₂ => ?_
  exact (yields_mutableProperties_names (annotatedMembers c).1 d₂).imp fun _ d₃ h₃ => (h₃.trans h₂) ▸ h₁

end Drafting

/-- The derived values of a class as they are staged, with the announcements for other properties. -/
def ClassDecl.staged (c : ClassDecl) : List Staged :=
  (do let _ ← Drafting.properties c
      Drafting.stagedSection c (annotatedMembers c).1 : Drafting (List Staged)).run' ⟨[], declaredNames c, []⟩

/-- What the model of a class is made of. -/
structure ClassModel.Built (c : ClassDecl) (m : ClassModel) (d : Draft) : Prop where
  analyzed : m.Analyzed c
  /-- The derived values are the staged ones that are kept. -/
  kept : List.Forall₂ (DerivedProperty.Of m.statics) m.derived (Staged.acyclic c.staged)
  orderly : d.Unrepeated → m.Orderly
  /-- Staged values have properties of their own. -/
  properties : d.Unrepeated → (c.staged.map Staged.property).Nodup
  /-- Derived values have no setter. -/
  unset : d.Unrepeated → ∀ e ∈ m.derived, ∀ x ∈ c.members, x.name = e.name → ∀ p, x.kind = .property p → p.setter = none
  cycles : d.cycles = (Staged.cycles c.staged).filterMap (Staged.cycleFinding c.staged)
  /-- An observable helper is not announced on initialization. -/
  silent : ∀ e ∈ m.derived, e.isObservable = true → e.notifiesInitially = false
  declared : d.Unrepeated → (propertyNames c.members).Nodup
  /-- A command is enabled by a reactive property or by a derived value. -/
  gates : d.Unrepeated → ∀ k ∈ m.commands, ∀ g, k.enablement = some g →
    (∃ p ∈ m.mutableProperties, p.name = g.name) ∨ ∃ e ∈ m.derived, e.name = g.name
  /-- A derived value of which only changes are announced stands for a declared property. -/
  announced : d.Clean → ∀ e ∈ m.derived, e.recompute = none → e.name ∈ propertyNames c.members

/-- The model of a class is made of its properties, its derived values, its commands and its locale objects. -/
theorem Drafting.classModel_eq (s : DeclarationSet) (c : ClassDecl) : Drafting.classModel s c = (do
    let mutableProperties ← Drafting.properties c
    let section_ ← Drafting.derivedSection c (annotatedMembers c).1
    let commands ← Drafting.commands (annotatedMembers c).1
    let localeGroups ← Drafting.localeGroups (annotatedMembers c).1 []
    return {
      header :=
        ⟨c.name, s.file.namespaceName, s.file.usings, c.typeParams, accessibility c.modifiers,
          c.modifiers.contains .abstract⟩
      derivesExtensibleBase := s.derivesExtensibleBase c
      initMethod := s.conventions.initMethod
      members := (← get).members
      mutableProperties
      derived := section_.derived
      graph := section_.graph
      statics := section_.statics
      commands
      localeGroups
      declaredHooks := declaredHooks c
      span := c.nameSpan }) := by
  unfold Drafting.classModel Drafting.properties
  simp only [bind_assoc]

theorem yields_classModel (s : DeclarationSet) (c : ClassDecl) :
    Drafting.Yields (Drafting.classModel s c) ⟨[], declaredNames c, []⟩ fun model d => model.Built c d ∧
      model.initMethod = s.conventions.initMethod ∧ model.declaredHooks = declaredHooks c := by
  rw [Drafting.classModel_eq]
  have hmem : ∀ m ∈ (annotatedMembers c).1.map Prod.fst, m ∈ c.members := by
    rw [annotatedMembers_fst]
    exact fun _ h => h
  refine Drafting.Yields.bind (Q := fun ps d => Drafting.properties c ⟨[], declaredNames c, []⟩ = (ps, d)) rfl
    fun ps d₁ hproperties => ?_
  obtain ⟨hnames, hps, hdistinct, hunrepeated, hcycles, hunderived, hlisted, hreacts⟩ :=
    (Drafting.yields_properties c).of_eq hproperties
  have hlisting := (Drafting.yields_properties_names c).of_eq hproperties
  have hstaged : (Drafting.stagedSection c (annotatedMembers c).1 d₁).1 = c.staged := by
    show _ = (Drafting.stagedSection c (annotatedMembers c).1 (Drafting.properties c ⟨[], declaredNames c, []⟩).2).1
    rw [hproperties]
  have h₂ := Drafting.adds_stagedSection c (annotatedMembers c).1 d₁
  have hstage := Drafting.yields_stagedSection (c := c) (annotatedMembers c).1 d₁ hmem hnames
  refine (Drafting.yields_derivedSection c (annotatedMembers c).1 d₁).bind fun section_ d₃ hsection => ?_
  unfold Drafting.Yields at hstage
  rw [hstaged] at hstage hsection
  obtain ⟨rfl, h₃, hreported⟩ := hsection
  obtain ⟨hfits, hapart⟩ := hstage
  refine Drafting.Yields.bind (Q := fun (ks : List CommandModel) d => d₃.Noted d ∧
      ∀ k ∈ ks, k.Fits c ∧ k.property ∉ d₃.taken.map Prod.fst ∧ ∀ g, k.enablement = some g → g.Bound d₃.members)
    ⟨Drafting.notes_commands _ d₃, Drafting.yields_commands _ d₃ hmem⟩ fun commands d₄ hcommands => ?_
  obtain ⟨h₄, hcommands⟩ := hcommands
  refine Drafting.Yields.bind (Q := fun _ d => d₄.Noted d) (Drafting.notes_localeGroups _ [] d₄)
    fun groups d₅ h₅ => ?_
  obtain ⟨ds, fs, hsection, hof, hfunctions, hwritten⟩ := DerivedSection.ofStaged_eq (Staged.acyclic c.staged)
  rw [hsection]
  have hkept {t : Staged} (ht : t ∈ Staged.acyclic c.staged) : t ∈ c.staged := (Staged.acyclic_sublist _).subset ht
  have hget {d : DerivedProperty} (hd : d ∈ ds) : ∃ t ∈ Staged.acyclic c.staged, d.Of fs t := exists_mem_left hof hd
  have hlater₂ : (Drafting.stagedSection c (annotatedMembers c).1 d₁).2.Later d₅ :=
    (h₃.toLater.trans h₄.added.toLater).trans h₅.added.toLater
  have hlater : d₁.Later d₅ := h₂.toLater.trans hlater₂
  have hunset (hd : d₅.Unrepeated) {e : DerivedProperty} (he : e ∈ ds) {x : MemberDecl} (hx : x ∈ c.members)
      (hname : x.name = e.name) {p : PropertyDecl} (hp : x.kind = .property p) : p.setter = none := by
    obtain ⟨hnodup, hreg⟩ := hunrepeated (hlater.unrepeated hd)
    obtain ⟨t, ht, het⟩ := hget he
    have hall := hapart hreg (by rwa [annotatedMembers_fst]) hlisting
    exact Drafting.setter_of_placed (hall.placed t (hkept ht)) (hreg.later h₂.toLater) hx (hname.trans het.name) hp
  refine ⟨⟨⟨rfl, fun p hp => (hps p hp).1, hdistinct, fun d hd => ?_, fun f hf => ?_, fun k hk => (hcommands k hk).1, rfl⟩,
    hof, fun hd => ?_, fun hd => ?_, fun hd e he x hx hname p hp => hunset hd he hx hname hp, ?_, fun e he ho => ?_,
    fun hd => (hunrepeated (hlater.unrepeated hd)).1, fun hd k hk g hg => ?_, fun hd e he hnone => ?_⟩, rfl, rfl⟩
  · obtain ⟨t, ht, hdt⟩ := hget hd
    exact hdt.fits (hfits t (hkept ht))
  · obtain ⟨t, ht, function, hrecompute⟩ := hwritten f hf
    cases (hfits t (hkept ht)).written _ hrecompute with
    | projection declared projects => exact ⟨_, _, declared, projects⟩
  · obtain ⟨hnodup, hreg⟩ := hunrepeated (hlater.unrepeated hd)
    have hall := hapart hreg (by rwa [annotatedMembers_fst]) hlisting
    have hapart := hall.toApart.sublist (Staged.acyclic_sublist _)
    have hresolved {e : DerivedProperty} (he : e ∈ ds) :
        (Drafting.stagedSection c (annotatedMembers c).1 d₁).2.members.resolve? e.name = some e.property := by
      obtain ⟨t, ht, het⟩ := hget he
      rw [het.name, het.property]
      exact (hapart.placed t ht).resolved
    refine ⟨fun p hp => hlater.resolve? (hps p hp).2, fun d hd => hlater₂.resolve? (hresolved hd), ?_,
      fun p hp e he hname => ?_, ?_, not_transGen_feeds hof fun t ht => (Staged.mem_acyclic_iff hall.properties).mp ht,
      fun s i => ?_, fun k hk => ⟨fun p hp hname => ?_, fun e he hname => ?_⟩⟩
    · have hsame : ds.map DerivedProperty.name = (Staged.acyclic c.staged).map Staged.name := by
        have hmap : List.Forall₂ (fun n n' => n = n') (ds.map DerivedProperty.name)
            ((Staged.acyclic c.staged).map Staged.name) := by
          rw [List.forall₂_map_left_iff, List.forall₂_map_right_iff]
          exact hof.imp fun _ _ h => h.name
        exact List.forall₂_eq_eq_eq ▸ hmap
      show (ds.map DerivedProperty.name).Nodup
      rw [hsame]
      exact hapart.distinct
    · -- The property of a derived value has no setter, and that of a reactive one has one.
      obtain ⟨m, hm, hmname, decl, hdecl, hset⟩ := (hps p hp).1.declared
      rw [hunset hd he hm (hmname.trans hname) hdecl] at hset
      cases hset
    · show (fs.map fun f => f.name).Nodup
      rw [hfunctions]
      exact hapart.functions
    · show d₅.members[s]?.map _ = _ ↔ _
      rw [h₅.members, h₄.members, h₃.role_iff (h₂.underived hunderived) hapart.properties hapart.placed]
      constructor
      · rintro ⟨t, ht, rfl⟩
        obtain ⟨e, he, het⟩ := exists_getElem?_right hof ht
        exact ⟨e, he, het.property⟩
      · rintro ⟨e, he, rfl⟩
        obtain ⟨t, ht, het⟩ := exists_getElem?_left hof he
        exact ⟨t, ht, het.property.symm⟩
    · obtain ⟨m, hm, hmname, -⟩ := (hps p hp).1.declared
      refine (hcommands k hk).2.1 (((h₂.toLater.trans h₃.toLater).taken.map Prod.fst).subset (hnames _ ?_))
      exact hname ▸ hmname ▸ List.mem_map_of_mem hm
    · obtain ⟨i, hi, hiname⟩ := MemberTable.name_of_resolve? (h₃.toLater.resolve? (hresolved he))
      have htaken := h₃.listed (h₂.listed hlisted) i (List.mem_of_getElem? hi)
      exact (hcommands k hk).2.1 (hname ▸ hiname ▸ htaken)
  · obtain ⟨hnodup, hreg⟩ := hunrepeated (hlater.unrepeated hd)
    exact (hapart hreg (by rwa [annotatedMembers_fst]) hlisting).properties
  · show d₅.cycles = _
    rw [h₅.cycles, h₄.cycles, hreported, hcycles, List.nil_append]
  · obtain he | ⟨t, ht, horigin, hnotifies⟩ :=
      DerivedSection.mem_foldl_add (Staged.acyclic c.staged) ⟨[], .empty, []⟩
        (show e ∈ (DerivedSection.ofStaged (Staged.acyclic c.staged)).derived from hsection ▸ he)
    · cases he
    · rw [hnotifies]
      exact (hfits t (hkept ht)).silent (horigin ▸ of_decide_eq_true ho)
  · obtain ⟨i, hi, hiname, hrole⟩ := (hcommands k hk).2.2 g hg
    obtain ⟨hnodup, hreg⟩ := hunrepeated (hlater.unrepeated hd)
    have hall := hapart hreg (by rwa [annotatedMembers_fst]) hlisting
    -- The number of the property and the name that resolves to it stand for the same entry.
    have hsame {name : String} (hresolved : d₃.members.resolve? name = some g.property) : name = g.name := by
      obtain ⟨i', hi', hname⟩ := MemberTable.name_of_resolve? hresolved
      rw [← hname, ← hiname, Option.some.inj (hi'.symm.trans hi)]
    obtain hreactive | ⟨t, ht, htid⟩ := h₃.announced (h₂.underived hunderived) hi hrole
    · obtain hreactive | hnone := h₂.reactive _ hreactive
      · obtain ⟨p, hp, hpid⟩ := hreacts _ hreactive
        exact Or.inl ⟨p, hp, hsame (hpid ▸ (h₂.toLater.trans h₃.toLater).resolve? (hps p hp).2)⟩
      · cases hnone
    · obtain ⟨e, he, het⟩ := exists_mem_right hof ht
      refine Or.inr ⟨e, he, het.name.trans ?_⟩
      exact hsame (htid ▸ h₃.toLater.resolve? (hall.placed _ (hkept ht)).resolved)
  · obtain ⟨hnodup, hreg⟩ := hunrepeated (hlater.unrepeated hd.unrepeated)
    have hall := hapart hreg (by rwa [annotatedMembers_fst]) hlisting
    obtain ⟨t, ht, het⟩ := hget he
    have hrecompute := het.recompute
    rw [hnone] at hrecompute
    rw [het.name]
    refine hall.announced (hlater₂.clean hd) t (hkept ht) ?_
    generalize t.recompute = r at hrecompute
    cases hrecompute
    rfl

/-- What is known of the model that the steps of the analysis give is known of the model of a class, with the findings
about the class. -/
theorem Drafting.Yields.of_analyzeClass {s : DeclarationSet} {c : ClassDecl} {model : ClassModel}
    {P : ClassModel → Draft → Prop} (hyields : Yields (classModel s c) ⟨[], declaredNames c, []⟩ P)
    (h : (s.analyzeClass c).1 = some model) : ∃ d : Draft, d.findings = (s.analyzeClass c).2 ∧ P model d := by
  unfold DeclarationSet.analyzeClass at h ⊢
  split at h
  · cases h
  · rename_i hreactive
    split at h
    · cases h
    · rename_i hpartial
      rw [if_neg hreactive, if_neg hpartial]
      cases h
      exact ⟨_, rfl, hyields⟩

/-- The model of a class that is analyzed is built from it, with the findings about it. -/
theorem built_of_analyzeClass {s : DeclarationSet} {c : ClassDecl} {model : ClassModel}
    (h : (s.analyzeClass c).1 = some model) : ∃ d : Draft, d.findings = (s.analyzeClass c).2 ∧ model.Built c d ∧
      model.initMethod = s.conventions.initMethod ∧ model.declaredHooks = declaredHooks c :=
  (yields_classModel s c).of_analyzeClass h

theorem analyzeClass_eq_some {s : DeclarationSet} {c : ClassDecl} {model : ClassModel}
    (h : (s.analyzeClass c).1 = some model) : model.Analyzed c ∧ model.initMethod = s.conventions.initMethod ∧
      model.declaredHooks = declaredHooks c ∧ ((∀ f ∈ (s.analyzeClass c).2, f.isWarning = true) → model.Orderly) := by
  obtain ⟨d, hfindings, hbuilt, hinit, hhooks⟩ := built_of_analyzeClass h
  refine ⟨hbuilt.analyzed, hinit, hhooks, fun hwarnings => hbuilt.orderly (Draft.Clean.unrepeated fun f hf => ?_)⟩
  exact hwarnings f (hfindings ▸ hf)

end Reactive
