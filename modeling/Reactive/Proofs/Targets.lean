import Reactive.Proofs.Dangling

/-!
# Reactive.Proofs.Targets — how many values a property is the target of

* `ClassModel.Placed`: the numbers of reactive properties and of derived values stand for entries of their names.
* `one_cached_target`: fields are named after properties, and no name is taken twice, so no property has the fields of two
  values.
-/

namespace Reactive

/-- Reactive properties and derived values are known as the properties of their names. -/
structure ClassModel.Placed (m : ClassModel) : Prop where
  mutable : ∀ p ∈ m.mutableProperties, m.members[p.id]?.map PropertyInfo.name = some p.name
  derived : ∀ d ∈ m.derived, m.members[d.property]?.map PropertyInfo.name = some d.name

namespace Drafting

theorem yields_classModel_placed (s : DeclarationSet) (c : ClassDecl) :
    Yields (classModel s c) ⟨[], declaredNames c, []⟩ fun model _ => model.Placed := by
  rw [classModel_eq]
  refine (yields_properties c).bind ?_
  rintro ps d₁ ⟨-, hps, -⟩
  have hbound := yields_stagedSection_bound c (annotatedMembers c).1 d₁
  have h₂ := (adds_stagedSection c (annotatedMembers c).1 d₁).toLater
  refine (yields_derivedSection c (annotatedMembers c).1 d₁).bind ?_
  rintro _ d₃ ⟨rfl, h₃, -⟩
  refine Yields.bind (Q := fun _ d => d₃.Later d) ((notes_commands _).yields d₃) fun commands d₄ h₄ => ?_
  refine Yields.bind (Q := fun _ d => d₄.Later d) ((notes_localeGroups _ []).yields d₄) fun groups d₅ h₅ => ?_
  have hlater := (h₃.toLater.trans h₄).trans h₅
  obtain ⟨ds, fs, hsection, hof, -⟩ :=
    DerivedSection.ofStaged_eq (Staged.acyclic (stagedSection c (annotatedMembers c).1 d₁).1)
  rw [hsection]
  refine ⟨fun p hp => ?_, fun d hd => ?_⟩
  · obtain ⟨i, hi, hname⟩ := MemberTable.name_of_resolve? ((h₂.trans hlater).resolve? (hps p hp).2)
    exact Option.map_eq_some_iff.mpr ⟨i, hi, hname⟩
  · obtain ⟨t, ht, hdt⟩ := exists_mem_left hof hd
    have hknown := (hbound t ((Staged.acyclic_sublist _).subset ht)).known
    rw [hdt.property, hdt.name]
    exact hlater.name_getElem? hknown

end Drafting

/-- Two values of a list that have a name in common are the same one, if all names are different. -/
theorem eq_of_nodup_flatMap {α β : Type} {f : α → List β} {xs : List α} (h : (xs.flatMap f).Nodup) {i j : Nat} {x y : α}
    (hx : xs[i]? = some x) (hy : xs[j]? = some y) {n : β} (hnx : n ∈ f x) (hny : n ∈ f y) : i = j := by
  have hpairs := List.pairwise_iff_getElem.mp (List.nodup_flatMap.mp h).2
  obtain ⟨hi, rfl⟩ := List.getElem?_eq_some_iff.mp hx
  obtain ⟨hj, rfl⟩ := List.getElem?_eq_some_iff.mp hy
  obtain hlt | heq | hlt := Nat.lt_trichotomy i j
  · exact absurd hny (hpairs i j hi hj hlt hnx)
  · exact heq
  · exact absurd hnx (hpairs j i hj hi hlt hny)

/-- A cached value has the field that is named after its property. -/
theorem DerivedProperty.Fits.slot_mem {c : ClassDecl} {statics : List HoistedFunction} {d : DerivedProperty}
    (h : d.Fits c statics) (hcached : d.cache.isCached = true) :
    Naming.slot d.name ∈ cacheNames d.origin d.name d.slot := by
  obtain ⟨slot, hslot⟩ := Option.isSome_iff_exists.mp (h.cached hcached).1
  rw [hslot, ← (h.named slot hslot).1]
  exact List.mem_cons_self

/-- **No property has two cached values.**  Of two derived values of one property one is not cached, and a derived value of
a reactive property is not cached.  If no name is found to be taken, then no property is the target of two derived values,
and no reactive property is the target of one. -/
theorem one_cached_target {s : DeclarationSet} {c : ClassDecl} {model : ClassModel}
    (h : (s.analyzeClass c).1 = some model) :
    (∀ (i j : Nat) (x y : DerivedProperty), model.derived[i]? = some x → model.derived[j]? = some y → x.property = y.property →
      x.cache.isCached = true → y.cache.isCached = true → i = j) ∧
    (∀ p ∈ model.mutableProperties, ∀ d ∈ model.derived, p.id = d.property → d.cache.isCached = false) ∧
    ((∀ f ∈ (s.analyzeClass c).2, f.code ≠ "RX0002") → (model.derived.map DerivedProperty.property).Nodup ∧
      ∀ p ∈ model.mutableProperties, ∀ d ∈ model.derived, p.id ≠ d.property) := by
  unfold DeclarationSet.analyzeClass at h ⊢
  split at h
  · cases h
  · rename_i hreactive
    split at h
    · cases h
    · rename_i hpartial
      rw [if_neg hreactive, if_neg hpartial]
      cases h
      obtain ⟨⟨⟨hbuilt, -, -⟩, hplaced⟩, htakes⟩ := ((yields_classModel s c).and
        (Drafting.yields_classModel_placed s c)).and (Drafting.yields_classModel_names s c)
      have hnames := htakes.distinct
      unfold ClassModel.generatedNames at hnames
      simp only [List.append_assoc, List.nodup_append] at hnames
      obtain ⟨-, ⟨hderived, -⟩, hapart⟩ := hnames
      -- One property has one name.
      have hname {id : PropertyId} {n n' : String} {t : MemberTable} (hn : t[id]?.map PropertyInfo.name = some n)
          (hn' : t[id]?.map PropertyInfo.name = some n') : n = n' := Option.some.inj (hn.symm.trans hn')
      refine ⟨fun i j x y hx hy hsame hcx hcy => ?_, fun p hp d hd hsame => ?_, fun hunrepeated => ⟨?_, ?_⟩⟩
      · have hxmem := List.mem_of_getElem? hx
        have hymem := List.mem_of_getElem? hy
        have hxy : x.name = y.name := hname (hplaced.derived x hxmem) (hsame ▸ hplaced.derived y hymem)
        have hslot : Naming.slot x.name ∈ cacheNames y.origin y.name y.slot := by
          rw [hxy]
          exact (hbuilt.analyzed.derived y hymem).slot_mem hcy
        exact eq_of_nodup_flatMap hderived hx hy ((hbuilt.analyzed.derived x hxmem).slot_mem hcx) hslot
      · have hpd : p.name = d.name := hname (hplaced.mutable p hp) (hsame ▸ hplaced.derived d hd)
        refine Bool.eq_false_iff.mpr fun hcached => ?_
        have htaken : Naming.slot p.name ∈ p.takenNames := by
          rw [MutableProperty.takenNames, (hbuilt.analyzed.mutable p hp).slot]
          exact List.mem_cons_self
        have hslot := (hbuilt.analyzed.derived d hd).slot_mem hcached
        refine hapart _ (List.mem_flatMap.mpr ⟨p, hp, htaken⟩) _ ?_ rfl
        exact List.mem_append_left _ (List.mem_flatMap.mpr ⟨d, hd, hpd ▸ hslot⟩)
      · refine List.pairwise_map.mpr ((List.pairwise_map.mp (hbuilt.orderly hunrepeated).distinct).imp_of_mem ?_)
        intro x y hx hy hne hsame
        exact hne (hname (hplaced.derived x hx) (hsame ▸ hplaced.derived y hy))
      · intro p hp d hd hsame
        exact (hbuilt.orderly hunrepeated).apart p hp d hd
          (hname (hplaced.mutable p hp) (hsame ▸ hplaced.derived d hd))

/-- A sum that is declared twice, uncached. -/
def twins : ClassDecl where
  name := "Twins"
  typeParams := []
  modifiers := [.partial_]
  bases := [⟨"IReactiveObject", [], false⟩]
  members :=
    let sum := ⟨"Sum", [⟨"Derived", [⟨none, .path ["CacheMode", "Disabled"], .none⟩, ⟨none, .string "Part", .none⟩], .none⟩],
      [], .property ⟨⟨"int", [], false⟩, some ⟨some (.name "Part" .none), .none⟩, none, none⟩, .none, .none⟩
    [⟨"Part", [⟨"Reactive", [], .none⟩], [],
        .property ⟨⟨"int", [], false⟩, some ⟨none, .none⟩, some ⟨none, .none⟩, none⟩, .none, .none⟩, sum, sum]
  nameSpan := .none
  span := .none

/-- What is found wrong with the second declaration does not keep it from being a derived value. -/
example : ((DeclarationSet.mk "" "" ⟨[], none, [twins]⟩ default).analyzeClass twins).1.map
    (fun m => m.derived.map fun d => (d.property, d.cache.isCached)) = some [(1, false), (1, false)] := by decide +kernel

end Reactive
