import Mathlib.Data.List.Perm.Basic
import Mathlib.Data.List.Range
import Reactive.Proofs.Arrivals
import Reactive.Proofs.Cutting

/-!
# Reactive.Proofs.Declaring — the locals of the init method

Each locale object is kept in a local of the init method.  The local has the name that was chosen for the object or, if
none was, a numbered one.

* `ClassModel.perm_objectNames`: the locals are the chosen names, and one numbered name for each object without a name.
* `locals_distinct_iff`: in the model of a class, locals have different names exactly if no name is chosen for objects
  of two registries and none is one of the numbered names.
-/

namespace Reactive

/-- The local that a statement declares for a locale object. -/
def Statement.declared? : Statement → Option String
  | .registerLocale _ _ object => some object
  | _ => none

theorem Statement.IsPlain.declared? {s : Statement} (h : s.IsPlain) : s.declared? = none := by
  cases s with
  | registerLocale registry grouping object => cases h.1
  | _ => rfl

namespace ClassModel

variable {m : ClassModel} {objects : List (String × LocaleGrouping)} {unnamed : Nat}

/-- The local of an object without a name, with `k` of them before it. -/
def numbered (k : Nat) : String := localeObject k none

/-- The names that are chosen for objects. -/
def chosenNames (objects : List (String × LocaleGrouping)) : List String := objects.filterMap (·.2.name)

/-- How many objects have no name. -/
def unnamedCount (objects : List (String × LocaleGrouping)) : Nat := objects.countP (·.2.name.isNone)

/-- The locals of objects, `unnamed` of them being without a name before. -/
def objectNames (unnamed : Nat) : List (String × LocaleGrouping) → List String
  | [] => []
  | (_, grouping) :: rest =>
    localeObject unnamed grouping.name :: objectNames (if grouping.name.isNone then unnamed + 1 else unnamed) rest

/-! ### What the locals are called -/

theorem toList_numbered (k : Nat) :
    (numbered k).toList = "i18nObject".toList ++ if k = 0 then [] else Nat.toDigits 10 (k + 1) := by
  unfold numbered localeObject
  by_cases hk : k = 0
  · simp [hk]
  · simp only [hk, if_false, String.toList_append, Json.toList_toString_nat]

theorem numbered_inj {i j : Nat} (h : numbered i = numbered j) : i = j := by
  have hdigits := congrArg String.toList h
  rw [toList_numbered, toList_numbered, List.append_cancel_left_eq] at hdigits
  by_cases hi : i = 0
  · by_cases hj : j = 0
    · rw [hi, hj]
    · rw [if_pos hi, if_neg hj] at hdigits
      exact absurd hdigits.symm Nat.toDigits_ne_nil
  · by_cases hj : j = 0
    · rw [if_neg hi, if_pos hj] at hdigits
      exact absurd hdigits Nat.toDigits_ne_nil
    · rw [if_neg hi, if_neg hj] at hdigits
      have := toDigits_inj (by omega) (by omega) hdigits
      omega

/-- The locals are the chosen names and, for the objects without a name, the next numbered ones. -/
theorem perm_objectNames (objects : List (String × LocaleGrouping)) (unnamed : Nat) :
    (objectNames unnamed objects).Perm
      (chosenNames objects ++ (List.range' unnamed (unnamedCount objects)).map numbered) := by
  induction objects generalizing unnamed with
  | nil => exact .refl _
  | cons object objects ih =>
    obtain ⟨registry, name, bindings⟩ := object
    cases name with
    | some name =>
      simp only [objectNames, chosenNames, unnamedCount, localeObject, Option.isNone_some, Bool.false_eq_true, if_false,
        List.filterMap_cons, List.countP_cons, Nat.add_zero, List.cons_append]
      exact (ih unnamed).cons name
    | none =>
      simp only [objectNames, chosenNames, unnamedCount, Option.isNone_none, if_true, List.filterMap_cons,
        List.countP_cons, List.range'_succ, List.map_cons]
      exact ((ih (unnamed + 1)).cons _).trans List.perm_middle.symm

/-- The locals are different exactly if the chosen names are, and none is a numbered one. -/
theorem nodup_objectNames : (objectNames 0 objects).Nodup ↔
    (chosenNames objects).Nodup ∧ ∀ k < unnamedCount objects, numbered k ∉ chosenNames objects := by
  have hnumbered : ((List.range' 0 (unnamedCount objects)).map numbered).Nodup :=
    (List.nodup_range' ..).map fun _ _ => numbered_inj
  rw [(perm_objectNames objects 0).nodup_iff, List.nodup_append]
  constructor
  · rintro ⟨hchosen, -, hapart⟩
    refine ⟨hchosen, fun k hk hmem => hapart _ hmem _ ?_ rfl⟩
    exact List.mem_map_of_mem (by simpa using hk)
  · rintro ⟨hchosen, hapart⟩
    refine ⟨hchosen, hnumbered, ?_⟩
    rintro name hname _ hmem rfl
    obtain ⟨k, hk, rfl⟩ := List.mem_map.mp hmem
    exact hapart k (by simpa using hk) hname

/-! ### The statements of the init method -/

theorem declared_registration (registry object : String) (grouping : LocaleGrouping) :
    (registration registry object grouping).filterMap Statement.declared? = [object] := by
  have hbindings : (grouping.bindings.map fun b => Statement.addLocaleProperty object b.keyName b.targetName
      b.retain).filterMap Statement.declared? = [] := by
    rw [List.filterMap_map]
    exact List.filterMap_eq_nil_iff.mpr fun _ _ => rfl
  rw [registration, List.filterMap_cons_some (by rfl), hbindings]

theorem declared_registrations (objects : List (String × LocaleGrouping)) (unnamed : Nat) :
    (registrations unnamed objects).filterMap Statement.declared? = objectNames unnamed objects := by
  induction objects generalizing unnamed with
  | nil => rfl
  | cons object objects ih =>
    rw [registrations, List.filterMap_append, declared_registration, ih]
    rfl

/-- The init method declares one local for each locale object, and no others. -/
theorem declared_initBody : m.initBody.filterMap Statement.declared? = objectNames 0 m.localeObjects := by
  rw [initBody, List.filterMap_append, declared_registrations]
  have hplain : ((m.initializationOrder.filterMap (m.derived[·]?)).flatMap m.initialSteps).filterMap
      Statement.declared? = [] := List.filterMap_eq_nil_iff.mpr fun s hs => (initBody_isPlain hs).declared?
  rw [hplain, List.nil_append]

end ClassModel

/-! ### The names that are chosen in a class -/

/-- The names that are chosen for objects of a registry. -/
def namesIn (placed : List PlacedBinding) (registry : String) : List String :=
  (LocaleGrouping.of (placed.filter (·.registry = registry))).filterMap LocaleGrouping.name

theorem mem_namesIn {placed : List PlacedBinding} {registry name : String} :
    name ∈ namesIn placed registry ↔ ∃ p ∈ placed, p.registry = registry ∧ p.grouping = some name := by
  simp [namesIn, LocaleGrouping.of, List.mem_eraseDups, and_assoc]

theorem nodup_namesIn (placed : List PlacedBinding) (registry : String) : (namesIn placed registry).Nodup := by
  unfold namesIn LocaleGrouping.of
  rw [List.filterMap_map]
  refine (nodup_eraseDups _).filterMap fun name name' n hn hn' => ?_
  exact (Option.mem_def.mp hn).trans (Option.mem_def.mp hn').symm

theorem chosenNames_of {m : ClassModel} {placed : List PlacedBinding} (h : m.localeGroups = LocaleGroup.of placed) :
    ClassModel.chosenNames m.localeObjects =
      (placed.map PlacedBinding.registry).eraseDups.flatMap (namesIn placed) := by
  unfold ClassModel.chosenNames ClassModel.localeObjects
  rw [h, LocaleGroup.of, List.flatMap_map, List.filterMap_flatMap]
  refine List.flatMap_congr fun registry _ => ?_
  rw [List.filterMap_map]
  rfl

theorem mem_chosenNames {m : ClassModel} {placed : List PlacedBinding} (h : m.localeGroups = LocaleGroup.of placed)
    {name : String} : name ∈ ClassModel.chosenNames m.localeObjects ↔ ∃ p ∈ placed, p.grouping = some name := by
  rw [chosenNames_of h, List.mem_flatMap]
  constructor
  · rintro ⟨registry, -, hname⟩
    obtain ⟨p, hp, -, hgrouping⟩ := mem_namesIn.mp hname
    exact ⟨p, hp, hgrouping⟩
  · rintro ⟨p, hp, hgrouping⟩
    exact ⟨p.registry, List.mem_eraseDups.mpr (List.mem_map_of_mem hp), mem_namesIn.mpr ⟨p, hp, rfl, hgrouping⟩⟩

/-- A chosen name is repeated exactly if it is chosen for objects of two registries. -/
theorem nodup_chosenNames {m : ClassModel} {placed : List PlacedBinding} (h : m.localeGroups = LocaleGroup.of placed) :
    (ClassModel.chosenNames m.localeObjects).Nodup ↔
      ∀ p ∈ placed, ∀ q ∈ placed, p.grouping.isSome = true → p.grouping = q.grouping → p.registry = q.registry := by
  rw [chosenNames_of h, List.nodup_flatMap]
  constructor
  · rintro ⟨-, hapart⟩ p hp q hq hsome hgrouping
    by_contra hne
    obtain ⟨name, hname⟩ := Option.isSome_iff_exists.mp hsome
    have hregistry {r : PlacedBinding} (hr : r ∈ placed) : r.registry ∈ (placed.map PlacedBinding.registry).eraseDups :=
      List.mem_eraseDups.mpr (List.mem_map_of_mem hr)
    have : Std.Symm (Function.onFun List.Disjoint (namesIn placed)) := ⟨fun _ _ h => List.Disjoint.symm h⟩
    have hdisjoint := hapart.forall (hregistry hp) (hregistry hq) hne
    exact hdisjoint (mem_namesIn.mpr ⟨p, hp, rfl, hname⟩) (mem_namesIn.mpr ⟨q, hq, rfl, hgrouping ▸ hname⟩)
  · intro hone
    refine ⟨fun registry _ => nodup_namesIn placed registry, ?_⟩
    refine (nodup_eraseDups _).pairwise_of_forall_ne fun registry _ registry' _ hne name hname hname' => hne ?_
    obtain ⟨p, hp, rfl, hgrouping⟩ := mem_namesIn.mp hname
    obtain ⟨q, hq, rfl, hgrouping'⟩ := mem_namesIn.mp hname'
    exact hone p hp q hq (by rw [hgrouping]; rfl) (hgrouping.trans hgrouping'.symm)

/-- **The locals of locale objects.**  The init method of a class has a local for each locale object.  They have
different names exactly if no name is chosen for objects of two registries, and none is chosen that an object without a
name gets from its number. -/
theorem locals_distinct_iff {s : DeclarationSet} {c : ClassDecl} {model : ClassModel}
    (analyzed : (s.analyzeClass c).1 = some model) :
    (model.initBody.filterMap Statement.declared?).Nodup ↔
      (∀ p ∈ c.placed model.members, ∀ q ∈ c.placed model.members, p.grouping.isSome = true → p.grouping = q.grouping →
        p.registry = q.registry) ∧
      ∀ p ∈ c.placed model.members, ∀ k < ClassModel.unnamedCount model.localeObjects,
        p.grouping ≠ some (ClassModel.numbered k) := by
  obtain ⟨draft, -, hgroups⟩ := (Drafting.yields_classModel_localeGroups s c).of_analyzeClass analyzed
  rw [ClassModel.declared_initBody, ClassModel.nodup_objectNames, nodup_chosenNames hgroups]
  refine and_congr_right fun _ => ?_
  simp only [mem_chosenNames hgroups]
  constructor
  · exact fun hnone p hp k hk hgrouping => hnone k hk ⟨p, hp, hgrouping⟩
  · rintro hnone k hk ⟨p, hp, hgrouping⟩
    exact hnone p hp k hk hgrouping

/-- The storefront is analyzed with no findings, and two signs in two registries are kept in locals of one name. -/
theorem locals_repeat_storefront : storefrontFile.analyze.findings = [] ∧
    storefrontFile.analyze.models.map (fun m => m.initBody.filterMap Statement.declared?) =
      [["Sign", "i18nObject", "Sign"]] := by
  decide +kernel

end Reactive
