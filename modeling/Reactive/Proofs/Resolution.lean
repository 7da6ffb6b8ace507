import Reactive.Proofs.Circles
import Reactive.Proofs.Lookups

/-!
# Reactive.Proofs.Resolution — what the findings about sources and reads say

A source is reported if it is no property, and a read if it is one of a property that is no source.  Both are decided
when the value is staged, so a property that a derived method behind adds is not known yet, and an announcement is no
source yet.

* `ClassDecl.ComputedBy`: the derived member that computes a property.
* `unknown_sources_missing`, `unknown_sources_exact`: the sources that are reported are those that are no properties of
  the model, if they are not added behind.
* `ClassModel.Undeclared`, `undeclared_reads_exact`: the reads that are reported are the undeclared ones, if they are
  neither added behind nor announced.
* `undeclared_reads_unnoticed`: each of the reads that are left out can be reported without need, or not at all.
-/

namespace Reactive

theorem MemberTable.resolve?_inj {t : MemberTable} {n n' : String} {id : PropertyId} (h : t.resolve? n = some id)
    (h' : t.resolve? n' = some id) : n = n' := by
  obtain ⟨i, hi, rfl⟩ := name_of_resolve? h
  obtain ⟨i', hi', rfl⟩ := name_of_resolve? h'
  rw [Option.some.inj (hi.symm.trans hi')]

/-- The member announces the changes of its property for the property `target`. -/
def MemberDecl.Announces (m : MemberDecl) (target : String) : Prop :=
  m.property?.isSome = true ∧
    ∃ a, findKind .notifyFor ( Annotation.ofMember m).1 = some a ∧ target ∈ a.strings "Targets"

theorem Drafting.Announces.of_class {c : ClassDecl} {m : MemberDecl} {a : Annotation} {target : String}
    (h : Announces (annotatedMembers c).1 m a target) : m ∈ c.members ∧ m.Announces target := by
  obtain ⟨annotations, hrecord, ha⟩ := h.annotated
  rw [annotatedMembers_eq] at hrecord
  obtain ⟨m', hm', heq⟩ := List.mem_map.mp hrecord
  cases heq
  exact ⟨hm', h.property, a, ha, h.named⟩

theorem MemberDecl.Adds.of_fixed {m : MemberDecl} {i i' : PropertyInfo} (h : m.Adds i) (hsame : i.fixed = i'.fixed) :
    m.Adds i' := by
  obtain ⟨a, ha, hmethod, hexposed, hsynthesized, hspan⟩ := h
  have hname : i.fixed.name = i'.fixed.name := congrArg PropertyInfo.name hsame
  have hsynthesized' : i.fixed.synthesized = i'.fixed.synthesized := congrArg PropertyInfo.synthesized hsame
  have hspan' : i.fixed.span = i'.fixed.span := congrArg PropertyInfo.span hsame
  exact ⟨a, ha, hmethod, hexposed.trans (congrArg some hname), hsynthesized'.symm.trans hsynthesized,
    hspan'.symm.trans hspan⟩

/-- The property `name` is computed by the member `m` alone, which stands between `before` and `after`: `m` is derived and
exposed as `name`, what is staged under that name, helpers apart, is declared where `m` is, and no other member that is
exposed as `name` is declared there. -/
structure ClassDecl.ComputedBy (c : ClassDecl) (name : String) (before : List MemberDecl) (m : MemberDecl)
    (after : List MemberDecl) (a : Annotation) : Prop where
  members : c.members = before ++ m :: after
  derived : m.derived? = some a
  exposed : m.exposed? = some name
  staged : ∀ t ∈ c.staged, t.name = name → t.origin ≠ .observable → t.span = m.nameSpan
  apart : ∀ y ∈ before ++ after, y.exposed? = some name → y.nameSpan ≠ m.nameSpan

section

variable {s : DeclarationSet} {c : ClassDecl} {model : ClassModel}

theorem lookedUp_of_analyzeClass (h : (s.analyzeClass c).1 = some model) :
    ∃ staged d₁ d₂, model.LookedUp c (s.analyzeClass c).2 staged d₁ d₂ := by
  obtain ⟨d, hfindings, hlooked⟩ := (Drafting.yields_classModel_lookups s c).of_analyzeClass h
  rwa [hfindings] at hlooked

section

variable {findings : List Finding} {staged : List Staged} {d₁ d₂ : Draft} (h : model.LookedUp c findings staged d₁ d₂)

include h

theorem ClassModel.LookedUp.names : model.members.map PropertyInfo.name = d₂.names := by
  let d : Draft := { d₂ with members := model.members }
  have hfixed : d.members.map PropertyInfo.fixed = d₂.members.map PropertyInfo.fixed := h.fixed
  exact Draft.names_of_fixed hfixed

/-- What is a property of the model is known in a lookup, or has been added for a derived method behind. -/
theorem ClassModel.LookedUp.behind (l : Lookup c.members staged d₁ d₂) {i : PropertyInfo} (hi : i ∈ model.members) :
    i.name ∈ l.names ∨ ∃ y ∈ l.after, y.Adds i := by
  have hfixed : i.fixed ∈ d₂.members.map PropertyInfo.fixed := h.fixed ▸ List.mem_map_of_mem hi
  obtain ⟨i', hi', hsame⟩ := List.mem_map.mp hfixed
  have hname : i'.fixed.name = i.fixed.name := congrArg PropertyInfo.name hsame
  show i.fixed.name ∈ _ ∨ _
  rw [← hname]
  exact (l.behind i' hi').imp_right fun ⟨y, hy, hadds⟩ => ⟨y, hy, hadds.of_fixed hsame⟩

theorem ClassModel.LookedUp.mem_names (l : Lookup c.members staged d₁ d₂) {n : String}
    (hknown : ∀ i ∈ model.members, i.name = n → ∀ y ∈ l.after, ¬ y.Adds i) :
    n ∈ model.members.map PropertyInfo.name ↔ n ∈ l.names := by
  refine ⟨fun hn => ?_, fun hn => h.names ▸ l.kept hn⟩
  obtain ⟨i, hi, rfl⟩ := List.mem_map.mp hn
  exact (h.behind l hi).resolve_right fun ⟨y, hy, hadds⟩ => hknown i hi rfl y hy hadds

/-- What is looked up under the name of a value is the member that computes it. -/
theorem ClassModel.LookedUp.member_eq {name : String} {before after : List MemberDecl} {m : MemberDecl} {a : Annotation}
    (hm : c.ComputedBy name before m after a) (l : Lookup c.members staged d₁ d₂) (hl : l.value.name = name) :
    l.member = m ∧ l.after = after ∧ l.annotation = a := by
  have hspan : l.member.nameSpan = m.nameSpan := by
    obtain ⟨t, ht, hlt⟩ := h.kept l
    have hstaged := hm.staged t ht
    rw [hlt.same] at hstaged
    exact l.span.symm.trans (hstaged hl l.own)
  have hothers : l.member ∉ before ++ after := fun hmem => hm.apart _ hmem (hl ▸ l.exposed) hspan
  have hsplit := hm.members.symm.trans l.split
  rw [List.append_cons_inj_of_notMem (fun hmem => hothers (List.mem_append_left _ hmem))
    (fun hmem => hothers (List.mem_append_right _ hmem))] at hsplit
  obtain ⟨-, rfl, rfl⟩ := hsplit
  exact ⟨rfl, rfl, Option.some.inj (l.derived.symm.trans hm.derived)⟩

/-- A read is reported if it is one of another property that is not declared as a source. -/
theorem ClassModel.LookedUp.undeclared_iff {name : String} {before after : List MemberDecl} {m : MemberDecl}
    {a : Annotation} (hm : c.ComputedBy name before m after a) (l : Lookup c.members staged d₁ d₂)
    (hl : l.value.name = name) {r : String} (hknown : ∀ i ∈ model.members, i.name = r → ∀ y ∈ after, ¬ y.Adds i) :
    FindingCause.undeclaredRead name r ∈ findings.map Finding.cause ↔ (∃ read ∈ m.reads, read.name = r) ∧ r ≠ name ∧
      r ∉ a.strings "Sources" ∧ r ∈ model.members.map PropertyInfo.name := by
  constructor
  · intro hcause
    obtain ⟨⟨_, span⟩, hspan, rfl⟩ := List.mem_map.mp hcause
    obtain ⟨l', hl'⟩ | ⟨_, _, hother, -⟩ := h.found _ hspan rfl
    · obtain ⟨rfl, ⟨read, hread, hreadname, -⟩, hother, hundeclared, hin⟩ := Annotation.mem_lookup_undeclared.mp hl'
      obtain ⟨rfl, rfl, rfl⟩ := h.member_eq hm l' rfl
      exact ⟨⟨read, hread, hreadname⟩, hother, hundeclared, (h.mem_names l' hknown).mpr hin⟩
    · cases hother
  · rintro ⟨⟨read, hread, hreadname⟩, hother, hundeclared, hproperty⟩
    obtain ⟨rfl, rfl, rfl⟩ := h.member_eq hm l hl
    refine List.mem_map.mpr ⟨⟨.undeclaredRead name r, read.span⟩, h.reported (l.found _ ?_), rfl⟩
    exact Annotation.mem_lookup_undeclared.mpr ⟨hl.symm, ⟨read, hread, hreadname, rfl⟩, hl ▸ hother, hundeclared,
      (h.mem_names l hknown).mp hproperty⟩

/-- The sources of a value are the declared ones, and what announces its changes. -/
theorem ClassModel.LookedUp.mem_sources_iff (l : Lookup c.members staged d₁ d₂) {t : Staged}
    (ht : Drafting.Extends (annotatedMembers c).1 d₂ l.value t) {r : String} (hr : r ∈ l.names)
    (hannounced : r ∈ l.annotation.strings "Sources" ∨ ∀ y ∈ c.members, y.name = r → ¬ y.Announces l.value.name) :
    (∃ id ∈ t.sources, model.members.resolve? r = some id) ↔ r ∈ l.annotation.strings "Sources" := by
  rw [h.resolved]
  constructor
  · rintro ⟨id, hid, hresolved⟩
    obtain hid | ⟨y, b, hannounces, hy⟩ := ht.announced id hid
    · obtain ⟨n, hn, -, hnid⟩ := (l.sources id).mp hid
      rwa [MemberTable.resolve?_inj hresolved hnid]
    · obtain ⟨hmem, hannounces⟩ := hannounces.of_class
      exact hannounced.resolve_right fun hnone => hnone y hmem (MemberTable.resolve?_inj hy hresolved) hannounces
  · intro hdeclared
    cases hresolved : d₂.members.resolve? r with
    | none => exact absurd (l.kept hr) (Draft.resolve?_eq_none_iff.mp hresolved)
    | some id => exact ⟨id, ht.kept ((l.sources id).mpr ⟨r, hdeclared, hr, hresolved⟩), rfl⟩

end

/-- A source that is reported to be no property is not declared.  If it is a property of the model after all, it has been
added for a derived method behind the member that names it. -/
theorem unknown_sources_missing (h : (s.analyzeClass c).1 = some model) {f : Finding} (hf : f ∈ (s.analyzeClass c).2)
    {name source : String} (hcause : f.cause = .unknownSource name source) :
    source ∉ propertyNames c.members ∧ (source ∈ model.members.map PropertyInfo.name →
      ∃ before m after a, c.members = before ++ m :: after ∧ m.derived? = some a ∧ m.exposed? = some name ∧
        source ∈ a.strings "Sources" ∧ ∃ y ∈ after, ∃ i ∈ model.members, i.name = source ∧ y.Adds i) := by
  obtain ⟨staged, d₁, d₂, hlooked⟩ := lookedUp_of_analyzeClass h
  obtain ⟨cause, span⟩ := f
  obtain rfl : cause = .unknownSource name source := hcause
  obtain ⟨l, hl⟩ | ⟨name', source', hsame, hmissing⟩ := hlooked.found _ hf rfl
  · obtain ⟨rfl, -, hsource, hmissing⟩ := Annotation.mem_lookup_unknown.mp hl
    refine ⟨fun hdeclared => hmissing (l.known (hlooked.declared hdeclared)), fun hin => ?_⟩
    obtain ⟨i, hi, rfl⟩ := List.mem_map.mp hin
    obtain ⟨y, hy, hadds⟩ := (hlooked.behind l hi).resolve_left hmissing
    exact ⟨l.before, l.member, l.after, l.annotation, l.split, l.derived, l.exposed, hsource, y, hy, i, hi, rfl, hadds⟩
  · cases hsame
    rw [← hlooked.names] at hmissing
    exact ⟨fun hdeclared => hmissing (hlooked.names ▸ hlooked.grown (hlooked.declared hdeclared)),
      fun hin => absurd hin hmissing⟩

/-- A source of a derived member that is staged and computed is reported if it is no property of the model, unless it has
been added for a derived method behind. -/
theorem unknown_sources_exact (h : (s.analyzeClass c).1 = some model) {t : Staged} (ht : t ∈ c.staged)
    (hcomputed : t.recompute.isSome = true) (hown : t.origin ≠ .observable) {before after : List MemberDecl}
    {m : MemberDecl} {a : Annotation} (hm : c.ComputedBy t.name before m after a) {source : String}
    (hsource : source ∈ a.strings "Sources")
    (hknown : ∀ i ∈ model.members, i.name = source → ∀ y ∈ after, ¬ y.Adds i) :
    FindingCause.unknownSource t.name source ∈ (s.analyzeClass c).2.map Finding.cause ↔
      source ∉ model.members.map PropertyInfo.name := by
  obtain ⟨staged, d₁, d₂, hlooked⟩ := lookedUp_of_analyzeClass h
  obtain ⟨l, hlt⟩ := hlooked.derived t ht hcomputed hown
  have hl : l.value.name = t.name := by rw [hlt.same]
  constructor
  · intro hcause
    obtain ⟨⟨_, span⟩, hspan, rfl⟩ := List.mem_map.mp hcause
    obtain ⟨l', hl'⟩ | ⟨_, _, hsame, hmissing⟩ := hlooked.found _ hspan rfl
    · obtain ⟨hl', -, -, hmissing⟩ := Annotation.mem_lookup_unknown.mp hl'
      obtain ⟨-, rfl, -⟩ := hlooked.member_eq hm l' hl'.symm
      rwa [hlooked.mem_names l' hknown]
    · cases hsame
      rwa [hlooked.names]
  · intro hmissing
    obtain ⟨-, rfl, rfl⟩ := hlooked.member_eq hm l hl
    refine List.mem_map.mpr ⟨⟨.unknownSource t.name source, l.annotation.span⟩, hlooked.reported (l.found _ ?_), rfl⟩
    refine Annotation.mem_lookup_unknown.mpr ⟨hl.symm, rfl, hsource, fun hin => hmissing ?_⟩
    exact (hlooked.mem_names l hknown).mpr hin

/-- A shelf whose price is said to be computed from its double width, a property that is added behind. -/
def shelf : ClassDecl where
  name := "Shelf"
  typeParams := []
  modifiers := [.partial_]
  bases := [⟨"IReactiveObject", [], false⟩]
  members :=
    [⟨"Width", [⟨"Reactive", [], .none⟩], [],
        .property ⟨⟨"int", [], false⟩, some ⟨none, .none⟩, some ⟨none, .none⟩, none⟩, .none, .none⟩,
      derivedFrom "Price" ["Doubled"] (.name "Doubled" .none),
      derivedBy "Twice" "Doubled" ["Width"] (.binary .add (.name "Width" .none) (.name "Width" .none) .none)]
  nameSpan := .none
  span := .none

/-- The source is reported to be no property, and is one of the model. -/
example : ((DeclarationSet.mk "" "" ⟨[], none, [shelf]⟩ default).analyzeClass shelf).2.map Finding.cause =
      [.unknownSource "Price" "Doubled"] ∧
    ((DeclarationSet.mk "" "" ⟨[], none, [shelf]⟩ default).analyzeClass shelf).1.map
      (fun m => m.members.map PropertyInfo.name) = some ["Width", "Price", "Doubled"] := by decide +kernel

/-- The body reads `r`, which is a property of the model and neither the value itself nor one of its sources. -/
def ClassModel.Undeclared (m : ClassModel) (x : DerivedProperty) (body : Expr) (r : String) : Prop :=
  (∃ read ∈ body.memberReads, read.name = r) ∧ r ∈ m.members.map PropertyInfo.name ∧ r ≠ x.name ∧
    ∀ id ∈ x.sources, m.members.resolve? r ≠ some id

/-- A read of a derived member that is kept and computed is reported if it is undeclared, unless the property has been
added for a derived method behind, or announces the changes of the value without being declared as a source. -/
theorem undeclared_reads_exact (h : (s.analyzeClass c).1 = some model) {x : DerivedProperty} (hx : x ∈ model.derived)
    (hcomputed : x.recompute.isSome = true) (hown : x.origin ≠ .observable) {before after : List MemberDecl}
    {m : MemberDecl} {a : Annotation} (hm : c.ComputedBy x.name before m after a) {body : Expr}
    (hbody : m.expression? = some body) {r : String}
    (hknown : ∀ i ∈ model.members, i.name = r → ∀ y ∈ after, ¬ y.Adds i)
    (hannounced : r ∈ a.strings "Sources" ∨ ∀ y ∈ c.members, y.name = r → ¬ y.Announces x.name) :
    FindingCause.undeclaredRead x.name r ∈ (s.analyzeClass c).2.map Finding.cause ↔ model.Undeclared x body r := by
  obtain ⟨staged, d₁, d₂, hlooked⟩ := lookedUp_of_analyzeClass h
  obtain ⟨_, -, hbuilt, -, -⟩ := built_of_analyzeClass h
  obtain ⟨t, ht, hxt⟩ := exists_mem_left hbuilt.kept hx
  obtain ⟨l, hlt⟩ := hlooked.derived t ((Staged.acyclic_sublist _).subset ht) (hxt.isSome_recompute ▸ hcomputed)
    (hxt.origin ▸ hown)
  have hl : l.value.name = x.name := by rw [hxt.name, hlt.same]
  have hreads : m.reads = body.memberReads := by
    rw [MemberDecl.reads, hbody]
    rfl
  obtain ⟨-, rfl, rfl⟩ := hlooked.member_eq hm l hl
  have hsource (hr : r ∈ model.members.map PropertyInfo.name) :
      (∃ id ∈ x.sources, model.members.resolve? r = some id) ↔ r ∈ l.annotation.strings "Sources" := by
    rw [hxt.sources]
    exact hlooked.mem_sources_iff l hlt ((hlooked.mem_names l hknown).mp hr) (hl ▸ hannounced)
  rw [hlooked.undeclared_iff hm l hl hknown, hreads]
  constructor
  · rintro ⟨hread, hother, hundeclared, hproperty⟩
    exact ⟨hread, hproperty, hother, fun id hid hresolved => hundeclared ((hsource hproperty).mp ⟨id, hid, hresolved⟩)⟩
  · rintro ⟨hread, hproperty, hother, hnone⟩
    refine ⟨hread, hother, fun hdeclared => ?_, hproperty⟩
    obtain ⟨id, hid, hresolved⟩ := (hsource hproperty).mpr hdeclared
    exact hnone id hid hresolved

end

instance (m : ClassModel) (x : DerivedProperty) (body : Expr) (r : String) : Decidable (m.Undeclared x body r) :=
  inferInstanceAs (Decidable (_ ∧ _ ∧ _ ∧ _))

/-- A bill states a price and a tax.  Its total is said to be computed from the price, and half of it is added behind. -/
def bill : ClassDecl where
  name := "Bill"
  typeParams := []
  modifiers := [.partial_]
  bases := [⟨"IReactiveObject", [], false⟩]
  members :=
    [⟨"Price", [⟨"Reactive", [], .none⟩], [],
        .property ⟨⟨"int", [], false⟩, some ⟨none, .none⟩, some ⟨none, .none⟩, none⟩, .none, .none⟩,
      ⟨"Tax", [⟨"Reactive", [], .none⟩], [],
        .property ⟨⟨"int", [], false⟩, some ⟨none, .none⟩, some ⟨none, .none⟩, none⟩, .none, .none⟩,
      derivedFrom "Total" ["Price"] (.binary .add (.name "Price" .none) (.name "Tax" .none) .none),
      derivedBy "Halve" "Half" ["Total"] (.binary .divide (.name "Total" .none) (.literal (.int 2) .none) .none)]
  nameSpan := .none
  span := .none

/-- The file that declares a bill and nothing else. -/
def billFile : DeclarationSet := ⟨"", "", ⟨[], none, [bill]⟩, default⟩

/-- The model of a bill. -/
def billModel : ClassModel := (billFile.analyzeClass bill).1.get (by decide +kernel)

theorem undeclared_reads_exact_bill : (billFile.analyzeClass bill).1 = some billModel ∧
    FindingCause.undeclaredRead "Total" "Tax" ∈ (billFile.analyzeClass bill).2.map Finding.cause ∧
      ∃ x ∈ billModel.derived, x.name = "Total" ∧
        billModel.Undeclared x (.binary .add (.name "Price" .none) (.name "Tax" .none) .none) "Tax" := by
  obtain ⟨a, htotal⟩ : ∃ a, bill.ComputedBy "Total" (bill.members.take 2) bill.members[2] (bill.members.drop 3) a := by
    have hderived : bill.members[2].derived?.isSome = true := by decide +kernel
    obtain ⟨a, ha⟩ := Option.isSome_iff_exists.mp hderived
    exact ⟨a, rfl, ha, by decide +kernel, by decide +kernel, by decide +kernel⟩
  have hmodel : (billFile.analyzeClass bill).1 = some billModel := (Option.some_get _).symm
  have hreported : FindingCause.undeclaredRead "Total" "Tax" ∈ (billFile.analyzeClass bill).2.map Finding.cause := by
    decide +kernel
  obtain ⟨x, hx, hname, hcomputed, hown⟩ : ∃ x ∈ billModel.derived, x.name = "Total" ∧ x.recompute.isSome = true ∧
      x.origin ≠ .observable := by decide +kernel
  have hbehind : ∀ y ∈ bill.members.drop 3, y.exposed? ≠ some "Tax" := by decide +kernel
  have hsilent : ∀ y ∈ bill.members, (findKind .notifyFor ( Annotation.ofMember y).1).isNone = true := by decide +kernel
  refine ⟨hmodel, hreported, x, hx, hname, ?_⟩
  refine (undeclared_reads_exact hmodel hx hcomputed hown (hname ▸ htotal) rfl ?_ (Or.inr ?_)).mp (hname ▸ hreported)
  · rintro i - hi y hy ⟨a, ha, hadds⟩
    exact hbehind y hy (hi ▸ (MemberDecl.exposed?_eq ha).trans hadds.exposed)
  · rintro y hy - ⟨-, a, ha, -⟩
    have hnone := hsilent y hy
    rw [ha] at hnone
    cases hnone

/-- A value of the class whose body is written at a member reads `r` undeclared and it is not reported, or the other way
round. -/
def ClassModel.Misreports (c : ClassDecl) (m : ClassModel) (reported : List FindingCause) (name r : String) : Prop :=
  ∃ y ∈ c.members, ∃ body, y.name = name ∧ y.expression? = some body ∧
    ∃ x ∈ m.derived, x.name = name ∧ x.span = y.nameSpan ∧
      ¬ (FindingCause.undeclaredRead name r ∈ reported ↔ m.Undeclared x body r)

/-- Whispers are not always heard: a helper, a getter that is not derived and a property that is derived before the one
it reads read what they do not say, and a property hears one that announces itself, and one of its double. -/
def whispers : ClassDecl where
  name := "Whispers"
  typeParams := []
  modifiers := [.partial_]
  bases := [⟨"IReactiveObject", [], false⟩]
  members :=
    let same (body : String) (span : Span) : MemberDecl :=
      ⟨"Same", [⟨"Derived", [⟨none, .path ["CacheMode", "Disabled"], .none⟩, ⟨none, .string "Part", .none⟩], .none⟩],
        [], .property ⟨⟨"int", [], false⟩, some ⟨some (.name body .none), .none⟩, none, none⟩, span, span⟩
    [⟨"Part", [⟨"Reactive", [], .none⟩,
          ⟨"NotifyFor", [⟨none, .string "Heard", .none⟩, ⟨none, .string "Sum", .none⟩], .none⟩], [],
        .property ⟨⟨"int", [], false⟩, some ⟨none, .none⟩, some ⟨none, .none⟩, none⟩, .none, .none⟩,
      ⟨"Other", [⟨"Reactive", [], .none⟩], [],
        .property ⟨⟨"int", [], false⟩, some ⟨none, .none⟩, some ⟨none, .none⟩, none⟩, .none, .none⟩,
      ⟨"Back", [⟨"ObservableAsProperty", [], .none⟩], [],
        .property ⟨⟨"int", [], false⟩, some ⟨some (.name "Part" .none), .none⟩, none, none⟩, .none, .none⟩,
      ⟨"Sum", [], [],
        .property ⟨⟨"int", [], false⟩, some ⟨some (.name "Other" .none), .none⟩, none, none⟩, .none, .none⟩,
      derivedFrom "Heard" ["Other"] (.binary .add (.name "Part" .none) (.name "Other" .none) .none),
      derivedFrom "Early" ["Part"] (.name "Late" .none),
      derivedBy "MakeLate" "Late" ["Part"] (.name "Part" .none),
      same "Other" ⟨0, 4, 1, 1⟩, same "Part" ⟨5, 9, 1, 6⟩]
  nameSpan := .none
  span := .none

/-- The file that declares whispers and nothing else. -/
def whispersFile : DeclarationSet := ⟨"", "", ⟨[], none, [whispers]⟩, default⟩

/-- The model of whispers. -/
def whispersModel : ClassModel := (whispersFile.analyzeClass whispers).1.get (by decide +kernel)

theorem undeclared_reads_unnoticed : (whispersFile.analyzeClass whispers).1 = some whispersModel ∧
    ∀ read ∈ [("Back", "Part"), ("Sum", "Other"), ("Heard", "Part"), ("Early", "Late"), ("Same", "Other")],
      whispersModel.Misreports whispers ((whispersFile.analyzeClass whispers).2.map Finding.cause) read.1 read.2 := by
  refine ⟨(Option.some_get _).symm, ?_⟩
  simp only [List.forall_mem_cons]
  refine ⟨?_, ?_, ?_, ?_, ?_, nofun⟩
  · exact ⟨whispers.members[2], List.getElem_mem _, .name "Part" .none, rfl, rfl, by decide +kernel⟩
  · exact ⟨whispers.members[3], List.getElem_mem _, .name "Other" .none, rfl, rfl, by decide +kernel⟩
  · exact ⟨whispers.members[4], List.getElem_mem _, .binary .add (.name "Part" .none) (.name "Other" .none) .none,
      rfl, rfl, by decide +kernel⟩
  · exact ⟨whispers.members[5], List.getElem_mem _, .name "Late" .none, rfl, rfl, by decide +kernel⟩
  · exact ⟨whispers.members[8], List.getElem_mem _, .name "Part" .none, rfl, rfl, by decide +kernel⟩

end Reactive
