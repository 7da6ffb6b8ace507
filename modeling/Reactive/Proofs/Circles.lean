import Reactive.Proofs.Rejection
import Reactive.Proofs.Tracing

/-!
# Reactive.Proofs.Circles — derived values that read themselves through others

* `ClassModel.Reads`: the body of a derived value reads the property of a derived value.
* `ClassModel.ReadsOther`: it is the body that the annotation is about, the other value is another one, and its property is
  declared or the value stands before.
* `reads_of_others_acyclic`: if nothing is found, such reads make no circle.
* `reads_in_circles_unnoticed`: each of the reads that are left out can make one.
-/

namespace Reactive

namespace Staged

/-- Where nothing is found about cycles, every staged value is kept. -/
theorem acyclic_eq_self {staged : List Staged} (h : (cycles staged).filterMap (cycleFinding staged) = []) :
    acyclic staged = staged := by
  have hcycles : cycles staged = [] := by
    have hreports := (reports_cycles staged).length_eq
    rw [h, List.length_map] at hreports
    exact List.eq_nil_of_length_eq_zero hreports.symm
  unfold acyclic
  rw [hcycles]
  simp [filterMap_range_getElem?]

end Staged

namespace ClassModel

/-- The body of the value numbered `d` reads the property of the value numbered `e`. -/
def Reads (c : ClassDecl) (m : ClassModel) (d e : DerivedId) : Prop :=
  ∃ x y body, m.derived[d]? = some x ∧ m.derived[e]? = some y ∧ (c.Derives x.name body ∨ c.HasGetter x.name body) ∧
    ∃ read ∈ body.memberReads, read.name = y.name

/-- The body that the annotation of the value numbered `d` is about reads the property of another value, numbered `e`.
That property is declared, or the value stands before. -/
def ReadsOther (c : ClassDecl) (m : ClassModel) (d e : DerivedId) : Prop :=
  ∃ x y body, m.derived[d]? = some x ∧ m.derived[e]? = some y ∧ c.Derives x.name body ∧
    (∃ read ∈ body.memberReads, read.name = y.name) ∧ e ≠ d ∧ (y.name ∈ propertyNames c.members ∨ e < d)

end ClassModel

/-- If nothing is found, what is read of another value is one of the sources. -/
theorem ClassModel.Built.feeds_of_readsOther {c : ClassDecl} {model : ClassModel} {draft : Draft}
    (hbuilt : model.Built c draft) (hmembers : model.members = draft.members) (hnil : draft.findings = []) {names : List String}
    (hnames : propertyNames c.members ⊆ names) (htraces : Drafting.Traces (annotatedMembers c).1 names c.staged draft)
    {d e : DerivedId} (h : model.ReadsOther c d e) : model.Feeds e d := by
  have hunrepeated : draft.Unrepeated := fun f hf => by rw [hnil] at hf; cases hf
  have horderly := hbuilt.orderly hunrepeated
  have hkept := hbuilt.kept
  rw [Staged.acyclic_eq_self (by rw [← hbuilt.cycles, Draft.cycles, hnil, List.filter_nil])] at hkept
  obtain ⟨x, y, body, hx, hy, ⟨m, hm, a, ha, hbody⟩, ⟨read, hread, hname⟩, hne, hknown⟩ := h
  obtain ⟨i, s, hs, hsname, htraced⟩ := htraces _ (mem_annotatedMembers hm) a ha x.name body hbody
  obtain ⟨x', hx', hxs⟩ := exists_getElem?_right hkept hs
  obtain ⟨t, ht, hyt⟩ := exists_getElem?_left hkept hy
  -- Values have names of their own.
  have hplace {i j : DerivedId} {u v : DerivedProperty} (hu : model.derived[i]? = some u) (hv : model.derived[j]? = some v)
      (huv : u.name = v.name) : i = j := by
    have hi : (model.derived.map DerivedProperty.name)[i]? = some u.name := by rw [List.getElem?_map, hu]; rfl
    have hj : (model.derived.map DerivedProperty.name)[j]? = some u.name := by rw [List.getElem?_map, hv, huv]; rfl
    have hlt : i < (model.derived.map DerivedProperty.name).length := (List.getElem?_eq_some_iff.mp hi).1
    exact (List.getElem?_inj hlt horderly.distinct).mp (hi.trans hj.symm)
  obtain rfl : i = d := hplace hx' hx (hxs.name.trans hsname)
  obtain rfl : x' = x := Option.some.inj (hx'.symm.trans hx)
  have hother : read.name ≠ s.name := fun hsame => hne (hplace hy hx (by rw [← hname, hsame, hsname]))
  refine ⟨y, x', hy, hx, ?_⟩
  obtain ⟨id, hid, hresolved⟩ | hnew := htraced read hread hother
  · rw [hname, ← hmembers, horderly.derived y (List.mem_of_getElem? hy)] at hresolved
    rw [hxs.sources, Option.some.inj hresolved]
    exact hid
  · rw [hname, List.mem_append] at hnew
    refine absurd ?_ hnew
    refine hknown.imp (fun hn => hnames hn) fun hlt => ?_
    refine List.mem_map.mpr ⟨t, ?_, hyt.name.symm⟩
    exact List.mem_of_getElem? ((List.getElem?_take_of_lt hlt).trans ht)

/-- If nothing is found in a class, no derived value reads itself through others, and following what is read comes to an
end. -/
theorem reads_of_others_acyclic {s : DeclarationSet} {c : ClassDecl} {model : ClassModel}
    (h : s.analyzeClass c = (some model, [])) : (∀ d, ¬ Relation.TransGen (model.ReadsOther c) d d) ∧
      WellFounded fun e d => model.ReadsOther c d e := by
  unfold DeclarationSet.analyzeClass at h
  split at h
  · cases h
  · split at h
    · cases h
    · obtain ⟨⟨hbuilt, -, -⟩, hmembers, htraced⟩ :=
        (yields_classModel s c).and (Drafting.yields_classModel_traces s c)
      have hmodel : (Drafting.classModel s c ⟨[], declaredNames c, []⟩).1 = model :=
        Option.some.inj (congrArg Prod.fst h)
      have hnil : (Drafting.classModel s c ⟨[], declaredNames c, []⟩).2.findings = [] := congrArg Prod.snd h
      obtain ⟨names, hnames, htraces⟩ := htraced hnil
      rw [hmodel] at hbuilt hmembers
      have horderly : model.Orderly := hbuilt.orderly fun f hf => by rw [hnil] at hf; cases hf
      have hfeeds {d e : DerivedId} (hreads : model.ReadsOther c d e) : model.Feeds e d :=
        hbuilt.feeds_of_readsOther hmembers hnil hnames htraces hreads
      refine ⟨fun d hcycle => horderly.acyclic d ?_, Subrelation.wf hfeeds (ClassModel.wellFounded_feeds horderly)⟩
      have hswapped : Relation.TransGen (Function.swap model.Feeds) d d :=
        Relation.TransGen.mono (fun _ _ => hfeeds) d d hcycle
      exact Relation.transGen_swap.mp hswapped

theorem ClassDecl.derives_property {c : ClassDecl} {m : MemberDecl} {p : PropertyDecl} {name : String} {body : Expr}
    (hm : m ∈ c.members) (ha : (findKind .derived ( Annotation.ofMember m).1).isSome = true) (hp : m.kind = .property p)
    (hname : m.name = name) (hbody : p.getterBody? = some body) : c.Derives name body := by
  obtain ⟨a, ha⟩ := Option.isSome_iff_exists.mp ha
  exact ⟨m, hm, a, ha, .inl ⟨p, hp, hname, hbody⟩⟩

theorem ClassDecl.derives_method {c : ClassDecl} {m : MemberDecl} {d : MethodDecl} {exposed : String} {body : Expr}
    (hm : m ∈ c.members) (ha : (findKind .derived ( Annotation.ofMember m).1).bind (·.string? "Property") = some exposed)
    (hd : m.kind = .method d) (hbody : d.body = some body) : c.Derives exposed body := by
  obtain ⟨a, ha, hexposed⟩ := Option.bind_eq_some_iff.mp ha
  exact ⟨m, hm, a, ha, .inr ⟨d, hd, hexposed, hbody⟩⟩

/-- The derived value of a name. -/
theorem ClassModel.exists_derived {m : ClassModel} {i : Nat} {n : String}
    (h : (m.derived.map DerivedProperty.name)[i]? = some n) : ∃ x, m.derived[i]? = some x ∧ x.name = n := by
  rw [List.getElem?_map] at h
  exact Option.map_eq_some_iff.mp h

/-- A method that is exposed as a derived property. -/
def derivedBy (name exposed : String) (sources : List String) (body : Expr) : MemberDecl :=
  ⟨name, [⟨"Derived", sources.map (fun source => ⟨none, .string source, .none⟩) ++
      [⟨some "Property", .string exposed, .none⟩], .none⟩], [],
    .method ⟨⟨"int", [], false⟩, [], some body⟩, .none, .none⟩

/-- A ladder has a length, half of it and more. -/
def ladder : ClassDecl where
  name := "Ladder"
  typeParams := []
  modifiers := [.partial_]
  bases := [⟨"IReactiveObject", [], false⟩]
  members :=
    [⟨"Length", [⟨"Reactive", [], .none⟩], [],
        .property ⟨⟨"int", [], false⟩, some ⟨none, .none⟩, some ⟨none, .none⟩, none⟩, .none, .none⟩,
      derivedFrom "Double" ["More"] (.binary .add (.name "More" .none) (.name "More" .none) .none),
      derivedBy "Halve" "Half" ["Length"] (.binary .divide (.name "Length" .none) (.literal (.int 2) .none) .none),
      derivedFrom "More" ["Length", "Half"] (.binary .add (.name "Length" .none) (.name "Half" .none) .none)]
  nameSpan := .none
  span := .none

/-- The file that declares a ladder and nothing else. -/
def ladderFile : DeclarationSet := ⟨"", "", ⟨[], none, [ladder]⟩, default⟩

/-- The model of a ladder. -/
def ladderModel : ClassModel := (ladderFile.analyzeClass ladder).1.get (by decide +kernel)

theorem reads_of_others_acyclic_ladder : ladderFile.analyzeClass ladder = (some ladderModel, []) ∧
    ladderModel.ReadsOther ladder 0 2 ∧ ladderModel.ReadsOther ladder 2 1 ∧
    (∀ d, ¬ Relation.TransGen (ladderModel.ReadsOther ladder) d d) ∧
      WellFounded fun e d => ladderModel.ReadsOther ladder d e := by
  have hmodel : ladderFile.analyzeClass ladder = (some ladderModel, []) := by
    refine Prod.ext (Option.some_get _).symm (List.eq_nil_of_length_eq_zero ?_)
    decide +kernel
  have hnames : ladderModel.derived.map DerivedProperty.name = ["Double", "Half", "More"] := by decide +kernel
  have hreads {d e : DerivedId} {x y : String} {body : Expr} (hx : ["Double", "Half", "More"][d]? = some x)
      (hy : ["Double", "Half", "More"][e]? = some y) (hbody : ladder.Derives x body)
      (hread : ∃ read ∈ body.memberReads, read.name = y) (hne : e ≠ d)
      (hknown : y ∈ propertyNames ladder.members ∨ e < d) : ladderModel.ReadsOther ladder d e := by
    obtain ⟨u, hu, rfl⟩ := ClassModel.exists_derived (hnames ▸ hx)
    obtain ⟨v, hv, rfl⟩ := ClassModel.exists_derived (hnames ▸ hy)
    exact ⟨u, v, body, hu, hv, hbody, hread, hne, hknown⟩
  have hmore : ladder.Derives "More" _ := ClassDecl.derives_property (m := ladder.members[3]) (List.getElem_mem _)
    (by decide +kernel) rfl rfl rfl
  have hdouble : ladder.Derives "Double" _ := ClassDecl.derives_property (m := ladder.members[1]) (List.getElem_mem _)
    (by decide +kernel) rfl rfl rfl
  exact ⟨hmodel, hreads rfl rfl hdouble (by decide) (by decide) (Or.inl (by decide)),
    hreads rfl rfl hmore (by decide) (by decide) (Or.inr (by decide)), reads_of_others_acyclic hmodel⟩

/-- Echoes come back: a sum is added to itself, a helper follows what follows it, a getter that is not derived reads what
reads it, and a property reads that of a later method, which reads it. -/
def echoes : ClassDecl where
  name := "Echoes"
  typeParams := []
  modifiers := [.partial_]
  bases := [⟨"IReactiveObject", [], false⟩]
  members :=
    [⟨"Part", [⟨"Reactive", [], .none⟩, ⟨"NotifyFor", [⟨none, .string "Sum", .none⟩], .none⟩], [],
        .property ⟨⟨"int", [], false⟩, some ⟨none, .none⟩, some ⟨none, .none⟩, none⟩, .none, .none⟩,
      derivedFrom "Total" ["Part"] (.binary .add (.name "Part" .none) (.name "Total" .none) .none),
      ⟨"Back", [⟨"ObservableAsProperty", [], .none⟩], [],
        .property ⟨⟨"int", [], false⟩, some ⟨some (.name "Forth" .none), .none⟩, none, none⟩, .none, .none⟩,
      derivedFrom "Forth" ["Back"] (.name "Back" .none),
      ⟨"Sum", [], [], .property ⟨⟨"int", [], false⟩, some ⟨some (.name "Twice" .none), .none⟩, none, none⟩, .none, .none⟩,
      derivedFrom "Twice" ["Sum"] (.binary .add (.name "Sum" .none) (.name "Sum" .none) .none),
      derivedFrom "Here" ["Part"] (.name "There" .none),
      derivedBy "Left" "There" ["Here"] (.name "Here" .none)]
  nameSpan := .none
  span := .none

/-- The file that declares echoes and nothing else. -/
def echoesFile : DeclarationSet := ⟨"", "", ⟨[], none, [echoes]⟩, default⟩

/-- The model of echoes. -/
def echoesModel : ClassModel := (echoesFile.analyzeClass echoes).1.get (by decide +kernel)

/-- Nothing is found in echoes, and there are four circles of reads. -/
theorem reads_in_circles_unnoticed : echoesFile.analyzeClass echoes = (some echoesModel, []) ∧
    echoesModel.derived.map DerivedProperty.name = ["Total", "Back", "Forth", "Twice", "Here", "There", "Sum"] ∧
    echoesModel.Reads echoes 0 0 ∧ (echoesModel.Reads echoes 1 2 ∧ echoesModel.Reads echoes 2 1) ∧
      (echoesModel.Reads echoes 3 6 ∧ echoesModel.Reads echoes 6 3) ∧
        (echoesModel.Reads echoes 4 5 ∧ echoesModel.Reads echoes 5 4) ∧
          ¬ WellFounded fun e d => echoesModel.Reads echoes d e := by
  have hmodel : echoesFile.analyzeClass echoes = (some echoesModel, []) := by
    refine Prod.ext (Option.some_get _).symm (List.eq_nil_of_length_eq_zero ?_)
    decide +kernel
  have hnames : echoesModel.derived.map DerivedProperty.name =
      ["Total", "Back", "Forth", "Twice", "Here", "There", "Sum"] := by decide +kernel
  have hreads {d e : DerivedId} {x y : String} {body : Expr}
      (hx : ["Total", "Back", "Forth", "Twice", "Here", "There", "Sum"][d]? = some x)
      (hy : ["Total", "Back", "Forth", "Twice", "Here", "There", "Sum"][e]? = some y)
      (hbody : echoes.Derives x body ∨ echoes.HasGetter x body) (hread : ∃ read ∈ body.memberReads, read.name = y) :
      echoesModel.Reads echoes d e := by
    obtain ⟨u, hu, rfl⟩ := ClassModel.exists_derived (hnames ▸ hx)
    obtain ⟨v, hv, rfl⟩ := ClassModel.exists_derived (hnames ▸ hy)
    exact ⟨u, v, body, hu, hv, hbody, hread⟩
  have hgetter {x : String} {body : Expr} {p : PropertyDecl} {m : MemberDecl} (hm : m ∈ echoes.members)
      (hname : m.name = x) (hp : m.kind = .property p) (hbody : p.getterBody? = some body) :
      echoes.Derives x body ∨ echoes.HasGetter x body := Or.inr ⟨m, hm, hname, p, hp, hbody⟩
  have htotal := hgetter (m := echoes.members[1]) (x := "Total") (List.getElem_mem _) rfl rfl rfl
  have hback := hgetter (m := echoes.members[2]) (x := "Back") (List.getElem_mem _) rfl rfl rfl
  have hforth := hgetter (m := echoes.members[3]) (x := "Forth") (List.getElem_mem _) rfl rfl rfl
  have hsum := hgetter (m := echoes.members[4]) (x := "Sum") (List.getElem_mem _) rfl rfl rfl
  have htwice := hgetter (m := echoes.members[5]) (x := "Twice") (List.getElem_mem _) rfl rfl rfl
  have hhere := hgetter (m := echoes.members[6]) (x := "Here") (List.getElem_mem _) rfl rfl rfl
  have hthere : echoes.Derives "There" _ := ClassDecl.derives_method (m := echoes.members[7]) (List.getElem_mem _)
    (by decide +kernel) rfl rfl
  have hown : echoesModel.Reads echoes 0 0 := hreads rfl rfl htotal (by decide)
  exact ⟨hmodel, hnames, hown, ⟨hreads rfl rfl hback (by decide), hreads rfl rfl hforth (by decide)⟩,
    ⟨hreads rfl rfl htwice (by decide), hreads rfl rfl hsum (by decide)⟩,
    ⟨hreads rfl rfl hhere (by decide), hreads rfl rfl (Or.inl hthere) (by decide)⟩,
    fun hwf => hwf.asymmetric 0 0 hown hown⟩

end Reactive
