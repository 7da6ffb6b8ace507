import Reactive.Proofs.Analyzing

/-!
# Reactive.Proofs.Rejection — cycles among derived values are rejected, and nothing else is

`cycle_rejection_exact` says which staged values become derived values of a model, and what is reported about the others.
-/

namespace Reactive

theorem Finding.isCycle_iff {f : Finding} : f.cause.isCycle = true ↔ f.code = "RX0006" := by
  obtain ⟨cause, span⟩ := f
  cases cause <;> simp [FindingCause.isCycle, code]

/-- **Cycles are rejected exactly.**  If no name is found to be taken, staged values have properties of their own.  Those
that lie on no cycle become the derived values of the model, in their order; the others do not.  The findings about
cycles are one for each group of values that are computed from each other, naming its members in order.  No derived value
of the model is computed from itself. -/
theorem cycle_rejection_exact {s : DeclarationSet} {c : ClassDecl} {model : ClassModel}
    (analyzed : (s.analyzeClass c).1 = some model) (unrepeated : ∀ f ∈ (s.analyzeClass c).2, f.code ≠ "RX0002") :
    (c.staged.map Staged.property).Nodup ∧
    (∃ kept : List Staged, kept.Sublist c.staged ∧ (∀ t ∈ c.staged, t ∈ kept ↔ ¬ t.OnCycle c.staged) ∧
      List.Forall₂ (DerivedProperty.Of model.statics) model.derived kept) ∧
    (∃ groups : List (List Staged),
      List.Forall₂ Staged.Reports ((s.analyzeClass c).2.filter (·.code = "RX0006")) groups ∧
      groups.Pairwise List.Disjoint ∧
      (∀ group ∈ groups, group.Sublist c.staged ∧
        ∃ t ∈ group, t.OnCycle c.staged ∧ ∀ u, u ∈ group ↔ t.Entangled c.staged u) ∧
      ∀ t, t.OnCycle c.staged → ∃ group ∈ groups, t ∈ group) ∧
    ∀ d, ¬ Relation.TransGen model.Feeds d d := by
  obtain ⟨d, hfindings, hbuilt, -, -⟩ := built_of_analyzeClass analyzed
  have hunrepeated : d.Unrepeated := fun f hf => unrepeated f (hfindings ▸ hf)
  have hdistinct := hbuilt.properties hunrepeated
  have hreported : (s.analyzeClass c).2.filter (·.code = "RX0006") =
      (Staged.cycles c.staged).filterMap (Staged.cycleFinding c.staged) := by
    rw [← hfindings, ← hbuilt.cycles]
    refine List.filter_congr fun f _ => ?_
    rw [Bool.eq_iff_iff, decide_eq_true_iff]
    exact Finding.isCycle_iff.symm
  refine ⟨hdistinct, ⟨Staged.acyclic c.staged, Staged.acyclic_sublist _, fun t ht => ?_, hbuilt.kept⟩,
    ⟨(Staged.cycles c.staged).map (Staged.members c.staged), ?_, Staged.pairwise_members hdistinct, ?_, ?_⟩,
    (hbuilt.orderly hunrepeated).acyclic⟩
  · exact (Staged.mem_acyclic_iff hdistinct).trans (and_iff_right ht)
  · rw [hreported]
    exact Staged.reports_cycles _
  · intro group hgroup
    obtain ⟨cycle, hcycle, rfl⟩ := List.mem_map.mp hgroup
    exact ⟨Staged.members_sublist hcycle, Staged.mem_members_iff hdistinct hcycle⟩
  · intro t ht
    obtain ⟨cycle, hcycle, hmem⟩ := Staged.exists_members hdistinct ht
    exact ⟨_, List.mem_map_of_mem hcycle, hmem⟩

/-- A property that is computed by an expression of sources. -/
def derivedFrom (name : String) (sources : List String) (body : Expr) : MemberDecl :=
  ⟨name, [⟨"Derived", sources.map fun source => ⟨none, .string source, .none⟩, .none⟩], [],
    .property ⟨⟨"int", [], false⟩, some ⟨some body, .none⟩, none, none⟩, .none, .none⟩

/-- A seesaw has two ends, each computed from the other one, a joint computed from itself, a height computed from an end,
and a length of its own. -/
def seesaw : ClassDecl where
  name := "Seesaw"
  typeParams := []
  modifiers := [.partial_]
  bases := [⟨"IReactiveObject", [], false⟩]
  members :=
    [derivedFrom "Left" ["Right"] (.unary .negate (.name "Right" .none) .none),
      derivedFrom "Joint" ["Joint", "Length"] (.name "Joint" .none),
      ⟨"Length", [⟨"Reactive", [], .none⟩], [],
        .property ⟨⟨"int", [], false⟩, some ⟨none, .none⟩, some ⟨none, .none⟩, none⟩, .none, .none⟩,
      derivedFrom "Height" ["Left", "Length"] (.name "Left" .none),
      derivedFrom "Right" ["Left"] (.unary .negate (.name "Left" .none) .none)]
  nameSpan := .none
  span := .none

/-- The file that declares a seesaw and nothing else. -/
def seesawFile : DeclarationSet := ⟨"", "", ⟨[], none, [seesaw]⟩, default⟩

/-- The model of a seesaw. -/
def seesawModel : ClassModel := (seesawFile.analyzeClass seesaw).1.get (by decide +kernel)

/-- The height of a seesaw is kept; its ends are one cycle, and its joint is another. -/
theorem cycle_rejection_exact_seesaw :
    (seesawFile.analyzeClass seesaw).1 = some seesawModel ∧
    (∀ f ∈ (seesawFile.analyzeClass seesaw).2, f.code ≠ "RX0002") ∧
    seesawModel.derived.map DerivedProperty.name = ["Height"] ∧
    (∃ kept : List Staged, kept.Sublist seesaw.staged ∧
      (∀ t ∈ seesaw.staged, t ∈ kept ↔ ¬ t.OnCycle seesaw.staged) ∧
      List.Forall₂ (DerivedProperty.Of seesawModel.statics) seesawModel.derived kept) ∧
    (∃ groups : List (List Staged), groups.length = 2 ∧
      List.Forall₂ Staged.Reports ((seesawFile.analyzeClass seesaw).2.filter (·.code = "RX0006")) groups ∧
      ∀ t, t.OnCycle seesaw.staged → ∃ group ∈ groups, t ∈ group) ∧
    ∀ d, ¬ Relation.TransGen seesawModel.Feeds d d := by
  have hmodel : (seesawFile.analyzeClass seesaw).1 = some seesawModel := (Option.some_get _).symm
  have hunrepeated : ∀ f ∈ (seesawFile.analyzeClass seesaw).2, f.code ≠ "RX0002" := by decide +kernel
  have hreported : ((seesawFile.analyzeClass seesaw).2.filter (·.code = "RX0006")).length = 2 := by decide +kernel
  obtain ⟨-, hkept, ⟨groups, hreports, -, -, hall⟩, hacyclic⟩ := cycle_rejection_exact hmodel hunrepeated
  exact ⟨hmodel, hunrepeated, by decide +kernel, hkept, ⟨groups, hreports.length_eq ▸ hreported, hreports, hall⟩,
    hacyclic⟩

end Reactive
