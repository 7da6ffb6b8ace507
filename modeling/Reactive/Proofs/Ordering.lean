import Reactive.Proofs.Propagation

/-!
# Reactive.Proofs.Ordering — affected values in topological order, for any graph

What a write affects is found by a search and put in order by taking, again and again, a value that is computed from
none of those left.

* `DependencyGraph.exists_ready_of_acyclic`: if no affected value is computed from itself, there is such a value among
  any affected ones, so the order is never broken off.
* `DependencyGraph.countDown_eq_settle`: the same order comes out if the sources of each value are counted once and
  counted down from then on.
* `DependencyGraph.propagation_topological`: the order of a whole graph.
-/

namespace Reactive.DependencyGraph

variable {g : DependencyGraph} {propertyOf : DerivedId → PropertyId} {source : PropertyId}

/-- The value `e` is computed from the property that `d` is exposed as. -/
def Precedes (g : DependencyGraph) (propertyOf : DerivedId → PropertyId) (d e : DerivedId) : Prop :=
  e ∈ g.dependents (propertyOf d)

/-- No value that a write to the property affects is computed from itself. -/
def AcyclicFrom (g : DependencyGraph) (propertyOf : DerivedId → PropertyId) (source : PropertyId) : Prop :=
  ∀ d, g.Affects propertyOf source d → ¬ Relation.TransGen (g.Precedes propertyOf) d d

theorem isReady_iff {pending : List DerivedId} {d : DerivedId} :
    isReady g propertyOf pending d = true ↔ ∀ p ∈ pending, ¬ g.Precedes propertyOf p d := by
  unfold isReady Precedes
  rw [List.all_eq_true]
  refine forall₂_congr fun p _ => ?_
  rw [Bool.not_eq_true', ← Bool.not_eq_true, List.contains_iff_mem]

/-- Among affected values one is computed from none of them. -/
theorem exists_ready_of_acyclic (hacyclic : g.AcyclicFrom propertyOf source) (pending : List DerivedId)
    (hne : pending ≠ []) (haffected : ∀ d ∈ pending, g.Affects propertyOf source d) :
    ∃ d ∈ pending, isReady g propertyOf pending d = true := by
  let behind (a b : {d // d ∈ pending}) : Prop := Relation.TransGen (g.Precedes propertyOf) a b
  have htrans : IsTrans _ behind := ⟨fun _ _ _ hab hbc => Relation.TransGen.trans hab hbc⟩
  have hirrefl : Std.Irrefl behind := ⟨fun d => hacyclic d (haffected d d.2)⟩
  have hwf : WellFounded behind := Finite.wellFounded_of_trans_of_irrefl _
  obtain ⟨e, he⟩ := List.exists_mem_of_ne_nil pending hne
  obtain ⟨d, -, hmin⟩ := hwf.has_min Set.univ ⟨⟨e, he⟩, trivial⟩
  exact ⟨d, d.2, isReady_iff.mpr fun p hp hedge => hmin ⟨p, hp⟩ trivial (.single hedge)⟩

/-! ### The search and the order end by themselves -/

/-- A search that has been given enough steps is not changed by more of them. -/
theorem follow_eq_of_le (propertyOf : DerivedId → PropertyId) (hnodup : ∀ s, (g.dependents s).Nodup) :
    ∀ (fuel fuel' : Nat) (queue : List PropertyId) (reached : List DerivedId),
      queue.length + g.undiscovered reached ≤ fuel → fuel ≤ fuel' →
        follow g propertyOf fuel' queue reached = follow g propertyOf fuel queue reached
  | 0, fuel', queue, reached, h, _ => by
    obtain rfl : queue = [] := List.length_eq_zero_iff.mp (by omega)
    cases fuel' <;> rfl
  | fuel + 1, 0, _, _, _, hle => absurd hle (Nat.not_succ_le_zero fuel)
  | fuel + 1, fuel' + 1, [], reached, _, _ => rfl
  | fuel + 1, fuel' + 1, s :: queue, reached, h, hle => by
    rw [follow, follow]
    generalize hfresh : (g.dependents s).filter (!reached.contains ·) = fresh
    have hmem {d : DerivedId} (hd : d ∈ fresh) : d ∈ g.targets ∧ d ∉ reached := by
      rw [← hfresh, List.mem_filter, Bool.not_eq_true', ← Bool.not_eq_true, List.contains_iff_mem] at hd
      exact ⟨mem_targets hd.1, hd.2⟩
    have hcount : g.undiscovered (reached ++ fresh) + fresh.length = g.undiscovered reached :=
      undiscovered_append (hfresh ▸ (hnodup s).filter _) fun d hd => hmem hd
    refine follow_eq_of_le propertyOf hnodup fuel fuel' _ _ ?_ (Nat.le_of_succ_le_succ hle)
    rw [List.length_append, List.length_map]
    rw [List.length_cons] at h
    omega

theorem affected_eq_follow (hnodup : ∀ s, (g.dependents s).Nodup) {fuel : Nat} (h : g.size < fuel) :
    follow g propertyOf fuel [source] [] = affected g propertyOf source := by
  refine follow_eq_of_le propertyOf hnodup (g.size + 1) fuel [source] [] ?_ h
  have hbound : g.undiscovered [] ≤ g.size := by
    rw [← length_targets]
    exact (Finset.card_le_card Finset.sdiff_subset).trans (List.toFinset_card_le _)
  rw [List.length_singleton]
  omega

/-- As many steps as there are values are enough to put them in order. -/
theorem settle_eq_of_le : ∀ (fuel fuel' : Nat) (pending : List DerivedId), pending.length ≤ fuel → fuel ≤ fuel' →
    settle g propertyOf fuel' pending = settle g propertyOf fuel pending
  | 0, fuel', pending, h, _ => by
    obtain rfl : pending = [] := List.length_eq_zero_iff.mp (Nat.le_zero.mp h)
    cases fuel' <;> rfl
  | fuel + 1, 0, _, _, hle => absurd hle (Nat.not_succ_le_zero fuel)
  | fuel + 1, fuel' + 1, pending, h, hle => by
    rw [settle, settle]
    cases hfind : pending.find? (isReady g propertyOf pending) with
    | none => rfl
    | some d =>
      have hlength := List.length_erase_of_mem (List.mem_of_find?_eq_some hfind)
      exact congrArg (d :: ·) (settle_eq_of_le fuel fuel' (pending.erase d) (by omega) (Nat.le_of_succ_le_succ hle))

/-- Whatever the graph, nothing is added or repeated by putting values in order. -/
theorem settle_subperm : ∀ (fuel : Nat) (pending : List DerivedId),
    (settle g propertyOf fuel pending).Subperm pending
  | 0, pending => List.nil_subperm
  | fuel + 1, pending => by
    rw [settle]
    cases hfind : pending.find? (isReady g propertyOf pending) with
    | none => exact List.nil_subperm
    | some d =>
      have hd := List.mem_of_find?_eq_some hfind
      exact ((List.subperm_cons d).mpr (settle_subperm fuel (pending.erase d))).trans (List.perm_cons_erase hd).symm.subperm

/-! ### Counting -/

/-- The number of values of a list that `d` is computed from. -/
def indegree (g : DependencyGraph) (propertyOf : DerivedId → PropertyId) (pending : List DerivedId) (d : DerivedId) :
    Nat := pending.countP fun p => (g.dependents (propertyOf p)).contains d

/-- The order of values that stand with the numbers of those that they still wait for: one that waits for none is
taken, and those computed from it wait for one less. -/
def countDown (g : DependencyGraph) (propertyOf : DerivedId → PropertyId) :
    Nat → List (DerivedId × Nat) → List DerivedId
  | 0, _ => []
  | fuel + 1, waiting =>
    match waiting.find? (·.2 = 0) with
    | some (d, _) =>
      d :: countDown g propertyOf fuel ((waiting.eraseP (·.1 = d)).map fun e =>
        if (g.dependents (propertyOf d)).contains e.1 then (e.1, e.2 - 1) else e)
    | none => []

theorem isReady_iff_indegree {pending : List DerivedId} {d : DerivedId} :
    isReady g propertyOf pending d = true ↔ indegree g propertyOf pending d = 0 := by
  unfold isReady indegree
  rw [List.all_eq_true, List.countP_eq_zero]
  refine forall₂_congr fun p _ => ?_
  rw [Bool.not_eq_true', ← Bool.not_eq_true]

/-- Without a value those computed from it wait for one less. -/
theorem indegree_erase {pending : List DerivedId} {d : DerivedId} (hd : d ∈ pending) (e : DerivedId) :
    indegree g propertyOf (pending.erase d) e =
      if (g.dependents (propertyOf d)).contains e then indegree g propertyOf pending e - 1
      else indegree g propertyOf pending e := by
  unfold indegree
  rw [(List.perm_cons_erase hd).countP_eq, List.countP_cons]
  split <;> simp

/-- Counting down gives the order in which ready values are taken. -/
theorem countDown_eq_settle : ∀ (fuel : Nat) (pending : List DerivedId),
    countDown g propertyOf fuel (pending.map fun d => (d, indegree g propertyOf pending d)) =
      settle g propertyOf fuel pending
  | 0, _ => rfl
  | fuel + 1, pending => by
    have hfirst : (pending.map fun d => (d, indegree g propertyOf pending d)).find? (·.2 = 0) =
        (pending.find? (isReady g propertyOf pending)).map fun d => (d, indegree g propertyOf pending d) := by
      rw [List.find?_map]
      congr 2
      funext d
      rw [Function.comp_apply, Bool.eq_iff_iff, decide_eq_true_iff, isReady_iff_indegree]
    rw [countDown, settle, hfirst]
    cases hfind : pending.find? (isReady g propertyOf pending) with
    | none => rfl
    | some d =>
      have hd := List.mem_of_find?_eq_some hfind
      rw [Option.map_some]
      dsimp only
      rw [← countDown_eq_settle fuel (pending.erase d), List.eraseP_map, List.map_map,
        List.erase_eq_eraseP' d pending]
      refine congrArg (fun w => d :: countDown g propertyOf fuel w) ?_
      have hpred : ((fun e : DerivedId × Nat => decide (e.1 = d)) ∘ fun d => (d, indegree g propertyOf pending d)) =
          fun e => e == d := rfl
      rw [hpred]
      refine List.map_congr_left fun e _ => ?_
      rw [Function.comp_apply, ← List.erase_eq_eraseP' d pending, indegree_erase hd]
      split <;> rfl

/-! ### Any graph -/

/-- In a list without repetitions whose elements do not precede earlier ones, an element stands before those that it
precedes. -/
theorem idxOf_lt_of_pairwise {r : DerivedId → DerivedId → Prop} {ds : List DerivedId}
    (hpairwise : ds.Pairwise fun d e => ¬ r e d) (hself : ∀ d ∈ ds, ¬ r d d) {d e : DerivedId} (hd : d ∈ ds)
    (he : e ∈ ds) (hr : r d e) : ds.idxOf d < ds.idxOf e := by
  have hdlt := List.idxOf_lt_length_iff.mpr hd
  have helt := List.idxOf_lt_length_iff.mpr he
  by_contra hle
  obtain hlt | heq := Nat.lt_or_eq_of_le (Nat.le_of_not_lt hle)
  · have hnot := List.pairwise_iff_getElem.mp hpairwise _ _ helt hdlt hlt
    rw [List.getElem_idxOf, List.getElem_idxOf] at hnot
    exact hnot hr
  · obtain rfl := (List.idxOf_inj he).mp heq
    exact hself e he hr

/-- For any list of dependencies and any way to expose values, the values that a write affects are found by a search
that ends by itself and put in order by a loop that ends by itself, which counts them down; none is repeated and none
added.  If no affected value is computed from itself, the loop finds a value that is ready whatever affected ones are
left, so that all affected values are put in order, each before those that are computed from it. -/
theorem propagation_topological (edges : List (PropertyId × DerivedId)) (propertyOf : DerivedId → PropertyId)
    (source : PropertyId) :
    (∀ fuel, (ofEdges edges).size < fuel →
      follow (ofEdges edges) propertyOf fuel [source] [] = affected (ofEdges edges) propertyOf source) ∧
    (∀ fuel, (affected (ofEdges edges) propertyOf source).length ≤ fuel →
      countDown (ofEdges edges) propertyOf fuel ((affected (ofEdges edges) propertyOf source).map fun d =>
        (d, indegree (ofEdges edges) propertyOf (affected (ofEdges edges) propertyOf source) d)) =
        (ofEdges edges).propagation propertyOf source) ∧
    ((ofEdges edges).propagation propertyOf source).Nodup ∧
    (∀ d ∈ (ofEdges edges).propagation propertyOf source, (ofEdges edges).Affects propertyOf source d) ∧
    ((ofEdges edges).AcyclicFrom propertyOf source →
      (∀ pending : List DerivedId, pending ≠ [] → (∀ d ∈ pending, (ofEdges edges).Affects propertyOf source d) →
        ∃ d ∈ pending, isReady (ofEdges edges) propertyOf pending d = true) ∧
      (∀ d, d ∈ (ofEdges edges).propagation propertyOf source ↔ (ofEdges edges).Affects propertyOf source d) ∧
      ∀ d ∈ (ofEdges edges).propagation propertyOf source, ∀ e ∈ (ofEdges edges).dependents (propertyOf d),
        ((ofEdges edges).propagation propertyOf source).idxOf d <
          ((ofEdges edges).propagation propertyOf source).idxOf e) := by
  have hnodup := nodup_dependents_ofEdges edges
  generalize ofEdges edges = g at hnodup ⊢
  have hmem {d : DerivedId} : d ∈ affected g propertyOf source ↔ g.Affects propertyOf source d := mem_affected hnodup
  have hsub : (g.propagation propertyOf source).Subperm (affected g propertyOf source) := settle_subperm _ _
  refine ⟨fun fuel h => affected_eq_follow hnodup h, fun fuel h => ?_, ?_, fun d hd => hmem.mp (hsub.subset hd),
    fun hacyclic => ?_⟩
  · rw [countDown_eq_settle]
    exact settle_eq_of_le _ fuel _ (Nat.le_refl _) h
  · obtain ⟨ds, hperm, hsublist⟩ := hsub
    exact hperm.nodup_iff.mp ((nodup_affected hnodup source).sublist hsublist)
  · have hready := exists_ready_of_acyclic hacyclic
    have hperm : (g.propagation propertyOf source).Perm (affected g propertyOf source) :=
      settle_perm (g.Affects propertyOf source) hready _ _ (Nat.le_refl _) fun _ hd => hmem.mp hd
    have hall (d : DerivedId) : d ∈ g.propagation propertyOf source ↔ g.Affects propertyOf source d :=
      hperm.mem_iff.trans hmem
    obtain ⟨hself, hpairwise⟩ : (∀ d ∈ g.propagation propertyOf source,
        d ∈ affected g propertyOf source ∧ ¬ g.Precedes propertyOf d d) ∧
          (g.propagation propertyOf source).Pairwise fun d e => ¬ g.Precedes propertyOf e d := settle_pairwise _ _
    refine ⟨hready, hall, fun d hd e he => ?_⟩
    exact idxOf_lt_of_pairwise (r := g.Precedes propertyOf) hpairwise (fun d hd => (hself d hd).2) hd
      ((hall e).mpr (.through ((hall d).mp hd) he)) he

/-- Two values computed from one property, and a third from both, which is discovered first. -/
def diamond : List (PropertyId × DerivedId) := [(0, 2), (0, 0), (0, 1), (10, 2), (11, 2)]

theorem propagation_topological_diamond :
    (ofEdges diamond).AcyclicFrom (10 + ·) 0 ∧ (ofEdges diamond).propagation (10 + ·) 0 = [0, 1, 2] ∧
      ∀ e ∈ (ofEdges diamond).dependents 10, ((ofEdges diamond).propagation (10 + ·) 0).idxOf 0 <
        ((ofEdges diamond).propagation (10 + ·) 0).idxOf e := by
  have hlt (d e : Nat) (h : (ofEdges diamond).Precedes (10 + ·) d e) : d < e := by
    have hedge : (10 + d, e) ∈ diamond := mem_dependents_ofEdges.mp h
    simp only [diamond, List.mem_cons, Prod.mk.injEq, List.not_mem_nil, or_false] at hedge
    omega
  have hacyclic : (ofEdges diamond).AcyclicFrom (10 + ·) 0 := by
    intro d _ hcycle
    have hless : Relation.TransGen (fun a b : Nat => a < b) d d := Relation.TransGen.mono hlt _ _ hcycle
    rw [Relation.transGen_eq_self] at hless
    exact Nat.lt_irrefl d hless
  obtain ⟨-, -, -, -, htopological⟩ := propagation_topological diamond (10 + ·) 0
  exact ⟨hacyclic, by decide, (htopological hacyclic).2.2 0 (by decide)⟩

end Reactive.DependencyGraph
