import Mathlib.Data.Fintype.Card
import Mathlib.Data.Fintype.EquivFin
import Mathlib.Order.WellFounded
import Reactive.Emission
import Reactive.Proofs.Analyzing

/-!
# Reactive.Proofs.Propagation — which derived values a write affects, and in which order

* `DependencyGraph.mem_affected`: the values that are discovered are those that depend on the property, directly or
  through others.
* `DependencyGraph.settle_perm`, `DependencyGraph.settle_pairwise`: without cycles all of them are put in order, each
  behind those that it is computed from.
* `ClassModel.DependsOn`, `ClassModel.mem_affected_iff`: what that is for the model of a class.
-/

namespace Reactive

namespace DependencyGraph

/-! ### Dependents -/

/-- The targets of the group of a source. -/
def targetsOf (groups : List DependencyGroup) (source : PropertyId) : List DerivedId :=
  ((groups.find? (·.source = source)).map DependencyGroup.targets).getD []

theorem targetsOf_cons (group : DependencyGroup) (rest : List DependencyGroup) (source : PropertyId) :
    targetsOf (group :: rest) source = if group.source = source then group.targets else targetsOf rest source := by
  unfold targetsOf
  rw [List.find?_cons]
  by_cases h : group.source = source <;> simp [h]

/-- One more dependency: a source has one more target, unless it had it before. -/
theorem targetsOf_addTo (source : PropertyId) (target : DerivedId) (source' : PropertyId) :
    ∀ groups : List DependencyGroup, targetsOf (addTo source target groups) source' =
      if source' = source then
        if target ∈ targetsOf groups source then targetsOf groups source else targetsOf groups source ++ [target]
      else targetsOf groups source'
  | [] => by
    have hnil (s : PropertyId) : targetsOf [] s = [] := rfl
    rw [addTo, targetsOf_cons]
    by_cases h : source' = source
    · subst h
      simp [hnil]
    · rw [if_neg h, if_neg (Ne.symm h)]
  | group :: rest => by
    rw [addTo]
    by_cases hgroup : group.source = source
    · rw [if_pos hgroup, targetsOf_cons, targetsOf_cons, targetsOf_cons, if_pos hgroup]
      by_cases hmem : target ∈ group.targets
      · rw [if_pos (List.contains_iff_mem.mpr hmem), if_pos hmem]
        by_cases h : source' = source
        · rw [if_pos (hgroup.trans h.symm), if_pos h]
        · rw [if_neg (fun heq => h (heq.symm.trans hgroup)), if_neg h]
      · rw [if_neg (fun hc => hmem (List.contains_iff_mem.mp hc)), if_neg hmem]
        by_cases h : source' = source
        · rw [if_pos h.symm, if_pos h]
        · rw [if_neg (Ne.symm h), if_neg h, if_neg (fun heq => h (heq.symm.trans hgroup))]
    · rw [if_neg hgroup, targetsOf_cons, targetsOf_cons, targetsOf_cons, if_neg hgroup,
        targetsOf_addTo source target source' rest]
      by_cases h : source' = source
      · rw [if_neg (fun heq => hgroup (heq.trans h)), if_pos h, if_pos h]
      · rw [if_neg h, if_neg h]

theorem dependents_addEdge (g : DependencyGraph) (source : PropertyId) (target : DerivedId) (source' : PropertyId) :
    (g.addEdge source target).dependents source' =
      if source' = source then
        if target ∈ g.dependents source then g.dependents source else g.dependents source ++ [target]
      else g.dependents source' := targetsOf_addTo source target source' g.groups

/-- The dependents of a property are the targets of its edges, each once. -/
theorem dependents_foldl : ∀ (edges : List (PropertyId × DerivedId)) (g : DependencyGraph) (source : PropertyId),
    (g.dependents source).Nodup →
      ((edges.foldl (fun g e => g.addEdge e.1 e.2) g).dependents source).Nodup ∧
      ∀ d, d ∈ (edges.foldl (fun g e => g.addEdge e.1 e.2) g).dependents source ↔
        d ∈ g.dependents source ∨ (source, d) ∈ edges
  | [], g, source, h => ⟨h, fun d => by simp⟩
  | (s, t) :: edges, g, source, h => by
    have hadd := dependents_addEdge g s t source
    have hnodup : ((g.addEdge s t).dependents source).Nodup := by
      rw [hadd]
      by_cases hs : source = s
      · subst hs
        rw [if_pos rfl]
        split
        · exact h
        · rename_i hmem
          exact List.nodup_append.mpr ⟨h, List.nodup_singleton _, fun a ha b hb hab => by
            rw [List.mem_singleton] at hb
            exact hmem (hb ▸ hab ▸ ha)⟩
      · rw [if_neg hs]
        exact h
    obtain ⟨hrest, hmem⟩ := dependents_foldl edges (g.addEdge s t) source hnodup
    refine ⟨hrest, fun d => (hmem d).trans ?_⟩
    rw [hadd, List.mem_cons, Prod.mk.injEq]
    by_cases hs : source = s
    · subst hs
      rw [if_pos rfl]
      split
      · rename_i ht
        constructor
        · rintro (hd | hd)
          · exact Or.inl hd
          · exact Or.inr (Or.inr hd)
        · rintro (hd | ⟨-, rfl⟩ | hd)
          · exact Or.inl hd
          · exact Or.inl ht
          · exact Or.inr hd
      · rw [List.mem_append, List.mem_singleton]
        constructor
        · rintro ((hd | rfl) | hd)
          · exact Or.inl hd
          · exact Or.inr (Or.inl ⟨rfl, rfl⟩)
          · exact Or.inr (Or.inr hd)
        · rintro (hd | ⟨-, rfl⟩ | hd)
          · exact Or.inl (Or.inl hd)
          · exact Or.inl (Or.inr rfl)
          · exact Or.inr hd
    · rw [if_neg hs]
      constructor
      · rintro (hd | hd)
        · exact Or.inl hd
        · exact Or.inr (Or.inr hd)
      · rintro (hd | ⟨rfl, -⟩ | hd)
        · exact Or.inl hd
        · exact absurd rfl hs
        · exact Or.inr hd

theorem nodup_dependents_ofEdges (edges : List (PropertyId × DerivedId)) (source : PropertyId) :
    ((ofEdges edges).dependents source).Nodup := (dependents_foldl edges empty source List.nodup_nil).1

theorem mem_dependents_ofEdges {edges : List (PropertyId × DerivedId)} {source : PropertyId} {d : DerivedId} :
    d ∈ (ofEdges edges).dependents source ↔ (source, d) ∈ edges :=
  ((dependents_foldl edges empty source List.nodup_nil).2 d).trans (or_iff_right List.not_mem_nil)

/-! ### Discovery -/

variable {g : DependencyGraph} {propertyOf : DerivedId → PropertyId}

/-- A derived value is computed from a property, directly or through others. -/
inductive Affects (g : DependencyGraph) (propertyOf : DerivedId → PropertyId) (source : PropertyId) : DerivedId → Prop
  | direct {d : DerivedId} (h : d ∈ g.dependents source) : Affects g propertyOf source d
  | through {e d : DerivedId} (affected : Affects g propertyOf source e) (h : d ∈ g.dependents (propertyOf e)) :
    Affects g propertyOf source d

/-- The targets of all dependencies. -/
def targets (g : DependencyGraph) : List DerivedId := g.groups.flatMap DependencyGroup.targets

theorem length_targets (g : DependencyGraph) : g.targets.length = g.size := by
  unfold targets size
  induction g.groups with
  | nil => rfl
  | cons group rest ih => rw [List.flatMap_cons, List.length_append, ih, List.foldr_cons]

theorem mem_targets {source : PropertyId} {d : DerivedId} (h : d ∈ g.dependents source) : d ∈ g.targets := by
  unfold dependents at h
  cases hfind : g.groups.find? (·.source = source) with
  | none =>
    rw [hfind] at h
    cases h
  | some group =>
    rw [hfind] at h
    exact List.mem_flatMap.mpr ⟨group, List.mem_of_find?_eq_some hfind, h⟩

/-- The number of derived values that have not been discovered. -/
def undiscovered (g : DependencyGraph) (reached : List DerivedId) : Nat := (g.targets.toFinset \ reached.toFinset).card

theorem undiscovered_append {reached fresh : List DerivedId} (hnodup : fresh.Nodup)
    (hfresh : ∀ d ∈ fresh, d ∈ g.targets ∧ d ∉ reached) :
    g.undiscovered (reached ++ fresh) + fresh.length = g.undiscovered reached := by
  have hsub : fresh.toFinset ⊆ g.targets.toFinset \ reached.toFinset := fun d hd => by
    obtain ⟨htarget, hnew⟩ := hfresh d (List.mem_toFinset.mp hd)
    simp [htarget, hnew]
  have hsplit : g.targets.toFinset \ (reached ++ fresh).toFinset =
      (g.targets.toFinset \ reached.toFinset) \ fresh.toFinset := by
    ext d
    simp only [List.toFinset_append, Finset.mem_sdiff, Finset.mem_union, not_or, and_assoc]
  unfold undiscovered
  rw [hsplit, ← List.toFinset_card_of_nodup hnodup]
  exact Finset.card_sdiff_add_card_eq_card hsub

/-- What is discovered from properties: nothing twice, everything that is computed from what is discovered, and nothing
else. -/
structure Discovers (g : DependencyGraph) (propertyOf : DerivedId → PropertyId) (queue : List PropertyId)
    (reached result : List DerivedId) : Prop where
  kept : reached ⊆ result
  queued : ∀ source ∈ queue, g.dependents source ⊆ result
  closed : ∀ d ∈ result, d ∉ reached → g.dependents (propertyOf d) ⊆ result
  nodup : reached.Nodup → result.Nodup
  sound : ∀ d ∈ result, d ∈ reached ∨ ∃ source ∈ queue, g.Affects propertyOf source d

theorem discovers_follow (propertyOf : DerivedId → PropertyId) (hnodup : ∀ source, (g.dependents source).Nodup) :
    ∀ (fuel : Nat) (queue : List PropertyId) (reached : List DerivedId),
      queue.length + g.undiscovered reached ≤ fuel →
        g.Discovers propertyOf queue reached (follow g propertyOf fuel queue reached)
  | 0, queue, reached, h => by
    have hqueue : queue = [] := List.length_eq_zero_iff.mp (by omega)
    subst hqueue
    exact ⟨List.Subset.refl _, nofun, fun _ hd hnew => absurd hd hnew, id, fun _ hd => Or.inl hd⟩
  | fuel + 1, [], reached, _ =>
    ⟨List.Subset.refl _, nofun, fun _ hd hnew => absurd hd hnew, id, fun _ hd => Or.inl hd⟩
  | fuel + 1, source :: queue, reached, h => by
    rw [follow]
    generalize hfresh : (g.dependents source).filter (!reached.contains ·) = fresh
    have hmem {d : DerivedId} : d ∈ fresh ↔ d ∈ g.dependents source ∧ d ∉ reached := by
      rw [← hfresh, List.mem_filter, Bool.not_eq_true', ← Bool.not_eq_true, List.contains_iff_mem]
    have hfreshNodup : fresh.Nodup := hfresh ▸ (hnodup source).filter _
    have hcount : g.undiscovered (reached ++ fresh) + fresh.length = g.undiscovered reached :=
      undiscovered_append hfreshNodup fun d hd => ⟨mem_targets (hmem.mp hd).1, (hmem.mp hd).2⟩
    obtain ⟨hkept, hqueued, hclosed, hnodup', hsound⟩ := discovers_follow propertyOf hnodup fuel (queue ++ fresh.map propertyOf)
      (reached ++ fresh) (by
        rw [List.length_append, List.length_map]
        rw [List.length_cons] at h
        omega)
    have hreached : reached ⊆ follow g propertyOf fuel (queue ++ fresh.map propertyOf) (reached ++ fresh) :=
      fun d hd => hkept (List.mem_append_left _ hd)
    refine ⟨hreached, ?_, fun d hd hnew => ?_, fun hold => ?_, fun d hd => ?_⟩
    · refine List.forall_mem_cons.mpr ⟨fun d hd => ?_, fun s hs => hqueued s (List.mem_append_left _ hs)⟩
      by_cases hr : d ∈ reached
      · exact hreached hr
      · exact hkept (List.mem_append_right _ (hmem.mpr ⟨hd, hr⟩))
    · by_cases hf : d ∈ fresh
      · exact hqueued _ (List.mem_append_right _ (List.mem_map_of_mem hf))
      · exact hclosed d hd fun hmem => (List.mem_append.mp hmem).elim hnew hf
    · refine hnodup' (List.nodup_append.mpr ⟨hold, hfreshNodup, fun a ha b hb hab => ?_⟩)
      exact (hmem.mp hb).2 (hab ▸ ha)
    · obtain hd | ⟨s, hs, haffects⟩ := hsound d hd
      · obtain hd | hd := List.mem_append.mp hd
        · exact Or.inl hd
        · exact Or.inr ⟨source, List.mem_cons_self, .direct (hmem.mp hd).1⟩
      · obtain hs | hs := List.mem_append.mp hs
        · exact Or.inr ⟨s, List.mem_cons_of_mem _ hs, haffects⟩
        · -- What is computed from a fresh value is computed from the source through it.
          obtain ⟨e, he, rfl⟩ := List.mem_map.mp hs
          refine Or.inr ⟨source, List.mem_cons_self, ?_⟩
          have hfirst : g.Affects propertyOf source e := .direct (hmem.mp he).1
          clear hd
          induction haffects with
          | direct hd => exact .through hfirst hd
          | through _ hd ih => exact .through ih hd

/-- The values that are discovered are those that depend on the property, directly or through others. -/
theorem mem_affected (hnodup : ∀ source, (g.dependents source).Nodup) {source : PropertyId} {d : DerivedId} :
    d ∈ affected g propertyOf source ↔ g.Affects propertyOf source d := by
  have hbound : g.undiscovered [] ≤ g.size := by
    rw [← length_targets]
    exact (Finset.card_le_card Finset.sdiff_subset).trans (List.toFinset_card_le _)
  obtain ⟨-, hqueued, hclosed, -, hsound⟩ := discovers_follow propertyOf hnodup (g.size + 1) [source] []
    (by rw [List.length_singleton]; omega)
  constructor
  · intro hd
    obtain hd | ⟨s, hs, haffects⟩ := hsound d hd
    · cases hd
    · exact List.mem_singleton.mp hs ▸ haffects
  · intro h
    induction h with
    | direct hd => exact hqueued source List.mem_cons_self hd
    | through _ hd ih => exact hclosed _ ih List.not_mem_nil hd

theorem nodup_affected (hnodup : ∀ source, (g.dependents source).Nodup) (source : PropertyId) :
    (affected g propertyOf source).Nodup := by
  have hbound : g.undiscovered [] ≤ g.size := by
    rw [← length_targets]
    exact (Finset.card_le_card Finset.sdiff_subset).trans (List.toFinset_card_le _)
  exact (discovers_follow propertyOf hnodup (g.size + 1) [source] []
    (by rw [List.length_singleton]; omega)).nodup List.nodup_nil

/-! ### Order -/

/-- If some value of every list is ready, all values are put in order. -/
theorem settle_perm (Good : DerivedId → Prop)
    (hready : ∀ pending : List DerivedId, pending ≠ [] → (∀ d ∈ pending, Good d) →
      ∃ d ∈ pending, isReady g propertyOf pending d = true) :
    ∀ (fuel : Nat) (pending : List DerivedId), pending.length ≤ fuel → (∀ d ∈ pending, Good d) →
      (settle g propertyOf fuel pending).Perm pending
  | 0, pending, h, _ => by
    obtain rfl := List.length_eq_zero_iff.mp (Nat.le_zero.mp h)
    exact .refl _
  | fuel + 1, pending, h, hgood => by
    rw [settle]
    cases hfind : pending.find? (isReady g propertyOf pending) with
    | none =>
      dsimp only
      by_cases hnil : pending = []
      · rw [hnil]
      · obtain ⟨d, hd, hr⟩ := hready pending hnil hgood
        exact absurd hr (List.find?_eq_none.mp hfind d hd)
    | some d =>
      dsimp only
      have hd := List.mem_of_find?_eq_some hfind
      have hlength := List.length_erase_of_mem hd
      have hrest := settle_perm Good hready fuel (pending.erase d) (by omega)
        fun e he => hgood e (List.mem_of_mem_erase he)
      exact (hrest.cons d).trans (List.perm_cons_erase hd).symm

/-- A value does not stand before one that it is computed from, nor is it computed from itself. -/
theorem settle_pairwise : ∀ (fuel : Nat) (pending : List DerivedId),
    (∀ d ∈ settle g propertyOf fuel pending, d ∈ pending ∧ d ∉ g.dependents (propertyOf d)) ∧
      (settle g propertyOf fuel pending).Pairwise fun d e => d ∉ g.dependents (propertyOf e)
  | 0, _ => ⟨nofun, .nil⟩
  | fuel + 1, pending => by
    rw [settle]
    cases hfind : pending.find? (isReady g propertyOf pending) with
    | none => exact ⟨nofun, .nil⟩
    | some d =>
      dsimp only
      have hd := List.mem_of_find?_eq_some hfind
      have hready : ∀ p ∈ pending, d ∉ g.dependents (propertyOf p) := by
        intro p hp hmem
        have hfirst : isReady g propertyOf pending d = true := List.find?_some hfind
        have hall := List.all_eq_true.mp hfirst p hp
        rw [List.contains_iff_mem.mpr hmem] at hall
        cases hall
      obtain ⟨hrest, hpairwise⟩ := settle_pairwise fuel (pending.erase d)
      refine ⟨List.forall_mem_cons.mpr ⟨⟨hd, hready d hd⟩, fun e he => ?_⟩, .cons (fun e he => ?_) hpairwise⟩
      · exact ⟨List.mem_of_mem_erase (hrest e he).1, (hrest e he).2⟩
      · exact hready e (List.mem_of_mem_erase (hrest e he).1)

end DependencyGraph

/-! ### The model of a class -/

theorem DerivedSection.mem_edges {source : PropertyId} {d : Nat} : ∀ {ds : List DerivedProperty} {id : Nat},
    (source, d) ∈ edges id ds ↔ ∃ i y, ds[i]? = some y ∧ d = id + i ∧ source ∈ y.sources
  | [], id => by simp [edges]
  | y :: ds, id => by
    rw [edges, List.mem_append, mem_edges, List.mem_map]
    constructor
    · rintro (⟨s, hs, heq⟩ | ⟨i, z, hz, rfl, hs⟩)
      · cases heq
        exact ⟨0, y, rfl, rfl, hs⟩
      · exact ⟨i + 1, z, hz, by omega, hs⟩
    · rintro ⟨i, z, hz, rfl, hs⟩
      cases i with
      | zero =>
        cases hz
        exact Or.inl ⟨source, hs, rfl⟩
      | succ i => exact Or.inr ⟨i, z, hz, by omega, hs⟩

namespace ClassModel

open DependencyGraph

variable {c : ClassDecl} {m : ClassModel}

/-- A derived value is computed from a property, directly or through others. -/
inductive DependsOn (m : ClassModel) (source : PropertyId) : DerivedProperty → Prop
  | direct {d : DerivedProperty} (mem : d ∈ m.derived) (named : source ∈ d.sources) : DependsOn m source d
  | through {e d : DerivedProperty} (first : DependsOn m source e) (mem : d ∈ m.derived)
    (named : e.property ∈ d.sources) : DependsOn m source d

theorem DependsOn.mem {source : PropertyId} {d : DerivedProperty} (h : m.DependsOn source d) : d ∈ m.derived := by
  cases h <;> assumption

/-- What is computed neither from the property nor from derived values does not depend on it. -/
theorem not_dependsOn {source : PropertyId} {d : DerivedProperty} (hdirect : source ∉ d.sources)
    (hthrough : ∀ e ∈ m.derived, e.property ∉ d.sources) : ¬ m.DependsOn source d := by
  intro h
  cases h with
  | direct _ named => exact hdirect named
  | through first _ named => exact hthrough _ first.mem named

theorem mem_dependents (ha : m.Analyzed c) {source : PropertyId} {d : DerivedId} :
    d ∈ m.graph.dependents source ↔ ∃ y, m.derived[d]? = some y ∧ source ∈ y.sources := by
  rw [ha.graph, mem_dependents_ofEdges, DerivedSection.mem_edges]
  constructor
  · rintro ⟨i, y, hy, rfl, hs⟩
    exact ⟨y, by rwa [Nat.zero_add], hs⟩
  · rintro ⟨y, hy, hs⟩
    exact ⟨d, y, hy, (Nat.zero_add d).symm, hs⟩

theorem nodup_dependents (ha : m.Analyzed c) (source : PropertyId) : (m.graph.dependents source).Nodup := by
  rw [ha.graph]
  exact nodup_dependents_ofEdges _ source

theorem propertyOf_eq {d : DerivedId} {x : DerivedProperty} (h : m.derived[d]? = some x) :
    m.propertyOf d = x.property := by
  rw [propertyOf, h]
  rfl

/-- A derived value is affected by a write if it depends on what is written. -/
theorem affects_iff (ha : m.Analyzed c) {source : PropertyId} {d : DerivedId} {x : DerivedProperty}
    (hx : m.derived[d]? = some x) : m.graph.Affects m.propertyOf source d → m.DependsOn source x := by
  intro h
  induction h generalizing x with
  | direct hd =>
    obtain ⟨y, hy, hs⟩ := (mem_dependents ha).mp hd
    rw [hx] at hy
    cases hy
    exact .direct (List.mem_of_getElem? hx) hs
  | @through e d haff hd ih =>
    obtain ⟨y, hy, hs⟩ := (mem_dependents ha).mp hd
    rw [hx] at hy
    cases hy
    have hin : ∃ z, m.derived[e]? = some z := by
      cases haff with
      | direct he =>
        obtain ⟨z, hz, -⟩ := (mem_dependents ha).mp he
        exact ⟨z, hz⟩
      | through _ he =>
        obtain ⟨z, hz, -⟩ := (mem_dependents ha).mp he
        exact ⟨z, hz⟩
    obtain ⟨z, hz⟩ := hin
    rw [propertyOf_eq hz] at hs
    exact .through (ih hz) (List.mem_of_getElem? hx) hs

theorem exists_affects (ha : m.Analyzed c) {source : PropertyId} {x : DerivedProperty} (h : m.DependsOn source x)
    {d : DerivedId} (hx : m.derived[d]? = some x) : m.graph.Affects m.propertyOf source d := by
  induction h generalizing d with
  | direct mem named => exact .direct ((mem_dependents ha).mpr ⟨_, hx, named⟩)
  | @through e y first mem named ih =>
    obtain ⟨i, hi⟩ := List.mem_iff_getElem?.mp first.mem
    refine .through (ih hi) ((mem_dependents ha).mpr ⟨_, hx, ?_⟩)
    rw [propertyOf_eq hi]
    exact named

/-- No derived value being computed from itself, sources come first in some order. -/
theorem wellFounded_feeds (ho : m.Orderly) : WellFounded m.Feeds := by
  have htrans : IsTrans (Fin m.derived.length) fun a b => Relation.TransGen m.Feeds a b :=
    ⟨fun _ _ _ hab hbc => hab.trans hbc⟩
  have hirrefl : Std.Irrefl fun a b : Fin m.derived.length => Relation.TransGen m.Feeds a b := ⟨fun a => ho.acyclic a⟩
  have hwf : WellFounded fun a b : Fin m.derived.length => Relation.TransGen m.Feeds a b :=
    Finite.wellFounded_of_trans_of_irrefl _
  have hlt {e d : DerivedId} (h : m.Feeds e d) : e < m.derived.length := by
    obtain ⟨x, -, hx, -⟩ := h
    exact (List.getElem?_eq_some_iff.mp hx).1
  have hacc (a : Fin m.derived.length) : Acc m.Feeds a := by
    induction a using hwf.induction with
    | _ a ih => exact .intro _ fun e he => ih ⟨e, hlt he⟩ (.single he)
  exact ⟨fun d => .intro d fun e he => hacc ⟨e, hlt he⟩⟩

/-- Some value of every list is computed from none of them. -/
theorem exists_ready (ha : m.Analyzed c) (ho : m.Orderly) (pending : List DerivedId) (hne : pending ≠ [])
    (hin : ∀ d ∈ pending, d < m.derived.length) : ∃ d ∈ pending, isReady m.graph m.propertyOf pending d = true := by
  obtain ⟨e, he⟩ := List.exists_mem_of_ne_nil pending hne
  obtain ⟨d, hd, hmin⟩ := (wellFounded_feeds ho).has_min {d | d ∈ pending} ⟨e, he⟩
  refine ⟨d, hd, List.all_eq_true.mpr fun p hp => ?_⟩
  rw [Bool.not_eq_true', ← Bool.not_eq_true, List.contains_iff_mem]
  intro hmem
  obtain ⟨y, hy, hs⟩ := (mem_dependents ha).mp hmem
  have hx := List.getElem?_eq_getElem (hin p hp)
  rw [propertyOf_eq hx] at hs
  exact hmin p hp ⟨_, y, hx, hy, hs⟩

theorem lt_of_affects (ha : m.Analyzed c) {source : PropertyId} {d : DerivedId}
    (h : m.graph.Affects m.propertyOf source d) : d < m.derived.length := by
  cases h with
  | direct hd =>
    obtain ⟨y, hy, -⟩ := (mem_dependents ha).mp hd
    exact (List.getElem?_eq_some_iff.mp hy).1
  | through _ hd =>
    obtain ⟨y, hy, -⟩ := (mem_dependents ha).mp hd
    exact (List.getElem?_eq_some_iff.mp hy).1

theorem propagation_perm (ha : m.Analyzed c) (ho : m.Orderly) (source : PropertyId) :
    (m.propagation source).Perm (m.graph.affected m.propertyOf source) :=
  settle_perm (· < m.derived.length) (exists_ready ha ho) _ _ (Nat.le_refl _)
    fun _ hd => lt_of_affects ha ((mem_affected (nodup_dependents ha)).mp hd)

/-- A write to a reactive property affects the derived values that depend on it. -/
theorem mem_affected_iff (ha : m.Analyzed c) (ho : m.Orderly) {p : MutableProperty} {d : DerivedProperty} :
    d ∈ m.affected p ↔ m.DependsOn p.id d := by
  unfold ClassModel.affected
  rw [List.mem_filterMap]
  constructor
  · rintro ⟨i, hi, hd⟩
    exact affects_iff ha hd ((mem_affected (nodup_dependents ha)).mp ((propagation_perm ha ho p.id).subset hi))
  · intro h
    obtain ⟨i, hi⟩ := List.mem_iff_getElem?.mp h.mem
    refine ⟨i, (propagation_perm ha ho p.id).symm.subset ?_, hi⟩
    exact (mem_affected (nodup_dependents ha)).mpr (exists_affects ha h hi)

/-- No derived value is affected twice. -/
theorem nodup_affected (ha : m.Analyzed c) (ho : m.Orderly) (p : MutableProperty) :
    ((m.affected p).map DerivedProperty.name).Nodup := by
  have hids : (m.propagation p.id).Nodup :=
    (propagation_perm ha ho p.id).symm.nodup (DependencyGraph.nodup_affected (nodup_dependents ha) p.id)
  unfold ClassModel.affected
  rw [List.map_filterMap]
  refine List.Nodup.filterMap ?_ hids
  intro i j n hi hj
  obtain ⟨x, hx, rfl⟩ := Option.map_eq_some_iff.mp hi
  obtain ⟨y, hy, hname⟩ := Option.map_eq_some_iff.mp hj
  obtain ⟨hilt, rfl⟩ := List.getElem?_eq_some_iff.mp hx
  obtain ⟨hjlt, rfl⟩ := List.getElem?_eq_some_iff.mp hy
  have hsame := List.inj_on_of_nodup_map ho.distinct (List.getElem_mem hilt) (List.getElem_mem hjlt) hname.symm
  exact (List.Nodup.of_map _ ho.distinct).getElem_inj_iff.mp hsame

/-- An affected value stands behind those that it is computed from. -/
theorem pairwise_affected (ha : m.Analyzed c) (p : MutableProperty) :
    (m.affected p).Pairwise fun d e => e.property ∉ d.sources := by
  unfold ClassModel.affected
  refine List.Pairwise.filterMap _ ?_ (settle_pairwise _ _).2
  intro i j hij x hx y hy hs
  refine hij ((mem_dependents ha).mpr ⟨x, hx, ?_⟩)
  rw [propertyOf_eq hy]
  exact hs

end ClassModel

end Reactive
