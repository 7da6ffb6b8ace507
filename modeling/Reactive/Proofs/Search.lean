import Mathlib.Data.Finset.Card
import Mathlib.Logic.Relation
import Reactive.Graph.Components

/-!
# Reactive.Proofs.Search — what a depth-first search finds

* `Digraph.Closes`: what a part of a search leaves behind; all successors of what it meets are met.
* `Digraph.mem_reachable_iff`: a search from a vertex finishes exactly the vertices that can be reached from it.
* `Digraph.component_mem_components`, `Digraph.pairwise_componentsOf`: every vertex is in one component.
* `Digraph.exists_cyclic_iff`: the cyclic components hold the vertices that lie on a cycle.
-/

namespace Reactive.Digraph

variable {g : Digraph}

/-- There is an edge from a vertex to another one. -/
def Edge (g : Digraph) (v w : Nat) : Prop := w ∈ g.successors v

theorem Edge.lt {v w : Nat} (h : g.Edge v w) : v < g.length := by
  by_contra hle
  have hnone : g.successors v = [] := by
    rw [successors, List.getElem?_eq_none (by omega)]
    rfl
  unfold Edge at h
  rw [hnone] at h
  cases h

/-- The number of vertices that a search has not met. -/
def unmet (g : Digraph) (s : Search) : Nat := (Finset.range g.length \ s.met.toFinset).card

theorem unmet_mono {s s' : Search} (h : s.met ⊆ s'.met) : g.unmet s' ≤ g.unmet s := by
  refine Finset.card_le_card fun v hv => ?_
  simp only [Finset.mem_sdiff, List.mem_toFinset] at hv ⊢
  exact ⟨hv.1, fun hmem => hv.2 (h hmem)⟩

theorem unmet_lt {s s' : Search} {v : Nat} (h : s.met ⊆ s'.met) (hv : v < g.length) (hold : v ∉ s.met)
    (hnew : v ∈ s'.met) : g.unmet s' < g.unmet s := by
  refine Finset.card_lt_card (Finset.ssubset_iff_subset_ne.mpr ⟨fun w hw => ?_, fun heq => ?_⟩)
  · simp only [Finset.mem_sdiff, List.mem_toFinset] at hw ⊢
    exact ⟨hw.1, fun hmem => hw.2 (h hmem)⟩
  · have hmem : v ∈ Finset.range g.length \ s.met.toFinset := by simp [hv, hold]
    rw [← heq] at hmem
    simp [hnew] at hmem

theorem unmet_start (g : Digraph) : g.unmet ⟨[], []⟩ ≤ g.length := by
  have hle := Finset.card_le_card (Finset.sdiff_subset (s := Finset.range g.length) (t := ([] : List Nat).toFinset))
  rwa [Finset.card_range] at hle

/-- What a part of a search leaves behind: it has met vertices, all their successors, and finished them. -/
structure Closes (g : Digraph) (s s' : Search) : Prop where
  met : s.met ⊆ s'.met
  finished : s.finished ⊆ s'.finished
  successors : ∀ v ∈ s'.met, v ∉ s.met → ∀ w, g.Edge v w → w ∈ s'.met
  ended : ∀ v ∈ s'.met, v ∉ s.met → v ∈ s'.finished

theorem Closes.refl (s : Search) : g.Closes s s :=
  ⟨List.Subset.refl _, List.Subset.refl _, fun _ h h' => absurd h h', fun _ h h' => absurd h h'⟩

theorem Closes.trans {s₁ s₂ s₃ : Search} (h : g.Closes s₁ s₂) (h' : g.Closes s₂ s₃) : g.Closes s₁ s₃ := by
  refine ⟨List.Subset.trans h.met h'.met, List.Subset.trans h.finished h'.finished, fun v hv hnew w hw => ?_, fun v hv hnew => ?_⟩
  · by_cases hv₂ : v ∈ s₂.met
    · exact h'.met (h.successors v hv₂ hnew w hw)
    · exact h'.successors v hv hv₂ w hw
  · by_cases hv₂ : v ∈ s₂.met
    · exact h'.finished (h.ended v hv₂ hnew)
    · exact h'.ended v hv hv₂

/-- Visits one after another. -/
theorem closes_foldl {depth : Nat}
    (hvisit : ∀ s v, g.unmet s < depth → g.Closes s (g.visit depth s v) ∧ v ∈ (g.visit depth s v).met) :
    ∀ (vs : List Nat) (s : Search), g.unmet s < depth → g.Closes s (vs.foldl (g.visit depth) s) ∧
      ∀ v ∈ vs, v ∈ (vs.foldl (g.visit depth) s).met
  | [], s, _ => ⟨.refl s, nofun⟩
  | v :: vs, s, hs => by
    obtain ⟨hclose, hv⟩ := hvisit s v hs
    obtain ⟨hrest, hvs⟩ := closes_foldl hvisit vs (g.visit depth s v) (Nat.lt_of_le_of_lt (unmet_mono hclose.met) hs)
    exact ⟨hclose.trans hrest, List.forall_mem_cons.mpr ⟨hrest.met hv, hvs⟩⟩

/-- A visit that may go deeper than there are vertices left meets everything behind its vertex. -/
theorem closes_visit : ∀ (depth : Nat) (s : Search) (v : Nat), g.unmet s < depth →
    g.Closes s (g.visit depth s v) ∧ v ∈ (g.visit depth s v).met
  | 0, _, _, h => absurd h (Nat.not_lt_zero _)
  | depth + 1, s, v, h => by
    rw [visit]
    by_cases hmet : v ∈ s.met
    · rw [if_pos (List.contains_iff_mem.mpr hmet)]
      exact ⟨.refl s, hmet⟩
    · rw [if_neg (fun hc => hmet (List.contains_iff_mem.mp hc))]
      dsimp only
      have hsub : s.met ⊆ v :: s.met := List.subset_cons_self v s.met
      -- A vertex that is none of the graph has no successors; another one is one less to meet.
      have hfold : g.Closes ⟨v :: s.met, s.finished⟩ ((g.successors v).foldl (g.visit depth) ⟨v :: s.met, s.finished⟩) ∧
          ∀ w ∈ g.successors v, w ∈ ((g.successors v).foldl (g.visit depth) ⟨v :: s.met, s.finished⟩).met := by
        by_cases hv : v < g.length
        · refine closes_foldl (closes_visit depth) _ _ ?_
          have hlt : g.unmet ⟨v :: s.met, s.finished⟩ < g.unmet s := unmet_lt hsub hv hmet List.mem_cons_self
          omega
        · have hnone : g.successors v = [] := by
            rw [successors, List.getElem?_eq_none (by omega)]
            rfl
          rw [hnone]
          exact ⟨.refl _, nofun⟩
      obtain ⟨hclose, hsuccessors⟩ := hfold
      refine ⟨⟨List.Subset.trans hsub hclose.met, fun w hw => List.mem_append_left _ (hclose.finished hw), ?_, ?_⟩,
        hclose.met List.mem_cons_self⟩
      · intro u hu hnew w hw
        by_cases huv : u = v
        · subst huv
          exact hsuccessors w hw
        · exact hclose.successors u hu (fun hmem => (List.mem_cons.mp hmem).elim huv hnew) w hw
      · intro u hu hnew
        by_cases huv : u = v
        · subst huv
          exact List.mem_append_right _ List.mem_cons_self
        · exact List.mem_append_left _ (hclose.ended u hu fun hmem => (List.mem_cons.mp hmem).elim huv hnew)

/-- A search from a vertex finishes every vertex that can be reached from it. -/
theorem mem_reachable {v w : Nat} (h : Relation.ReflTransGen g.Edge v w) : w ∈ g.reachable v := by
  obtain ⟨hclose, hv⟩ := closes_visit (g.length + 1) ⟨[], []⟩ v (Nat.lt_succ_of_le (unmet_start g))
  refine hclose.ended w ?_ List.not_mem_nil
  induction h with
  | refl => exact hv
  | tail _ hedge ih => exact hclose.successors _ ih List.not_mem_nil _ hedge

/-- A search from all vertices finishes all of them. -/
theorem mem_finishOrder {v : Nat} (h : v < g.length) : v ∈ g.finishOrder := by
  obtain ⟨hclose, hall⟩ := closes_foldl (closes_visit (g.length + 1)) (List.range g.length) ⟨[], []⟩
    (Nat.lt_succ_of_le (unmet_start g))
  exact hclose.ended v (hall v (List.mem_range.mpr h)) List.not_mem_nil

/-! ### Only what can be reached -/

/-- Visits one after another finish nothing but what each of them may. -/
theorem reach_of_mem_foldl {depth v w : Nat}
    (hvisit : ∀ s u, w ∈ (g.visit depth s u).finished → w ∈ s.finished ∨ Relation.ReflTransGen g.Edge u w) :
    ∀ (us : List Nat) (s : Search), (∀ u ∈ us, g.Edge v u) → w ∈ (us.foldl (g.visit depth) s).finished →
      w ∈ s.finished ∨ Relation.ReflTransGen g.Edge v w
  | [], _, _, h => Or.inl h
  | u :: us, s, hedge, h => by
    obtain ⟨hu, hus⟩ := List.forall_mem_cons.mp hedge
    obtain h | h := reach_of_mem_foldl hvisit us (g.visit depth s u) hus h
    · exact (hvisit s u h).imp_right (.head hu)
    · exact Or.inr h

/-- What a visit finishes was finished before, or can be reached from its vertex. -/
theorem reach_of_mem_visit {w : Nat} : ∀ (depth : Nat) (s : Search) (v : Nat), w ∈ (g.visit depth s v).finished →
    w ∈ s.finished ∨ Relation.ReflTransGen g.Edge v w
  | 0, _, _, h => Or.inl h
  | depth + 1, s, v, h => by
    rw [visit] at h
    split at h
    · exact Or.inl h
    · obtain h | h := List.mem_append.mp h
      · exact reach_of_mem_foldl (reach_of_mem_visit depth) _ ⟨v :: s.met, s.finished⟩ (fun _ hu => hu) h
      · obtain rfl := List.mem_singleton.mp h
        exact Or.inr .refl

/-- A search from a vertex finishes exactly what can be reached from it. -/
theorem mem_reachable_iff {v w : Nat} : w ∈ g.reachable v ↔ Relation.ReflTransGen g.Edge v w :=
  ⟨fun h => (reach_of_mem_visit _ _ _ h).resolve_left List.not_mem_nil, mem_reachable⟩

/-! ### Components -/

theorem connected_iff {v w : Nat} : g.connected v w = true ↔
    Relation.ReflTransGen g.Edge v w ∧ Relation.ReflTransGen g.Edge w v := by
  rw [connected, Bool.and_eq_true, List.contains_iff_mem, List.contains_iff_mem, mem_reachable_iff, mem_reachable_iff]

theorem connected_refl (v : Nat) : g.connected v v = true := connected_iff.mpr ⟨.refl, .refl⟩

theorem connected_symm {v w : Nat} (h : g.connected v w = true) : g.connected w v = true :=
  connected_iff.mpr (connected_iff.mp h).symm

theorem connected_trans {u v w : Nat} (h : g.connected u v = true) (h' : g.connected v w = true) :
    g.connected u w = true :=
  connected_iff.mpr ⟨(connected_iff.mp h).1.trans (connected_iff.mp h').1,
    (connected_iff.mp h').2.trans (connected_iff.mp h).2⟩

theorem mem_component {v w : Nat} : w ∈ g.component v ↔ w < g.length ∧ g.connected v w = true := by
  rw [component, List.mem_filter, List.mem_range]

/-- Connected vertices have the same component. -/
theorem component_eq {v w : Nat} (h : g.connected v w = true) : g.component v = g.component w := by
  refine List.filter_congr fun u _ => ?_
  rw [Bool.eq_iff_iff]
  exact ⟨connected_trans (connected_symm h), connected_trans h⟩

theorem mem_componentsOf : ∀ {vs : List Nat} {component : List Nat}, component ∈ g.componentsOf vs →
    ∃ v ∈ vs, component = g.component v
  | x :: later, component, h => by
    have hlater (h : component ∈ g.componentsOf later) : ∃ v ∈ x :: later, component = g.component v := by
      obtain ⟨v, hv, heq⟩ := mem_componentsOf h
      exact ⟨v, List.mem_cons_of_mem x hv, heq⟩
    rw [componentsOf] at h
    split at h
    · exact hlater h
    · obtain rfl | h := List.mem_cons.mp h
      · exact ⟨x, List.mem_cons_self, rfl⟩
      · exact hlater h

/-- A component consists of vertices of the graph. -/
theorem lt_of_mem_components {component : List Nat} (h : component ∈ g.components) {v : Nat} (hv : v ∈ component) :
    v < g.length := by
  obtain ⟨w, -, rfl⟩ := mem_componentsOf h
  exact (mem_component.mp hv).1

/-- The component of every vertex of a list is listed. -/
theorem component_mem_componentsOf : ∀ {vs : List Nat} {v : Nat}, v ∈ vs → g.component v ∈ g.componentsOf vs
  | x :: later, v, hv => by
    rw [componentsOf]
    split
    · rename_i hany
      obtain rfl | hv := List.mem_cons.mp hv
      · obtain ⟨u, hu, hconnected⟩ := List.any_eq_true.mp hany
        exact component_eq hconnected ▸ component_mem_componentsOf hu
      · exact component_mem_componentsOf hv
    · obtain rfl | hv := List.mem_cons.mp hv
      · exact List.mem_cons_self
      · exact List.mem_cons_of_mem _ (component_mem_componentsOf hv)

theorem component_mem_components {v : Nat} (h : v < g.length) : g.component v ∈ g.components :=
  component_mem_componentsOf (mem_finishOrder h)

/-- No vertex is in two of the components. -/
theorem pairwise_componentsOf : ∀ vs : List Nat, (g.componentsOf vs).Pairwise List.Disjoint
  | [] => .nil
  | x :: later => by
    rw [componentsOf]
    split
    · exact pairwise_componentsOf later
    · rename_i hnone
      refine .cons (fun component hcomponent v hv hv' => ?_) (pairwise_componentsOf later)
      obtain ⟨u, hu, rfl⟩ := mem_componentsOf hcomponent
      have hconnected := connected_trans (mem_component.mp hv).2 (connected_symm (mem_component.mp hv').2)
      exact hnone (List.any_eq_true.mpr ⟨u, hu, hconnected⟩)

/-! ### Cycles -/

/-- The component of a vertex is a cycle if the vertex can be reached from itself over an edge. -/
theorem isCyclic_component_iff {v : Nat} (hv : v < g.length) :
    g.isCyclic (g.component v) = true ↔ Relation.TransGen g.Edge v v := by
  have hself : v ∈ g.component v := mem_component.mpr ⟨hv, connected_refl v⟩
  have hnodup : (g.component v).Nodup := List.nodup_range.filter _
  constructor
  · intro hcyclic
    -- Another vertex of the component is on the way from `v` to `v`.
    have hother {w : Nat} (hw : w ∈ g.component v) (hne : w ≠ v) : Relation.TransGen g.Edge v v := by
      obtain ⟨hvw, hwv⟩ := connected_iff.mp (mem_component.mp hw).2
      obtain rfl | ⟨u, hvu, huw⟩ := Relation.ReflTransGen.cases_head hvw
      · exact absurd rfl hne
      · exact Relation.TransGen.head' hvu (huw.trans hwv)
    cases hcomponent : g.component v with
    | nil =>
      rw [hcomponent] at hself
      cases hself
    | cons u rest =>
      rw [hcomponent] at hself hnodup hcyclic hother
      cases rest with
      | nil =>
        obtain rfl := List.mem_singleton.mp hself
        exact .single (List.contains_iff_mem.mp hcyclic)
      | cons u' rest =>
        by_cases hu : u = v
        · subst hu
          refine hother (List.mem_cons_of_mem _ List.mem_cons_self) fun heq => ?_
          exact (List.nodup_cons.mp hnodup).1 (heq ▸ List.mem_cons_self)
        · exact hother List.mem_cons_self hu
  · intro hcycle
    cases hcomponent : g.component v with
    | nil =>
      rw [hcomponent] at hself
      cases hself
    | cons u rest =>
      cases rest with
      | cons u' rest => rfl
      | nil =>
        rw [hcomponent] at hself
        obtain rfl := List.mem_singleton.mp hself
        obtain ⟨w, hvw, hwv⟩ := Relation.TransGen.head'_iff.mp hcycle
        -- The first vertex behind `v` on the way back to `v` is connected with it.
        obtain hwv' | ⟨u, hwu, -⟩ := Relation.ReflTransGen.cases_head hwv
        · exact List.contains_iff_mem.mpr (hwv' ▸ hvw)
        · have hw : w ∈ g.component v := mem_component.mpr ⟨hwu.lt, connected_iff.mpr ⟨.single hvw, hwv⟩⟩
          rw [hcomponent] at hw
          exact List.contains_iff_mem.mpr (List.mem_singleton.mp hw ▸ hvw)

/-- The cyclic components hold the vertices that lie on a cycle. -/
theorem exists_cyclic_iff {v : Nat} :
    (∃ component ∈ g.components.filter g.isCyclic, v ∈ component) ↔ Relation.TransGen g.Edge v v := by
  constructor
  · rintro ⟨component, hcomponent, hv⟩
    obtain ⟨hcomponent, hcyclic⟩ := List.mem_filter.mp hcomponent
    obtain ⟨u, -, rfl⟩ := mem_componentsOf hcomponent
    obtain ⟨hlt, hconnected⟩ := mem_component.mp hv
    exact (isCyclic_component_iff hlt).mp (component_eq hconnected ▸ hcyclic)
  · intro hcycle
    obtain ⟨w, hvw, -⟩ := Relation.TransGen.head'_iff.mp hcycle
    refine ⟨g.component v, List.mem_filter.mpr ⟨component_mem_components hvw.lt, ?_⟩,
      mem_component.mpr ⟨hvw.lt, connected_refl v⟩⟩
    exact (isCyclic_component_iff hvw.lt).mpr hcycle

end Reactive.Digraph
