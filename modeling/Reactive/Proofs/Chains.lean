import Reactive.Proofs.Rejection

/-!
# Reactive.Proofs.Chains — what the chain of a reported cycle says

A finding about a cycle names a whole component of values that are computed from each other, in the order in which they
are staged.  So each name of the chain is computed from the next one, but in general through other values: the chain
itself need not be a path of sources.  It is one if it has at most two names.

* `Digraph.edge_of_pair`: two vertices that are a whole component have edges to each other.
* `Staged.transGen_of_members`, `Staged.hasSource_of_pair`: the same of the members of a cycle.
* `reported_chain_reaches`: what every finding about a cycle says.
-/

namespace Reactive

namespace Digraph

variable {g : Digraph} {v i j : Nat}

/-- In a cyclic component every vertex can be reached from every vertex, itself included. -/
theorem transGen_of_component (hcyclic : g.isCyclic (g.component v) = true) (hi : i ∈ g.component v)
    (hj : j ∈ g.component v) : Relation.TransGen g.Edge i j := by
  obtain ⟨hlt, hvi⟩ := mem_component.mp hi
  obtain ⟨-, hvj⟩ := mem_component.mp hj
  rw [component_eq hvi] at hcyclic
  have hself : Relation.TransGen g.Edge i i := (isCyclic_component_iff hlt).mp hcyclic
  exact hself.trans_left (connected_iff.mp (connected_trans (connected_symm hvi) hvj)).1

/-- Whatever lies on a way from one vertex of a component to another is in the component. -/
theorem mem_component_of_between {k : Nat} (hi : i ∈ g.component v) (hj : j ∈ g.component v) (hlt : k < g.length)
    (hik : Relation.ReflTransGen g.Edge i k) (hkj : Relation.ReflTransGen g.Edge k j) : k ∈ g.component v := by
  obtain ⟨-, hvi⟩ := mem_component.mp hi
  obtain ⟨-, hvj⟩ := mem_component.mp hj
  refine mem_component.mpr ⟨hlt, connected_iff.mpr ⟨?_, ?_⟩⟩
  · exact (connected_iff.mp hvi).1.trans hik
  · exact hkj.trans (connected_iff.mp hvj).2

/-- A component of two vertices has an edge from each of them to the other. -/
theorem edge_of_pair (hpair : ∀ k, k ∈ g.component v ↔ k = i ∨ k = j) (hne : i ≠ j) : g.Edge i j := by
  have hi : i ∈ g.component v := (hpair i).mpr (Or.inl rfl)
  have hj : j ∈ g.component v := (hpair j).mpr (Or.inr rfl)
  obtain ⟨-, hvi⟩ := mem_component.mp hi
  obtain ⟨hlt, hvj⟩ := mem_component.mp hj
  have hreach : Relation.ReflTransGen g.Edge i j := (connected_iff.mp (connected_trans (connected_symm hvi) hvj)).1
  -- A way that begins with an edge from `i` to itself goes on from `i`.
  suffices h : ∀ k, Relation.ReflTransGen g.Edge k j → k = i → g.Edge i j from h i hreach rfl
  intro k hk
  induction hk using Relation.ReflTransGen.head_induction_on with
  | refl => exact fun heq => absurd heq.symm hne
  | head hedge hrest ih =>
    rename_i a b
    rintro rfl
    have hb : b < g.length := by
      obtain rfl | ⟨u, hu, -⟩ := hrest.cases_head
      · exact hlt
      · exact hu.lt
    obtain rfl | rfl := (hpair b).mp (mem_component_of_between hi hj hb (.single hedge) hrest)
    · exact ih rfl
    · exact hedge

end Digraph

namespace Staged

variable {staged : List Staged} {cycle : List Nat}

/-- The members of a cycle are what stands at its places. -/
theorem forall₂_members (h : cycle ∈ cycles staged) :
    List.Forall₂ (fun i s => staged[i]? = some s) cycle (members staged cycle) := by
  have hlt : ∀ i ∈ cycle, i < staged.length := by
    intro i hi
    have hlength : (digraph staged).length = staged.length := List.length_map _
    exact hlength ▸ Digraph.lt_of_mem_components (List.mem_filter.mp h).1 hi
  clear h
  induction cycle with
  | nil => exact .nil
  | cons i rest ih =>
    obtain ⟨hi, hrest⟩ := List.forall_mem_cons.mp hlt
    have hs := List.getElem?_eq_getElem hi
    rw [members, List.filterMap_cons_some hs]
    exact .cons hs (ih hrest)

/-- The members of a cycle are computed from each other, and from themselves. -/
theorem transGen_of_members (h : cycle ∈ cycles staged) {s t : Staged} (hs : s ∈ members staged cycle)
    (ht : t ∈ members staged cycle) : Relation.TransGen (HasSource staged) s t := by
  obtain ⟨hcomponent, hcyclic⟩ := List.mem_filter.mp h
  obtain ⟨v, -, rfl⟩ := Digraph.mem_componentsOf hcomponent
  obtain ⟨i, hi, his⟩ := List.mem_filterMap.mp hs
  obtain ⟨j, hj, hjt⟩ := List.mem_filterMap.mp ht
  exact transGen_of_edges his hjt (Digraph.transGen_of_component hcyclic hi hj)

/-- A cycle of one value: it is its own source. -/
theorem hasSource_of_singleton (h : cycle ∈ cycles staged) {s : Staged} (hmembers : members staged cycle = [s]) :
    HasSource staged s s := by
  have hplaces := forall₂_members h
  rw [hmembers] at hplaces
  obtain ⟨i, rest, hs, hrest, rfl⟩ := List.forall₂_cons_right_iff.mp hplaces
  obtain rfl := List.forall₂_nil_right_iff.mp hrest
  obtain ⟨-, hcyclic⟩ := List.mem_filter.mp h
  exact hasSource_of_edge hs hs (List.contains_iff_mem.mp hcyclic)

/-- A cycle of two values: each is a source of the other. -/
theorem hasSource_of_pair (h : cycle ∈ cycles staged) {s t : Staged} (hmembers : members staged cycle = [s, t]) :
    HasSource staged s t ∧ HasSource staged t s := by
  have hplaces := forall₂_members h
  rw [hmembers] at hplaces
  obtain ⟨i, rest, hs, hplaces', rfl⟩ := List.forall₂_cons_right_iff.mp hplaces
  obtain ⟨j, others, ht, hnone, rfl⟩ := List.forall₂_cons_right_iff.mp hplaces'
  obtain rfl := List.forall₂_nil_right_iff.mp hnone
  obtain ⟨v, -, hcomponent⟩ := Digraph.mem_componentsOf (List.mem_filter.mp h).1
  have hne : i ≠ j := by
    have hnodup : [i, j].Nodup := hcomponent ▸ List.nodup_range.filter _
    exact fun heq => (List.nodup_cons.mp hnodup).1 (List.mem_singleton.mpr heq)
  have hpair (k : Nat) : k ∈ (digraph staged).component v ↔ k = i ∨ k = j := by
    rw [← hcomponent, List.mem_cons, List.mem_singleton]
  exact ⟨hasSource_of_edge hs ht (Digraph.edge_of_pair hpair hne),
    hasSource_of_edge ht hs (Digraph.edge_of_pair (fun k => (hpair k).trans or_comm) hne.symm)⟩

/-- The chain of a cycle of at most two values follows their sources. -/
theorem isChain_of_members (h : cycle ∈ cycles staged) {first : Staged} {rest : List Staged}
    (hmembers : members staged cycle = first :: rest) (hlength : rest.length ≤ 1) :
    List.IsChain (HasSource staged) (first :: rest ++ [first]) := by
  cases rest with
  | nil => exact .cons_cons (hasSource_of_singleton h hmembers) (.singleton _)
  | cons second others =>
    obtain rfl : others = [] := List.eq_nil_of_length_eq_zero (Nat.le_zero.mp (Nat.le_of_succ_le_succ hlength))
    obtain ⟨hforth, hback⟩ := hasSource_of_pair h hmembers
    exact .cons_cons hforth (.cons_cons hback (.singleton _))

end Staged

/-- All that is found in a class that is skipped. -/
theorem DeclarationSet.findings_of_skipped (s : DeclarationSet) {c : ClassDecl} (h : (s.analyzeClass c).1 = none) :
    (s.analyzeClass c).2 = if !s.isReactive c then [] else [⟨.notExtensible c.name, c.nameSpan⟩] := by
  unfold analyzeClass at h ⊢
  split
  · rfl
  · rename_i hreactive
    rw [if_neg hreactive] at h
    split
    · rfl
    · rename_i hpartial
      rw [if_neg hpartial] at h
      exact absurd h (Option.some_ne_none _)

/-- Findings about cycles are about the cycles of what is staged. -/
theorem DeclarationSet.reports_of_analyzeClass {s : DeclarationSet} {c : ClassDecl} {f : Finding}
    (hf : f ∈ (s.analyzeClass c).2) (hcode : f.code = "RX0006") :
    ∃ cycle ∈ Staged.cycles c.staged, Staged.Reports f (Staged.members c.staged cycle) := by
  cases hclass : (s.analyzeClass c).1 with
  | none =>
    -- A class that is skipped is reported for another reason.
    rw [s.findings_of_skipped hclass] at hf
    split at hf
    · cases hf
    · rw [List.mem_singleton.mp hf] at hcode
      exact absurd hcode (show "RX0001" ≠ "RX0006" by decide)
  | some model =>
    obtain ⟨d, hfindings, hbuilt, -, -⟩ := built_of_analyzeClass hclass
    have hreported : f ∈ (Staged.cycles c.staged).filterMap (Staged.cycleFinding c.staged) := by
      rw [← hbuilt.cycles, Draft.cycles, hfindings]
      exact List.mem_filter.mpr ⟨hf, Finding.isCycle_iff.mpr hcode⟩
    obtain ⟨group, hgroup, hreports⟩ := exists_mem_left (Staged.reports_cycles c.staged) hreported
    obtain ⟨cycle, hcycle, rfl⟩ := List.mem_map.mp hgroup
    exact ⟨cycle, hcycle, hreports⟩

/-- A finding about a cycle names staged values that are computed from each other, so each value of the chain is computed
from the next one, directly or through others.  If there are one or two of them, always directly. -/
theorem reported_chain_reaches {s : DeclarationSet} {c : ClassDecl} {f : Finding} (hf : f ∈ (s.analyzeClass c).2)
    (hcode : f.code = "RX0006") :
    ∃ first rest, Staged.Reports f (first :: rest) ∧ (first :: rest).Sublist c.staged ∧
      (∀ t ∈ first :: rest, ∀ u ∈ first :: rest, Relation.TransGen (Staged.HasSource c.staged) t u) ∧
      (rest.length ≤ 1 → List.IsChain (Staged.HasSource c.staged) (first :: rest ++ [first])) := by
  obtain ⟨cycle, hcycle, hreports⟩ := DeclarationSet.reports_of_analyzeClass hf hcode
  generalize c.staged = staged at hcycle hreports ⊢
  have hsublist := Staged.members_sublist hcycle
  have hreach {t u : Staged} := Staged.transGen_of_members (s := t) (t := u) hcycle
  obtain ⟨first, rest, heq, -⟩ := id hreports
  rw [heq] at hreports hsublist
  refine ⟨first, rest, hreports, hsublist, fun t ht u hu => ?_, Staged.isChain_of_members hcycle heq⟩
  rw [← heq] at ht hu
  exact hreach ht hu

/-- Three seats of a carousel, each computed from the one ahead of it, which is the last one for the first. -/
def carousel : ClassDecl where
  name := "Carousel"
  typeParams := []
  modifiers := [.partial_]
  bases := [⟨"IReactiveObject", [], false⟩]
  members :=
    [derivedFrom "First" ["Third"] (.name "Third" .none), derivedFrom "Second" ["First"] (.name "First" .none),
      derivedFrom "Third" ["Second"] (.name "Second" .none)]
  nameSpan := .none
  span := .none

/-- The chain is in the order of the members, and none of its steps is one to a source. -/
example : ((DeclarationSet.mk "" "" ⟨[], none, [carousel]⟩ default).analyzeClass carousel).2.map Finding.cause =
    [.derivedCycle ["First", "Second", "Third", "First"] [.none, .none]] := by decide +kernel

end Reactive
