import Reactive.Proofs.Search
import Reactive.Proofs.Staging

/-!
# Reactive.Proofs.Cycles — staged values that are computed from themselves

* `exists_mem_left`, `exists_mem_right`: the partner of an element in lists that correspond one for one, as findings do
  to cycles.
* `Staged.HasSource`, `Staged.OnCycle`, `Staged.Entangled`: the relation that sources are, and its cycles.
* `Staged.mem_acyclic_iff`: what is kept is on no cycle.
* `Staged.mem_members_iff`: a cycle that is reported has the values that are computed from each other for members.
-/

namespace Reactive

/-! ### One for one -/

section

variable {α β : Type} {R : α → β → Prop} {as : List α} {bs : List β} (h : List.Forall₂ R as bs)

include h

/-- What corresponds to an element at a place. -/
theorem exists_getElem?_left {i : Nat} {a : α} (ha : as[i]? = some a) : ∃ b, bs[i]? = some b ∧ R a b := by
  obtain ⟨hi, rfl⟩ := List.getElem?_eq_some_iff.mp ha
  have hi' : i < bs.length := h.length_eq ▸ hi
  exact ⟨bs[i], List.getElem?_eq_getElem hi', h.get hi hi'⟩

theorem exists_getElem?_right {i : Nat} {b : β} (hb : bs[i]? = some b) : ∃ a, as[i]? = some a ∧ R a b := by
  obtain ⟨hi, rfl⟩ := List.getElem?_eq_some_iff.mp hb
  have hi' : i < as.length := h.length_eq ▸ hi
  exact ⟨as[i], List.getElem?_eq_getElem hi', h.get hi' hi⟩

theorem exists_mem_left {a : α} (ha : a ∈ as) : ∃ b ∈ bs, R a b := by
  obtain ⟨i, hi⟩ := List.mem_iff_getElem?.mp ha
  obtain ⟨b, hb, hR⟩ := exists_getElem?_left h hi
  exact ⟨b, List.mem_of_getElem? hb, hR⟩

theorem exists_mem_right {b : β} (hb : b ∈ bs) : ∃ a ∈ as, R a b := by
  obtain ⟨i, hi⟩ := List.mem_iff_getElem?.mp hb
  obtain ⟨a, ha, hR⟩ := exists_getElem?_right h hi
  exact ⟨a, List.mem_of_getElem? ha, hR⟩

end

namespace Staged

/-! ### Cycles -/

/-- Of two staged values the second one is a source of the first one. -/
def HasSource (staged : List Staged) (s t : Staged) : Prop := s ∈ staged ∧ t ∈ staged ∧ t.property ∈ s.sources

/-- A staged value is computed from itself, directly or through others. -/
def OnCycle (staged : List Staged) (s : Staged) : Prop := Relation.TransGen (HasSource staged) s s

/-- Two staged values are computed from each other, unless they are the same. -/
def Entangled (staged : List Staged) (s t : Staged) : Prop :=
  Relation.ReflTransGen (HasSource staged) s t ∧ Relation.ReflTransGen (HasSource staged) t s

theorem OnCycle.mem {staged : List Staged} {s : Staged} (h : OnCycle staged s) : s ∈ staged := by
  obtain ⟨t, hst, -⟩ := Relation.TransGen.head'_iff.mp h
  exact hst.1

/-- The place of the staged value with the property of `s`. -/
def place (staged : List Staged) (s : Staged) : Nat := staged.findIdx (·.property = s.property)

/-- The staged values at the places of a cycle. -/
def members (staged : List Staged) (cycle : List Nat) : List Staged := cycle.filterMap fun i => staged[i]?

theorem successors_digraph {staged : List Staged} {i : Nat} {s : Staged} (hs : staged[i]? = some s) :
    (digraph staged).successors i = s.sources.filterMap fun source => staged.findIdx? (·.property = source) := by
  rw [Digraph.successors, digraph, List.getElem?_map, hs]
  rfl

/-- An edge leads from a value to one of its sources. -/
theorem hasSource_of_edge {staged : List Staged} {i j : Nat} {s t : Staged} (hs : staged[i]? = some s)
    (ht : staged[j]? = some t) (h : (digraph staged).Edge i j) : HasSource staged s t := by
  unfold Digraph.Edge at h
  rw [successors_digraph hs, List.mem_filterMap] at h
  obtain ⟨source, hsource, hfound⟩ := h
  obtain ⟨hj, hproperty, -⟩ := List.findIdx?_eq_some_iff_getElem.mp hfound
  obtain ⟨hj', rfl⟩ := List.getElem?_eq_some_iff.mp ht
  obtain rfl : staged[j].property = source := of_decide_eq_true hproperty
  exact ⟨List.mem_of_getElem? hs, List.getElem_mem hj', hsource⟩

theorem transGen_of_edges {staged : List Staged} {i j : Nat} {s t : Staged} (hs : staged[i]? = some s)
    (ht : staged[j]? = some t) (h : Relation.TransGen (digraph staged).Edge i j) :
    Relation.TransGen (HasSource staged) s t := by
  induction h generalizing t with
  | single hedge => exact .single (hasSource_of_edge hs ht hedge)
  | tail _ hedge ih =>
    have hlt := hedge.lt
    rw [digraph, List.length_map] at hlt
    have hu := List.getElem?_eq_getElem hlt
    exact .tail (ih hu) (hasSource_of_edge hu ht hedge)

section

variable {staged : List Staged} (hdistinct : (staged.map Staged.property).Nodup)

include hdistinct

/-- There is one staged value of a property. -/
theorem findIdx?_property {i : Nat} {s : Staged} (h : staged[i]? = some s) :
    staged.findIdx? (·.property = s.property) = some i := by
  obtain ⟨hi, rfl⟩ := List.getElem?_eq_some_iff.mp h
  refine List.findIdx?_eq_some_iff_getElem.mpr ⟨hi, decide_eq_true rfl, fun j hj heq => ?_⟩
  have hsame : staged[j] = staged[i] :=
    List.inj_on_of_nodup_map hdistinct (List.getElem_mem _) (List.getElem_mem _) (of_decide_eq_true heq)
  have hji : j = i := (List.Nodup.of_map _ hdistinct).getElem_inj_iff.mp hsame
  omega

theorem place_eq {i : Nat} {s : Staged} (h : staged[i]? = some s) : place staged s = i :=
  (List.findIdx?_eq_some_iff_findIdx_eq.mp (findIdx?_property hdistinct h)).2

theorem getElem?_place {s : Staged} (h : s ∈ staged) : staged[place staged s]? = some s := by
  obtain ⟨i, hi⟩ := List.mem_iff_getElem?.mp h
  rwa [place_eq hdistinct hi]

/-- The edges among places are the sources of what stands there. -/
theorem edge_iff {i j : Nat} {s t : Staged} (hs : staged[i]? = some s) (ht : staged[j]? = some t) :
    (digraph staged).Edge i j ↔ HasSource staged s t := by
  constructor
  · exact hasSource_of_edge hs ht
  · rintro ⟨-, -, hsource⟩
    unfold Digraph.Edge
    rw [successors_digraph hs, List.mem_filterMap]
    exact ⟨t.property, hsource, findIdx?_property hdistinct ht⟩

theorem edge_place {s t : Staged} (h : HasSource staged s t) :
    (digraph staged).Edge (place staged s) (place staged t) :=
  (edge_iff hdistinct (getElem?_place hdistinct h.1) (getElem?_place hdistinct h.2.1)).mpr h

theorem transGen_iff {i j : Nat} {s t : Staged} (hs : staged[i]? = some s) (ht : staged[j]? = some t) :
    Relation.TransGen (digraph staged).Edge i j ↔ Relation.TransGen (HasSource staged) s t := by
  constructor
  · exact transGen_of_edges hs ht
  · intro h
    have hplaces : Relation.TransGen (digraph staged).Edge (place staged s) (place staged t) :=
      Relation.TransGen.lift (place staged) (fun _ _ => edge_place hdistinct) _ _ h
    rwa [place_eq hdistinct hs, place_eq hdistinct ht] at hplaces

theorem reflTransGen_iff {i j : Nat} {s t : Staged} (hs : staged[i]? = some s) (ht : staged[j]? = some t) :
    Relation.ReflTransGen (digraph staged).Edge i j ↔ Relation.ReflTransGen (HasSource staged) s t := by
  rw [Relation.reflTransGen_iff_eq_or_transGen, Relation.reflTransGen_iff_eq_or_transGen, transGen_iff hdistinct hs ht]
  refine or_congr_left ⟨?_, ?_⟩
  · rintro rfl
    exact Option.some.inj (ht.symm.trans hs)
  · rintro rfl
    rw [← place_eq hdistinct hs, place_eq hdistinct ht]

theorem connected_iff {i j : Nat} {s t : Staged} (hs : staged[i]? = some s) (ht : staged[j]? = some t) :
    (digraph staged).connected i j = true ↔ Entangled staged s t := by
  rw [Digraph.connected_iff, reflTransGen_iff hdistinct hs ht, reflTransGen_iff hdistinct ht hs]
  rfl

/-! ### What is kept -/

theorem mem_cycles_iff {i : Nat} {s : Staged} (hs : staged[i]? = some s) :
    (∃ cycle ∈ cycles staged, i ∈ cycle) ↔ OnCycle staged s :=
  Digraph.exists_cyclic_iff.trans (transGen_iff hdistinct hs hs)

/-- What is kept are the staged values that lie on no cycle. -/
theorem mem_acyclic_iff {s : Staged} : s ∈ acyclic staged ↔ s ∈ staged ∧ ¬ OnCycle staged s := by
  have hrejected {i : Nat} (hi : staged[i]? = some s) :
      (!(cycles staged).flatten.contains i) = true ↔ ¬ OnCycle staged s := by
    rw [Bool.not_eq_true', ← Bool.not_eq_true, List.contains_iff_mem, List.mem_flatten, mem_cycles_iff hdistinct hi]
  unfold acyclic
  dsimp only
  rw [List.mem_filterMap]
  constructor
  · rintro ⟨i, hi, hs⟩
    exact ⟨List.mem_of_getElem? hs, (hrejected hs).mp (List.mem_filter.mp hi).2⟩
  · rintro ⟨hmem, hfree⟩
    obtain ⟨i, hi⟩ := List.mem_iff_getElem?.mp hmem
    have hlt : i < staged.length := (List.getElem?_eq_some_iff.mp hi).1
    exact ⟨i, List.mem_filter.mpr ⟨List.mem_range.mpr hlt, (hrejected hi).mpr hfree⟩, hi⟩

/-! ### What is reported -/

/-- A cycle has the staged values for members that are computed from each other. -/
theorem mem_members_iff {cycle : List Nat} (h : cycle ∈ cycles staged) :
    ∃ s ∈ members staged cycle, OnCycle staged s ∧ ∀ t, t ∈ members staged cycle ↔ Entangled staged s t := by
  obtain ⟨hcomponent, hcyclic⟩ := List.mem_filter.mp h
  obtain ⟨v, -, rfl⟩ := Digraph.mem_componentsOf hcomponent
  obtain ⟨i, hi⟩ : ∃ i, i ∈ (digraph staged).component v := by
    refine List.exists_mem_of_ne_nil _ fun hnil => ?_
    rw [hnil] at hcyclic
    cases hcyclic
  obtain ⟨hlt, hconnected⟩ := Digraph.mem_component.mp hi
  rw [Digraph.component_eq hconnected] at h hi ⊢
  rw [digraph, List.length_map] at hlt
  have hs : staged[i]? = some staged[i] := List.getElem?_eq_getElem hlt
  refine ⟨staged[i], List.mem_filterMap.mpr ⟨i, hi, hs⟩, (mem_cycles_iff hdistinct hs).mp ⟨_, h, hi⟩, fun t => ?_⟩
  unfold members
  rw [List.mem_filterMap]
  constructor
  · rintro ⟨j, hj, ht⟩
    exact (connected_iff hdistinct hs ht).mp (Digraph.mem_component.mp hj).2
  · intro hentangled
    obtain ⟨j, ht⟩ : ∃ j, staged[j]? = some t := by
      obtain rfl | hsource := Relation.reflTransGen_iff_eq_or_transGen.mp hentangled.1
      · exact ⟨i, hs⟩
      · obtain ⟨u, -, hu⟩ := Relation.TransGen.tail'_iff.mp hsource
        exact List.mem_iff_getElem?.mp hu.2.1
    have hj : j < (digraph staged).length := by
      rw [digraph, List.length_map]
      exact (List.getElem?_eq_some_iff.mp ht).1
    exact ⟨j, Digraph.mem_component.mpr ⟨hj, (connected_iff hdistinct hs ht).mpr hentangled⟩, ht⟩

/-- No staged value is a member of two cycles. -/
theorem pairwise_members : ((cycles staged).map (members staged)).Pairwise List.Disjoint := by
  have hplace {cycle : List Nat} {s : Staged} (hs : s ∈ members staged cycle) : place staged s ∈ cycle := by
    obtain ⟨i, hi, his⟩ := List.mem_filterMap.mp hs
    rwa [place_eq hdistinct his]
  refine List.pairwise_map.mpr (((Digraph.pairwise_componentsOf _).filter _).imp fun hapart => ?_)
  intro s hs hs'
  exact hapart (hplace hs) (hplace hs')

theorem exists_members {s : Staged} (h : OnCycle staged s) : ∃ cycle ∈ cycles staged, s ∈ members staged cycle := by
  obtain ⟨i, hi⟩ := List.mem_iff_getElem?.mp h.mem
  obtain ⟨cycle, hcycle, hmem⟩ := (mem_cycles_iff hdistinct hi).mpr h
  exact ⟨cycle, hcycle, List.mem_filterMap.mpr ⟨i, hmem, hi⟩⟩

end

theorem filterMap_range_getElem? {α : Type} : ∀ xs : List α, ((List.range xs.length).filterMap fun i => xs[i]?) = xs
  | [] => rfl
  | x :: xs => by
    rw [List.length_cons, List.range_succ_eq_map, List.filterMap_cons, List.filterMap_map]
    exact congrArg (x :: ·) (filterMap_range_getElem? xs)

/-- What is kept stays in its order. -/
theorem acyclic_sublist (staged : List Staged) : (acyclic staged).Sublist staged := by
  have hsublist := (List.filter_sublist (l := List.range staged.length)
    (p := fun i => !(cycles staged).flatten.contains i)).filterMap fun i => staged[i]?
  rwa [filterMap_range_getElem?] at hsublist

/-- The members of a cycle stand in the order in which they are staged. -/
theorem members_sublist {staged : List Staged} {cycle : List Nat} (h : cycle ∈ cycles staged) :
    (members staged cycle).Sublist staged := by
  obtain ⟨v, -, rfl⟩ := Digraph.mem_componentsOf (List.mem_filter.mp h).1
  have hlength : (digraph staged).length = staged.length := List.length_map _
  have hsublist := (List.filter_sublist (l := List.range (digraph staged).length)
    (p := (digraph staged).connected v)).filterMap fun i => staged[i]?
  rw [hlength, filterMap_range_getElem?] at hsublist
  rwa [members, Digraph.component, hlength]

/-- The finding about the members of a cycle: it names all of them, and the first one again. -/
def Reports (f : Finding) (group : List Staged) : Prop :=
  ∃ first rest, group = first :: rest ∧
    f = ⟨.derivedCycle (group.map Staged.name ++ [first.name]) (rest.map Staged.span), first.span⟩

/-- There is one finding about every cycle. -/
theorem reports_cycles (staged : List Staged) :
    List.Forall₂ Reports ((cycles staged).filterMap (cycleFinding staged)) ((cycles staged).map (members staged)) := by
  have hreports {cycle : List Nat} (h : cycle ∈ cycles staged) :
      ∃ f, cycleFinding staged cycle = some f ∧ Reports f (members staged cycle) := by
    obtain ⟨hcomponent, hcyclic⟩ := List.mem_filter.mp h
    have hlength : (digraph staged).length = staged.length := List.length_map _
    cases cycle with
    | nil => cases hcyclic
    | cons i rest =>
      have hi : i < staged.length := hlength ▸ Digraph.lt_of_mem_components hcomponent List.mem_cons_self
      have hmembers : members staged (i :: rest) = staged[i] :: members staged rest :=
        List.filterMap_cons_some (List.getElem?_eq_getElem hi)
      refine ⟨_, ?_, staged[i], members staged rest, hmembers, rfl⟩
      unfold cycleFinding
      show (do
        let members := members staged (i :: rest)
        let first ← members.head?
        let chain := members.map Staged.name ++ [first.name]
        return ⟨.derivedCycle chain (members.tail.map Staged.span), first.span⟩ : Option Finding) = _
      rw [hmembers]
      rfl
  have hall : ∀ cs : List (List Nat), (∀ cycle ∈ cs, cycle ∈ cycles staged) →
      List.Forall₂ Reports (cs.filterMap (cycleFinding staged)) (cs.map (members staged)) := by
    intro cs hcs
    induction cs with
    | nil => exact .nil
    | cons cycle cs ih =>
      obtain ⟨hcycle, hcs⟩ := List.forall_mem_cons.mp hcs
      obtain ⟨f, hf, hr⟩ := hreports hcycle
      rw [List.filterMap_cons_some hf]
      exact .cons hr (ih hcs)
  exact hall _ fun _ h => h

end Staged

end Reactive
