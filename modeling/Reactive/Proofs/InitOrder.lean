import Reactive.Proofs.Reading
import Reactive.Proofs.Rejection

/-!
# Reactive.Proofs.InitOrder — the order in which derived values are initialized

* `ClassModel.Sorted`: in a list of numbers every derived value comes once, and behind those that it is computed from.
* `ClassModel.Sorted.visitForInit`: a visit keeps the list sorted and gets to its derived value.  While it goes on, the
  values being visited are all computed from the one that is, so they are apart and the depth does not run out.
* `ClassModel.mem_initialized`, `ClassModel.initialized_behind`: every derived value is initialized, and those that depend
  on it come later.
* `initialization_topological`: if no name is found to be taken, the order has each derived value once, behind all that it
  goes back to.
-/

namespace Reactive

namespace ClassModel

variable {m : ClassModel}

/-- The derived values among the sources of a derived value are those that feed it. -/
theorem Orderly.mem_derivedSources_iff (ho : m.Orderly) {e d : DerivedId} : e ∈ m.derivedSources d ↔ m.Feeds e d := by
  unfold derivedSources Feeds
  rw [List.mem_filterMap]
  constructor
  · rintro ⟨source, hsource, hrole⟩
    split at hrole
    · rename_i e' hderived
      cases hrole
      obtain ⟨x, hx, rfl⟩ := (ho.roles _ _).mp hderived
      cases hy : m.derived[d]? with
      | none => simp [hy] at hsource
      | some y => exact ⟨x, y, hx, rfl, by simpa [hy] using hsource⟩
    · cases hrole
  · rintro ⟨x, y, hx, hy, hsource⟩
    refine ⟨x.property, by simpa [hy] using hsource, ?_⟩
    rw [(ho.roles _ _).mpr ⟨x, hx, rfl⟩]

/-- Every derived value comes once, and behind those that it is computed from. -/
structure Sorted (m : ClassModel) (order : List DerivedId) : Prop where
  nodup : order.Nodup
  behind : ∀ pre d post, order = pre ++ d :: post → ∀ e, m.Feeds e d → e ∈ pre

theorem Sorted.nil : m.Sorted [] := ⟨List.nodup_nil, fun pre d post h => by simp at h⟩

/-- One more behind those that it is computed from. -/
theorem Sorted.concat {order : List DerivedId} (h : m.Sorted order) {d : DerivedId} (hnew : d ∉ order)
    (hd : ∀ e, m.Feeds e d → e ∈ order) : m.Sorted (order ++ [d]) := by
  refine ⟨?_, fun pre x post heq e he => ?_⟩
  · rw [List.nodup_append]
    refine ⟨h.nodup, List.nodup_singleton d, fun a ha b hb hab => hnew ?_⟩
    rwa [← List.mem_singleton.mp hb, ← hab]
  · rcases List.eq_nil_or_concat post with rfl | ⟨post', y, rfl⟩
    · obtain ⟨rfl, hx⟩ := List.append_inj' heq rfl
      cases hx
      exact hd e he
    · rw [List.concat_eq_append, ← List.cons_append, ← List.append_assoc] at heq
      obtain ⟨rfl, -⟩ := List.append_inj' heq rfl
      exact h.behind pre x post' rfl e he

/-- What a derived value goes back to comes before it. -/
theorem Sorted.before {order : List DerivedId} (h : m.Sorted order) {e d : DerivedId} (hed : Relation.TransGen m.Feeds e d) :
    ∀ pre post, order = pre ++ d :: post → e ∈ pre := by
  induction hed with
  | single hfeeds => exact fun pre post heq => h.behind pre _ post heq e hfeeds
  | @tail x d _ hfeeds ih =>
    intro pre post heq
    obtain ⟨front, back, rfl⟩ := List.append_of_mem (h.behind pre d post heq x hfeeds)
    rw [List.append_assoc, List.cons_append] at heq
    exact List.mem_append_left _ (ih front _ heq)

/-! ### Visits -/

/-- What a visit makes of a list: it stays sorted and goes on, and nothing is added that is being visited. -/
structure Visited (m : ClassModel) (visiting order order' : List DerivedId) : Prop where
  sorted : m.Sorted order'
  longer : order ⊆ order'
  apart : ∀ v ∈ visiting, v ∉ order → v ∉ order'

theorem Visited.trans {visiting order order₁ order₂ : List DerivedId} (h : m.Visited visiting order order₁)
    (h' : m.Visited visiting order₁ order₂) : m.Visited visiting order order₂ :=
  ⟨h'.sorted, fun _ hd => h'.longer (h.longer hd), fun v hv hd => h'.apart v hv (h.apart v hv hd)⟩

/-- Visiting some values, one after another. -/
theorem visited_foldl {visit : List DerivedId → DerivedId → List DerivedId} {visiting : List DerivedId} :
    ∀ (ids : List DerivedId) {order : List DerivedId},
      (∀ id ∈ ids, ∀ order, m.Sorted order → m.Visited visiting order (visit order id) ∧ id ∈ visit order id) →
        m.Sorted order → m.Visited visiting order (ids.foldl visit order) ∧ ∀ id ∈ ids, id ∈ ids.foldl visit order
  | [], _, _, horder => ⟨⟨horder, List.Subset.refl _, fun _ _ h => h⟩, nofun⟩
  | id :: ids, order, hvisit, horder => by
    obtain ⟨hfirst, hmem⟩ := hvisit id List.mem_cons_self order horder
    obtain ⟨hrest, hall⟩ := visited_foldl ids (fun x hx => hvisit x (List.mem_cons_of_mem _ hx)) hfirst.sorted
    rw [List.foldl_cons]
    exact ⟨hfirst.trans hrest, List.forall_mem_cons.mpr ⟨hrest.longer hmem, hall⟩⟩

/-- A visit gets to its derived value, the values being visited being computed from it. -/
theorem Sorted.visitForInit (ho : m.Orderly) : ∀ (depth : Nat) (visiting order : List DerivedId) (id : DerivedId),
    m.Sorted order → (id :: visiting).Pairwise (Relation.TransGen m.Feeds) → (∀ d ∈ id :: visiting, d < m.derived.length) →
      m.derived.length ≤ depth + visiting.length →
        m.Visited visiting order (m.visitForInit depth visiting order id) ∧ id ∈ m.visitForInit depth visiting order id := by
  intro depth
  induction depth with
  | zero =>
    intro visiting order id _ hchain hlt hdepth
    -- More values would be visited than there are.
    have hnodup : (id :: visiting).Nodup := by
      refine hchain.imp ?_
      rintro a _ htrans rfl
      exact ho.acyclic a htrans
    have hsubset : id :: visiting ⊆ List.range m.derived.length := fun d hd => List.mem_range.mpr (hlt d hd)
    have hlength := (List.subperm_of_subset hnodup hsubset).length_le
    rw [List.length_cons, List.length_range] at hlength
    omega
  | succ depth ih =>
    intro visiting order id horder hchain hlt hdepth
    have hfree : id ∉ visiting := fun hmem => ho.acyclic id (List.rel_of_pairwise_cons hchain hmem)
    rw [ClassModel.visitForInit]
    by_cases hdone : id ∈ order
    · rw [if_pos (by simp [hdone])]
      exact ⟨⟨horder, List.Subset.refl _, fun _ _ h => h⟩, hdone⟩
    · rw [if_neg (by simp [hdone, hfree])]
      have hsource : ∀ e ∈ m.derivedSources id, ∀ order, m.Sorted order →
          m.Visited (id :: visiting) order (m.visitForInit depth (id :: visiting) order e) ∧
            e ∈ m.visitForInit depth (id :: visiting) order e := by
        intro e he order horder
        have hfeeds := ho.mem_derivedSources_iff.mp he
        refine ih (id :: visiting) order e horder (List.pairwise_cons.mpr ⟨fun v hv => ?_, hchain⟩) ?_ ?_
        · obtain rfl | hv := List.mem_cons.mp hv
          · exact .single hfeeds
          · exact .head hfeeds (List.rel_of_pairwise_cons hchain hv)
        · refine List.forall_mem_cons.mpr ⟨?_, hlt⟩
          obtain ⟨x, -, hx, -⟩ := hfeeds
          exact (List.getElem?_eq_some_iff.mp hx).1
        · rw [List.length_cons]
          omega
      obtain ⟨hvisited, hall⟩ := visited_foldl (m.derivedSources id) hsource horder
      have hnew := hvisited.apart id List.mem_cons_self hdone
      refine ⟨⟨hvisited.sorted.concat hnew fun e he => hall e (ho.mem_derivedSources_iff.mpr he), fun d hd => ?_,
        fun v hv hd hmem => ?_⟩, List.mem_append_right _ List.mem_cons_self⟩
      · exact List.mem_append_left _ (hvisited.longer hd)
      · obtain hmem | hmem := List.mem_append.mp hmem
        · exact hvisited.apart v (List.mem_cons_of_mem _ hv) hd hmem
        · exact hfree (List.mem_singleton.mp hmem ▸ hv)

/-- A visit adds derived values of the model only. -/
theorem Orderly.lt_of_mem_visitForInit (ho : m.Orderly) : ∀ (depth : Nat) (visiting order : List DerivedId) (id : DerivedId),
    (∀ d ∈ order, d < m.derived.length) → id < m.derived.length →
      ∀ d ∈ m.visitForInit depth visiting order id, d < m.derived.length := by
  intro depth
  induction depth with
  | zero => exact fun _ _ _ horder _ => horder
  | succ depth ih =>
    intro visiting order id horder hid
    rw [ClassModel.visitForInit]
    split
    · exact horder
    · have hsources : ∀ d ∈ (m.derivedSources id).foldl (m.visitForInit depth (id :: visiting)) order,
          d < m.derived.length := by
        refine List.foldlRecOn (motive := fun order => ∀ d ∈ order, d < m.derived.length) _ _ horder
          fun order horder e he => ?_
        obtain ⟨x, -, hx, -⟩ := ho.mem_derivedSources_iff.mp he
        exact ih (id :: visiting) order e horder (List.getElem?_eq_some_iff.mp hx).1
      intro d hd
      obtain hd | hd := List.mem_append.mp hd
      · exact hsources d hd
      · exact List.mem_singleton.mp hd ▸ hid

/-! ### All derived values -/

theorem Orderly.initializationOrder (ho : m.Orderly) :
    m.Sorted m.initializationOrder ∧ ∀ i < m.derived.length, i ∈ m.initializationOrder := by
  have hvisit : ∀ id ∈ List.range m.derived.length, ∀ order, m.Sorted order →
      m.Visited [] order (m.visitForInit (m.derived.length + 1) [] order id) ∧
        id ∈ m.visitForInit (m.derived.length + 1) [] order id := by
    intro id hid order horder
    refine horder.visitForInit ho _ [] order id (List.pairwise_singleton _ _) (fun d hd => ?_) ?_
    · rw [List.mem_singleton.mp hd]
      exact List.mem_range.mp hid
    · rw [List.length_nil]
      omega
  obtain ⟨hvisited, hall⟩ := visited_foldl _ hvisit .nil
  exact ⟨hvisited.sorted, fun i hi => hall i (List.mem_range.mpr hi)⟩

/-- The order has each derived value once. -/
theorem Orderly.perm_initializationOrder (ho : m.Orderly) : m.initializationOrder.Perm (List.range m.derived.length) := by
  obtain ⟨hsorted, hall⟩ := ho.initializationOrder
  have hlt : ∀ d ∈ m.initializationOrder, d < m.derived.length := by
    refine List.foldlRecOn (motive := fun order => ∀ d ∈ order, d < m.derived.length) _ _ nofun
      fun order horder id hid => ?_
    exact ho.lt_of_mem_visitForInit _ [] order id horder (List.mem_range.mp hid)
  refine (List.perm_ext_iff_of_nodup hsorted.nodup List.nodup_range).mpr fun d => ?_
  rw [List.mem_range]
  exact ⟨hlt d, hall d⟩

/-- What a derived value goes back to has an earlier place in the order. -/
theorem Orderly.idxOf_lt_idxOf (ho : m.Orderly) {e d : DerivedId} (hed : Relation.TransGen m.Feeds e d) :
    m.initializationOrder.idxOf e < m.initializationOrder.idxOf d := by
  obtain ⟨hsorted, hall⟩ := ho.initializationOrder
  obtain ⟨-, -, -, y, -, hy, -⟩ := Relation.TransGen.tail'_iff.mp hed
  obtain ⟨front, back, horder⟩ := List.append_of_mem (hall d (List.getElem?_eq_some_iff.mp hy).1)
  have he := hsorted.before hed front back horder
  have hd : d ∉ front := by
    have hnodup := hsorted.nodup
    rw [horder, List.nodup_append] at hnodup
    exact fun hmem => hnodup.2.2 d hmem d List.mem_cons_self rfl
  rw [horder, List.idxOf_append_of_mem he, List.idxOf_append_of_notMem hd, List.idxOf_cons_self]
  exact List.idxOf_lt_length_of_mem he

/-- The derived values in the order in which they are initialized. -/
def initialized (m : ClassModel) : List DerivedProperty := m.initializationOrder.filterMap (m.derived[·]?)

theorem mem_of_mem_initialized {d : DerivedProperty} (h : d ∈ m.initialized) : d ∈ m.derived := by
  obtain ⟨i, -, hi⟩ := List.mem_filterMap.mp h
  exact List.mem_of_getElem? hi

/-- Every derived value is initialized. -/
theorem mem_initialized (ho : m.Orderly) {d : DerivedProperty} (hd : d ∈ m.derived) : d ∈ m.initialized := by
  obtain ⟨i, hi, rfl⟩ := List.getElem_of_mem hd
  exact List.mem_filterMap.mpr ⟨i, ho.initializationOrder.2 i hi, List.getElem?_eq_getElem hi⟩

/-- The derived values that depend on one are initialized later. -/
theorem initialized_behind (ho : m.Orderly) {pre post : List DerivedProperty} {d e : DerivedProperty}
    (hsplit : m.initialized = pre ++ d :: post) (he : m.DependsOn d.property e) : e ∈ post := by
  obtain ⟨hsorted, hall⟩ := ho.initializationOrder
  obtain ⟨front, back, horder, rfl, hback⟩ := List.filterMap_eq_append_iff.mp hsplit
  obtain ⟨skipped, i, rest, rfl, -, hi, rfl⟩ := List.filterMap_eq_cons_iff.mp hback
  rw [← List.append_assoc] at horder
  obtain ⟨j, hj, rfl⟩ := List.getElem_of_mem he.mem
  have htrans := he.transGen hi (List.getElem?_eq_getElem hj)
  have hafter : j ∈ rest := by
    have hmem := hall j hj
    rw [horder, List.mem_append, List.mem_cons] at hmem
    obtain hbefore | rfl | hrest := hmem
    · -- Otherwise the value would come twice.
      obtain ⟨a, b, hab⟩ := List.append_of_mem hbefore
      have hagain := hsorted.before htrans a (b ++ i :: rest) (by rw [horder, hab]; simp)
      have hnodup := hsorted.nodup
      rw [horder, List.nodup_append] at hnodup
      exact absurd rfl (hnodup.2.2 i (hab ▸ List.mem_append_left _ hagain) i List.mem_cons_self)
    · exact absurd htrans (ho.acyclic _)
    · exact hrest
  exact List.mem_filterMap.mpr ⟨j, hafter, List.getElem?_eq_getElem hj⟩

/-- Every derived value is initialized once. -/
theorem nodup_initialized (ho : m.Orderly) : m.initialized.Nodup := by
  refine ho.initializationOrder.1.nodup.filterMap fun i j d hi hj => ?_
  exact (List.getElem?_inj (List.getElem?_eq_some_iff.mp hi).1 (ho.distinct.of_map _)).mp (hi.trans hj.symm)

/-- No derived value is initialized before one that it depends on. -/
theorem initialized_pairwise (ho : m.Orderly) : m.initialized.Pairwise fun d e => ¬ m.DependsOn e.property d := by
  refine List.pairwise_iff_getElem.mpr fun i j hi hj hij hdepends => ?_
  have hsplit : m.initialized = m.initialized.take j ++ m.initialized[j] :: m.initialized.drop (j + 1) := by
    rw [← List.drop_eq_getElem_cons hj, List.take_append_drop]
  obtain ⟨k, hk, heq⟩ := List.getElem_of_mem (initialized_behind ho hsplit hdepends)
  rw [List.getElem_drop] at heq
  have hsame := (nodup_initialized ho).getElem_inj_iff.mp heq
  omega

end ClassModel

/-- **Initialization goes from sources to what is computed from them.**  If no name is found to be taken, the order of
initialization has every derived value once.  A derived value comes behind each that it goes back to, be it one of its own
sources or a source of a value in between, whether that one is kept or not. -/
theorem initialization_topological {s : DeclarationSet} {c : ClassDecl} {model : ClassModel}
    (analyzed : (s.analyzeClass c).1 = some model) (unrepeated : ∀ f ∈ (s.analyzeClass c).2, f.code ≠ "RX0002") :
    model.initializationOrder.Perm (List.range model.derived.length) ∧
      ∀ e d, Relation.TransGen model.Feeds e d →
        model.initializationOrder.idxOf e < model.initializationOrder.idxOf d := by
  obtain ⟨draft, hfindings, hbuilt, -, -⟩ := built_of_analyzeClass analyzed
  have horderly := hbuilt.orderly fun f hf => unrepeated f (hfindings ▸ hf)
  exact ⟨horderly.perm_initializationOrder, fun e d => horderly.idxOf_lt_idxOf⟩

/-- The draught of a chimney is computed from its flue, which only announces changes of the width; the width is lazy and
computed from the bore, which is never kept. -/
def chimney : ClassDecl where
  name := "Chimney"
  typeParams := []
  modifiers := [.partial_]
  bases := [⟨"IReactiveObject", [], false⟩]
  members :=
    [derivedFrom "Draught" ["Flue"] (.name "Flue" .none),
      ⟨"Flue", [], [], .property ⟨⟨"int", [], false⟩, some ⟨some (.name "Width" .none), .none⟩, none, none⟩, .none, .none⟩,
      ⟨"Width", [⟨"Derived", [⟨none, .string "Bore", .none⟩,
            ⟨some "CacheMode", .path ["CacheMode", "LazyOnFirstAccess"], .none⟩], .none⟩,
          ⟨"NotifyFor", [⟨none, .string "Flue", .none⟩], .none⟩], [],
        .property ⟨⟨"int", [], false⟩, some ⟨some (.name "Bore" .none), .none⟩, none, none⟩, .none, .none⟩,
      ⟨"Bore", [⟨"Derived", [⟨none, .string "Length", .none⟩,
            ⟨some "CacheMode", .path ["CacheMode", "Disabled"], .none⟩], .none⟩], [],
        .property ⟨⟨"int", [], false⟩, some ⟨some (.name "Length" .none), .none⟩, none, none⟩, .none, .none⟩,
      ⟨"Length", [⟨"Reactive", [], .none⟩], [],
        .property ⟨⟨"int", [], false⟩, some ⟨none, .none⟩, some ⟨none, .none⟩, none⟩, .none, .none⟩]
  nameSpan := .none
  span := .none

/-- The file that declares a chimney and nothing else. -/
def chimneyFile : DeclarationSet := ⟨"", "", ⟨[], none, [chimney]⟩, default⟩

/-- The model of a chimney. -/
def chimneyModel : ClassModel := (chimneyFile.analyzeClass chimney).1.get (by decide +kernel)

/-- The draught of a chimney is initialized behind its bore. -/
theorem initialization_topological_chimney :
    (chimneyFile.analyzeClass chimney).1 = some chimneyModel ∧
    (∀ f ∈ (chimneyFile.analyzeClass chimney).2, f.code ≠ "RX0002") ∧
    chimneyModel.derived.map DerivedProperty.name = ["Draught", "Width", "Bore", "Flue"] ∧
    chimneyModel.derived.map DerivedProperty.cache = [.eager, .lazy, .disabled, .disabled] ∧
    Relation.TransGen chimneyModel.Feeds 2 0 ∧
    chimneyModel.initializationOrder.Perm [0, 1, 2, 3] ∧
    chimneyModel.initializationOrder.idxOf 2 < chimneyModel.initializationOrder.idxOf 0 := by
  have hmodel : (chimneyFile.analyzeClass chimney).1 = some chimneyModel := (Option.some_get _).symm
  have hunrepeated : ∀ f ∈ (chimneyFile.analyzeClass chimney).2, f.code ≠ "RX0002" := by decide +kernel
  have hnames : chimneyModel.derived.map DerivedProperty.name = ["Draught", "Width", "Bore", "Flue"] := by decide +kernel
  have hlength : chimneyModel.derived.length = 4 := by simpa using congrArg List.length hnames
  have hfeeds {e d : DerivedId} {x : PropertyId} {sources : List PropertyId}
      (hx : (chimneyModel.derived.map DerivedProperty.property)[e]? = some x)
      (hy : (chimneyModel.derived.map DerivedProperty.sources)[d]? = some sources) (hmem : x ∈ sources) :
      chimneyModel.Feeds e d := by
    rw [List.getElem?_map] at hx hy
    obtain ⟨u, hu, rfl⟩ := Option.map_eq_some_iff.mp hx
    obtain ⟨v, hv, rfl⟩ := Option.map_eq_some_iff.mp hy
    exact ⟨u, v, hu, hv, hmem⟩
  have hproperties : chimneyModel.derived.map DerivedProperty.property = [0, 2, 3, 1] := by decide +kernel
  have hsources : chimneyModel.derived.map DerivedProperty.sources = [[1], [3], [4], [2]] := by decide +kernel
  rw [hproperties, hsources] at hfeeds
  have hback : Relation.TransGen chimneyModel.Feeds 2 0 :=
    .tail (.tail (.single (hfeeds (d := 1) rfl rfl (by decide))) (hfeeds (d := 3) rfl rfl (by decide)))
      (hfeeds rfl rfl (by decide))
  obtain ⟨hperm, hbehind⟩ := initialization_topological hmodel hunrepeated
  rw [hlength] at hperm
  exact ⟨hmodel, hunrepeated, hnames, by decide +kernel, hback, hperm, hbehind 2 0 hback⟩

end Reactive
