import Mathlib.Data.List.Sort
import Reactive.Proofs.LowLinks

/-!
# Reactive.Proofs.Blocks — the blocks that the search by low-links finds

* `Digraph.StrongBlocks`: a partition of the vertices into strongly connected components, each behind those that it leads to.
* `Tarjan.Agrees`: the search by low-links and the search for the order in which vertices are finished go along with each
  other.
* `Digraph.tarjan_lists_components`: the search by low-links ends, its blocks are such a partition, and they are the
  components in their order.
-/

namespace Reactive

namespace Digraph

variable {g : Digraph}

/-- A partition of the vertices into strongly connected components, each behind those that it leads to. -/
structure StrongBlocks (g : Digraph) (blocks : List (List Nat)) : Prop where
  nonempty : ∀ block ∈ blocks, block ≠ []
  /-- Every vertex is in one block, and once in it. -/
  partition : blocks.flatten.Perm (List.range g.length)
  /-- Two vertices are in one block if and only if each can be reached from the other. -/
  together : ∀ v < g.length, ∀ w < g.length,
    (∃ block ∈ blocks, v ∈ block ∧ w ∈ block) ↔ g.Reaches v w ∧ g.Reaches w v
  /-- No block leads to one that is listed behind it. -/
  ordered : blocks.Pairwise fun earlier later => ∀ v ∈ earlier, ∀ w ∈ later, ¬ g.Reaches v w

/-- Settled blocks with all vertices. -/
theorem Settled.strongBlocks {blocks : List (List Nat)} (h : g.Settled blocks)
    (hall : ∀ v, v ∈ blocks.flatten ↔ v < g.length) : g.StrongBlocks blocks := by
  refine ⟨h.nonempty, (List.perm_ext_iff_of_nodup h.nodup List.nodup_range).mpr fun v => ?_, fun v hv w hw => ?_, h.ordered⟩
  · rw [hall, List.mem_range]
  · constructor
    · rintro ⟨block, hblock, hv, hw⟩
      exact (h.strong block hblock v hv w).mp hw
    · intro hvw
      obtain ⟨block, hblock, hv⟩ := List.mem_flatten.mp ((hall v).mpr hv)
      exact ⟨block, hblock, hv, (h.strong block hblock v hv w).mpr hvw⟩

/-- A component in increasing order. -/
theorem mergeSort_eq_component {block : List Nat} {v : Nat} (hnodup : block.Nodup)
    (hmem : ∀ w, w ∈ block ↔ w ∈ g.component v) : block.mergeSort = g.component v := by
  have hperm : block.mergeSort.Perm (g.component v) :=
    (List.mergeSort_perm block _).trans ((List.perm_ext_iff_of_nodup hnodup (List.nodup_range.filter _)).mpr hmem)
  refine hperm.eq_of_pairwise (fun a b _ _ => Nat.le_antisymm) ?_ (List.pairwise_le_range.filter _)
  exact List.pairwise_mergeSort' (· ≤ ·) block

/-- The component of the last vertex of a list comes last, and the others are those of the vertices that are not in it. -/
theorem componentsOf_concat (v : Nat) : ∀ vs : List Nat,
    g.componentsOf (vs ++ [v]) = g.componentsOf (vs.filter fun w => !g.connected w v) ++ [g.component v]
  | [] => rfl
  | w :: vs => by
    rw [List.cons_append, componentsOf, componentsOf_concat v vs]
    by_cases hw : g.connected w v = true
    · have hany : (vs ++ [v]).any (g.connected w) = true :=
        List.any_eq_true.mpr ⟨v, List.mem_append_right _ List.mem_cons_self, hw⟩
      rw [if_pos hany, List.filter_cons_of_neg (by simp [hw])]
    · have hany : (vs ++ [v]).any (g.connected w) = (vs.filter fun w => !g.connected w v).any (g.connected w) := by
        rw [Bool.eq_iff_iff, List.any_eq_true, List.any_eq_true]
        constructor
        · rintro ⟨u, hu, hwu⟩
          have huv : ¬ g.connected u v = true := fun huv => hw (connected_trans hwu huv)
          obtain hu | hu := List.mem_append.mp hu
          · exact ⟨u, List.mem_filter.mpr ⟨hu, by simp [huv]⟩, hwu⟩
          · exact absurd hwu (List.mem_singleton.mp hu ▸ hw)
        · rintro ⟨u, hu, hwu⟩
          exact ⟨u, List.mem_append_left _ (List.mem_filter.mp hu).1, hwu⟩
      rw [hany, List.filter_cons_of_pos (by simp [hw]), componentsOf]
      split
      · rfl
      · rw [List.cons_append]

/-- A vertex that has been met is not visited again. -/
theorem visit_of_mem {depth : Nat} {q : Search} {v : Nat} (h : v ∈ q.met) : g.visit depth q v = q := by
  cases depth with
  | zero => rfl
  | succ depth => rw [visit, if_pos (List.contains_iff_mem.mpr h)]

end Digraph

namespace Tarjan

variable {g : Digraph} {path ws : List Nat} {s t r : Tarjan} {q : Digraph.Search} {v w depth : Nat}

/-! ### The order in which vertices are finished -/

/-- Both searches have met the same vertices, and the blocks are the components of the vertices that are finished and not on
the stack. -/
structure Agrees (g : Digraph) (s : Tarjan) (q : Digraph.Search) : Prop where
  met : ∀ v, v ∈ q.met ↔ s.Entered v
  finished : q.finished ⊆ q.met
  blocks : s.blocks.map (·.mergeSort) = g.componentsOf (q.finished.filter (· ∉ s.stack))

theorem Agrees.lower (h : s.Agrees g q) {i : Nat} (hlower : s.lower v i = some t) : t.Agrees g q := by
  obtain ⟨low, -, ht⟩ := Option.bind_eq_some_iff.mp hlower
  obtain rfl := Option.some.inj ht
  exact ⟨h.met, h.finished, h.blocks⟩

/-- Both searches meet a vertex. -/
theorem Agrees.enter (h : s.Agrees g q) (hlt : v < s.numbers.length) (hnew : ¬ s.Entered v) :
    (s.enter v).Agrees g { q with met := v :: q.met } := by
  refine ⟨fun w => ?_, List.subset_cons_of_subset v h.finished, ?_⟩
  · rw [entered_enter_iff hlt, ← h.met]
    exact List.mem_cons
  · show s.blocks.map (·.mergeSort) = g.componentsOf (q.finished.filter (· ∉ v :: s.stack))
    rw [h.blocks]
    refine congrArg g.componentsOf (List.filter_congr fun w hw => ?_)
    have hne : w ≠ v := fun heq => hnew ((h.met v).mp (h.finished (heq ▸ hw)))
    simp [hne]

/-- Both searches are through with a vertex. -/
theorem Following.agrees_leave (h : Following g path s v ws t) (hall : ∀ w, g.Edge v w → w ∈ ws) (hq : t.Agrees g q)
    (hr : t.leave v = some r) : r.Agrees g { q with finished := q.finished ++ [v] } := by
  have hmet : v ∈ q.met := (hq.met v).mpr ⟨_, h.number⟩
  have hfinished : q.finished ++ [v] ⊆ q.met := List.append_subset.mpr ⟨hq.finished, List.forall_mem_singleton.mpr hmet⟩
  obtain rfl := Option.some.inj (h.leave_eq.symm.trans hr)
  split
  · rename_i hlow
    obtain ⟨block, hcuts⟩ := h.exists_cuts
    have hsettled := h.settled_block hall hlow hcuts
    have hblock : block ∈ t.blocks ++ [block] := List.mem_append_right _ List.mem_cons_self
    have hconnected {w : Nat} : w ∈ block ↔ g.connected w v = true :=
      (hsettled.strong block hblock v hcuts.mem w).trans (and_comm.trans Digraph.connected_iff.symm)
    have hsort : block.mergeSort = g.component v := by
      refine Digraph.mergeSort_eq_component ((List.nodup_flatten.mp hsettled.nodup).1 block hblock) fun w => ?_
      rw [Digraph.mem_component, hconnected]
      refine ⟨fun hw => ⟨?_, Digraph.connected_symm hw⟩, fun hw => Digraph.connected_symm hw.2⟩
      exact h.explores.lt (h.explores.entered (hcuts.mem_block (hconnected.mpr hw)))
    have hlast : [v].filter (· ∉ s.stack) = [v] := List.filter_cons_of_pos (decide_eq_true (hcuts.not_mem hcuts.mem))
    rw [hcuts.close_eq]
    refine ⟨hq.met, hfinished, ?_⟩
    show (t.blocks ++ [block]).map (·.mergeSort) = g.componentsOf ((q.finished ++ [v]).filter (· ∉ s.stack))
    rw [List.map_append, hq.blocks, List.map_singleton, hsort, List.filter_append, hlast, Digraph.componentsOf_concat,
      List.filter_filter]
    refine congrArg (· ++ [g.component v]) (congrArg g.componentsOf (List.filter_congr fun w _ => ?_))
    simp [hcuts.stack, hconnected]
  · refine ⟨hq.met, hfinished, ?_⟩
    rw [hq.blocks, List.filter_append, List.filter_cons_of_neg (by simp [h.mem_stack]), List.filter_nil, List.append_nil]

/-- Both searches agree about visits, if as many of them may be inside each other as there are vertices that have not been
entered. -/
def AgreesOn (g : Digraph) (depth : Nat) : Prop :=
  ∀ ⦃path s v t q⦄, Arrives g path s v → unentered g s ≤ depth → visit g depth s v = some t → s.Agrees g q →
    t.Agrees g (g.visit depth q v)

/-- Both searches follow an edge. -/
theorem Following.agrees_follow (hvisit : AgreesOn g depth) (h : Following g path s v ws t) (hedge : g.Edge v w)
    (hw : w < g.length) (hdepth : unentered g s ≤ depth + 1) (hq : t.Agrees g q)
    (hr : follow (visit g depth) v t w = some r) : r.Agrees g (g.visit depth q w) := by
  obtain ⟨hnumber, hnew⟩ | ⟨i, hnumber⟩ := h.explores.number_cases hw
  · have hlt : unentered g t < unentered g s := h.arrives.unentered_lt h.grown ⟨_, h.number⟩
    simp only [follow, hnumber, Option.bind_eq_bind, Option.bind_some] at hr
    obtain ⟨t', ht', hr⟩ := Option.bind_eq_some_iff.mp hr
    obtain ⟨low, -, hr⟩ := Option.bind_eq_some_iff.mp hr
    exact (hvisit (h.arrives_next hedge hw hnew) (by omega) ht' hq).lower hr
  · rw [Digraph.visit_of_mem ((hq.met w).mpr ⟨i, hnumber⟩)]
    simp only [follow, hnumber, h.explores.onStack w hw, Option.bind_eq_bind, Option.bind_some] at hr
    split at hr
    · exact hq.lower hr
    · exact Option.some.inj hr ▸ hq

/-- Both searches follow all edges. -/
theorem Following.agrees_foldlM (hrange : ∀ v w, g.Edge v w → w < g.length) (hvisit : AgreesOn g depth)
    (hdepth : unentered g s ≤ depth + 1) :
    ∀ {rest ws : List Nat} {t : Tarjan} {q : Digraph.Search}, Following g path s v ws t → (∀ w ∈ rest, g.Edge v w) →
      t.Agrees g q → rest.foldlM (follow (visit g depth) v) t = some r → r.Agrees g (rest.foldl (g.visit depth) q)
  | [], ws, t, q, _, _, hq, hr => Option.some.inj hr ▸ hq
  | w :: rest, ws, t, q, h, hedges, hq, hr => by
    obtain ⟨hedge, hedges⟩ := List.forall_mem_cons.mp hedges
    obtain ⟨t', ht', hfollowing⟩ := h.exists_follow (ends hrange depth) hedge (hrange v w hedge) hdepth
    have hq' := h.agrees_follow hvisit hedge (hrange v w hedge) hdepth hq ht'
    have hr' : rest.foldlM (follow (visit g depth) v) t' = some r := by
      rw [List.foldlM_cons, ht'] at hr
      exact hr
    rw [List.foldl_cons]
    exact agrees_foldlM hrange hvisit hdepth hfollowing hedges hq' hr'

theorem agreesOn (hrange : ∀ v w, g.Edge v w → w < g.length) : ∀ depth, AgreesOn g depth
  | 0, _, _, _, _, _, _, _, hr, _ => by cases hr
  | depth + 1, path, s, v, r, q, h, hdepth, hr, hq => by
    rw [visit, Digraph.getElem?_eq_successors h.lt] at hr
    obtain ⟨t, ht, hr⟩ : ∃ t, (g.successors v).foldlM (follow (visit g depth) v) (s.enter v) = some t ∧ t.leave v = some r :=
      Option.bind_eq_some_iff.mp hr
    have hedges : ∀ w ∈ g.successors v, g.Edge v w := fun _ hw => hw
    obtain ⟨t', ht', hfollowing⟩ := h.following.exists_foldlM (ends hrange depth) hrange hdepth hedges
    obtain rfl : t' = t := Option.some.inj (ht'.symm.trans ht)
    have hq' := h.following.agrees_foldlM hrange (agreesOn hrange depth) hdepth hedges
      (hq.enter (h.explores.numbers.symm ▸ h.lt) h.new) ht
    have hunmet : ¬ q.met.contains v = true := fun hc => h.new ((hq.met v).mp (List.contains_iff_mem.mp hc))
    rw [Digraph.visit, if_neg hunmet]
    exact hfollowing.agrees_leave (fun w hw => hw) hq' hr

/-! ### All visits -/

theorem explores_start (g : Digraph) : (start g.length).Explores g [] := by
  have hnumber (v : Nat) : ¬ (start g.length).Entered v := by
    rintro ⟨i, hi⟩
    exact nomatch (List.mem_replicate.mp (List.mem_of_getElem? hi)).2
  refine ⟨⟨List.length_replicate, List.length_replicate, fun v hv => ?_, fun v => ?_, List.disjoint_nil_left _, nofun, .nil⟩,
    List.nil_subset _, nofun, nofun, nofun, .nil⟩
  · simpa [start] using List.getElem?_replicate_of_lt hv
  · simpa [start] using hnumber v

/-- Nothing is on the stack between visits. -/
theorem Explores.stack_eq_nil (h : s.Explores g []) : s.stack = [] := by
  refine List.eq_nil_iff_forall_not_mem.mpr fun v hv => ?_
  obtain ⟨u, hu, -⟩ := h.back v hv
  cases hu

/-- A vertex is visited unless it has been entered. -/
theorem exists_visitNew (hrange : ∀ v w, g.Edge v w → w < g.length) (hdepth : g.length ≤ depth) (h : s.Explores g [])
    (hlt : v < g.length) (hq : s.Agrees g q) : ∃ t, visitNew g depth s v = some t ∧ t.Explores g [] ∧ s.Extends t ∧
      t.Entered v ∧ t.Agrees g (g.visit depth q v) := by
  obtain ⟨hnumber, hnew⟩ | ⟨i, hnumber⟩ := h.number_cases hlt
  · have harrives : Arrives g [] s v := ⟨h, hlt, hnew, nofun⟩
    have hle : unentered g s ≤ depth := (unentered_le g s).trans hdepth
    obtain ⟨t, ht, hvisited⟩ := ends hrange depth harrives hle
    refine ⟨t, ?_, hvisited.explores, hvisited.grown, hvisited.entered, agreesOn hrange depth harrives hle ht hq⟩
    simp [visitNew, hnumber, ht]
  · have hentered : s.Entered v := ⟨i, hnumber⟩
    refine ⟨s, ?_, h, .refl s, hentered, ?_⟩
    · simp [visitNew, hnumber]
    · rwa [Digraph.visit_of_mem ((hq.met v).mpr hentered)]

/-- Several vertices are visited unless they have been entered. -/
theorem exists_visits (hrange : ∀ v w, g.Edge v w → w < g.length) (hdepth : g.length ≤ depth) :
    ∀ {vs : List Nat} {s : Tarjan} {q : Digraph.Search}, s.Explores g [] → (∀ v ∈ vs, v < g.length) → s.Agrees g q →
      ∃ t, vs.foldlM (visitNew g depth) s = some t ∧ t.Explores g [] ∧ s.Extends t ∧ (∀ v ∈ vs, t.Entered v) ∧
        t.Agrees g (vs.foldl (g.visit depth) q)
  | [], s, q, h, _, hq => ⟨s, rfl, h, .refl s, nofun, hq⟩
  | v :: vs, s, q, h, hlt, hq => by
    obtain ⟨hv, hvs⟩ := List.forall_mem_cons.mp hlt
    obtain ⟨t, ht, hexplores, hgrown, hentered, hq'⟩ := exists_visitNew hrange hdepth h hv hq
    obtain ⟨r, hr, hexplores', hgrown', hentered', hq''⟩ := exists_visits hrange hdepth hexplores hvs hq'
    refine ⟨r, ?_, hexplores', hgrown.trans hgrown', List.forall_mem_cons.mpr ⟨hgrown'.entered hentered, hentered'⟩, hq''⟩
    rw [List.foldlM_cons, ht]
    exact hr

/-! ### Deeper visits -/

theorem foldlM_mono {α β : Type} {f f' : α → β → Option α} (hf : ∀ a b c, f a b = some c → f' a b = some c) :
    ∀ {bs : List β} {a c : α}, bs.foldlM f a = some c → bs.foldlM f' a = some c
  | [], _, _, h => h
  | b :: bs, a, c, h => by
    rw [List.foldlM_cons] at h ⊢
    obtain ⟨a', ha, hc⟩ := Option.bind_eq_some_iff.mp h
    rw [hf a b a' ha]
    exact foldlM_mono hf hc

/-- A visit that ends is not changed if it may be deeper. -/
theorem visit_succ : ∀ {depth : Nat} {s t : Tarjan} {v : Nat}, visit g depth s v = some t → visit g (depth + 1) s v = some t
  | depth + 1, s, t, v, h => by
    rw [visit] at h ⊢
    obtain ⟨ws, hws, h⟩ := Option.bind_eq_some_iff.mp h
    obtain ⟨u, hu, h⟩ := Option.bind_eq_some_iff.mp h
    have hfollow (a : Tarjan) (w : Nat) (c : Tarjan) (hc : follow (visit g depth) v a w = some c) :
        follow (visit g (depth + 1)) v a w = some c := by
      unfold follow at hc ⊢
      obtain ⟨number, hnumber, hc⟩ := Option.bind_eq_some_iff.mp hc
      rw [hnumber]
      cases number with
      | some i => exact hc
      | none =>
        obtain ⟨b, hb, hc⟩ := Option.bind_eq_some_iff.mp hc
        show (visit g (depth + 1) a w >>= _) = _
        rw [visit_succ hb]
        exact hc
    rw [hws]
    show ((ws.foldlM (follow (visit g (depth + 1)) v) (s.enter v)) >>= _) = _
    rw [foldlM_mono hfollow hu]
    exact h

theorem visitNew_succ (h : visitNew g depth s v = some t) : visitNew g (depth + 1) s v = some t := by
  unfold visitNew at h ⊢
  obtain ⟨number, hnumber, h⟩ := Option.bind_eq_some_iff.mp h
  rw [hnumber]
  cases number with
  | none => exact visit_succ h
  | some i => exact h

end Tarjan

namespace Digraph

variable {g : Digraph}

theorem tarjan_succ {depth : Nat} {blocks : List (List Nat)} (h : g.tarjan depth = some blocks) :
    g.tarjan (depth + 1) = some blocks := by
  unfold tarjan at h ⊢
  obtain ⟨t, ht, h⟩ := Option.bind_eq_some_iff.mp h
  rw [Tarjan.foldlM_mono (fun _ _ _ => Tarjan.visitNew_succ) ht]
  exact h

/-- The search by low-links ends, never deeper than there are vertices, for every graph whose edges stay in it.  It gives
the strongly connected components, each behind those that it leads to, and they are the components in their order. -/
theorem tarjan_lists_components (g : Digraph) (hrange : ∀ ws ∈ g, ∀ w ∈ ws, w < g.length) :
    ∃ blocks, (∀ depth, g.length ≤ depth → g.tarjan depth = some blocks) ∧ g.StrongBlocks blocks ∧
      g.components = blocks.map (·.mergeSort) := by
  have hedge (v w : Nat) (h : g.Edge v w) : w < g.length := by
    have hmem : g.successors v ∈ g := List.mem_of_getElem? (getElem?_eq_successors h.lt)
    exact hrange _ hmem w h
  have hstart : (Tarjan.start g.length).Agrees g ⟨[], []⟩ := by
    refine ⟨fun v => ?_, List.Subset.refl _, rfl⟩
    rw [(Tarjan.explores_start g).entered_iff]
    simp [Tarjan.start]
  have hsearch (depth : Nat) (hdepth : g.length ≤ depth) : ∃ t : Tarjan, g.tarjan depth = some t.blocks ∧ t.Explores g [] ∧
      (∀ v < g.length, t.Entered v) ∧ t.Agrees g ((List.range g.length).foldl (g.visit depth) ⟨[], []⟩) := by
    obtain ⟨t, ht, hexplores, -, hentered, hq⟩ := Tarjan.exists_visits hedge hdepth (Tarjan.explores_start g)
      (fun v hv => List.mem_range.mp hv) hstart
    refine ⟨t, ?_, hexplores, fun v hv => hentered v (List.mem_range.mpr hv), hq⟩
    rw [tarjan, ht]
    rfl
  obtain ⟨t, ht, hexplores, hentered, -⟩ := hsearch g.length le_rfl
  have hdeeper {depth : Nat} (hdepth : g.length ≤ depth) : g.tarjan depth = some t.blocks := by
    induction depth, hdepth using Nat.le_induction with
    | base => exact ht
    | succ depth _ ih => exact tarjan_succ ih
  refine ⟨t.blocks, fun depth => hdeeper, hexplores.settled.strongBlocks fun v => ?_, ?_⟩
  · have hiff := hexplores.entered_iff v
    rw [hexplores.stack_eq_nil] at hiff
    exact ⟨fun hv => hexplores.lt (hiff.mpr (Or.inr hv)), fun hv => (hiff.mp (hentered v hv)).resolve_left List.not_mem_nil⟩
  · obtain ⟨t', ht', hexplores', -, hq⟩ := hsearch (g.length + 1) (Nat.le_succ _)
    have hblocks : t'.blocks = t.blocks := Option.some.inj (ht'.symm.trans (hdeeper (Nat.le_succ _)))
    have hagrees := hq.blocks
    rw [hexplores'.stack_eq_nil, hblocks] at hagrees
    rw [hagrees, components, finishOrder]
    simp

/-- Eight vertices: four that lead around to each other, two that lead to each other from there, one that these lead to, and
one that leads to the first. -/
def eddies : Digraph := [[1], [2, 4], [0, 3], [1], [5], [4, 5, 6], [], [6, 0]]

theorem tarjan_lists_components_eddies : (∀ ws ∈ eddies, ∀ w ∈ ws, w < eddies.length) ∧
    (∀ depth, eddies.length ≤ depth → eddies.tarjan depth = some [[6], [5, 4], [3, 2, 1, 0], [7]]) ∧
      eddies.StrongBlocks [[6], [5, 4], [3, 2, 1, 0], [7]] ∧
        eddies.components = [[6], [5, 4], [3, 2, 1, 0], [7]].map (·.mergeSort) := by
  have hrange : ∀ ws ∈ eddies, ∀ w ∈ ws, w < eddies.length := by decide
  obtain ⟨blocks, hsearch, hstrong, hcomponents⟩ := tarjan_lists_components eddies hrange
  obtain rfl : blocks = [[6], [5, 4], [3, 2, 1, 0], [7]] :=
    Option.some.inj ((hsearch eddies.length le_rfl).symm.trans (by decide))
  exact ⟨hrange, hsearch, hstrong, hcomponents⟩

end Digraph

end Reactive
