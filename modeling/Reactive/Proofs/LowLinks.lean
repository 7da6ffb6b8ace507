import Reactive.Graph.Tarjan
import Reactive.Proofs.Search

/-!
# Reactive.Proofs.LowLinks — what low-links say

* `Digraph.Settled`: blocks that are strongly connected components, and that no edge leaves; `Digraph.Settled.concat`: one
  more of them.
* `Tarjan.Explores`: what holds whenever a visit begins or ends.  On the stack, what was entered before leads to what was
  entered later, and everything leads back to a vertex that is still being visited.
* `Tarjan.Following`: what holds while the edges of a vertex are followed.  Its low-link belongs to a vertex of the stack
  that it leads to, and no edge among those followed leads farther down the stack.
* `Tarjan.Cuts`: how the stack is divided by the vertex that is being visited; `Tarjan.Following.settled_block`: what is above
  is a component if the low-link of the vertex still is its number.
* `Tarjan.ends`: visits end, and what they leave behind is `Tarjan.Visited`.
-/

namespace Reactive

namespace Digraph

variable {g : Digraph}

/-- A vertex leads to another one, or is the same. -/
abbrev Reaches (g : Digraph) : Nat → Nat → Prop := Relation.ReflTransGen g.Edge

theorem getElem?_eq_successors {v : Nat} (h : v < g.length) : g[v]? = some (g.successors v) := by
  rw [successors, List.getElem?_eq_getElem h]
  rfl

/-- What has no edge to the outside is not left. -/
theorem Reaches.mem {vs : List Nat} (hclosed : ∀ v ∈ vs, ∀ w, g.Edge v w → w ∈ vs) {v w : Nat} (h : g.Reaches v w)
    (hv : v ∈ vs) : w ∈ vs := by
  induction h with
  | refl => exact hv
  | tail _ hedge ih => exact hclosed _ ih _ hedge

/-- Blocks that are strongly connected components, each behind those that it leads to, and that no edge leaves. -/
structure Settled (g : Digraph) (blocks : List (List Nat)) : Prop where
  nonempty : ∀ block ∈ blocks, block ≠ []
  nodup : blocks.flatten.Nodup
  strong : ∀ block ∈ blocks, ∀ v ∈ block, ∀ w, w ∈ block ↔ g.Reaches v w ∧ g.Reaches w v
  closed : ∀ v ∈ blocks.flatten, ∀ w, g.Edge v w → w ∈ blocks.flatten
  ordered : blocks.Pairwise fun earlier later => ∀ v ∈ earlier, ∀ w ∈ later, ¬ g.Reaches v w

theorem Settled.nil : g.Settled [] := ⟨nofun, .nil, nofun, nofun, .nil⟩

/-- One more block: its vertices lead to a vertex of it and back, and its edges lead to it and to the other blocks. -/
theorem Settled.concat {blocks : List (List Nat)} (h : g.Settled blocks) {block : List Nat} (hnodup : block.Nodup)
    (hapart : blocks.flatten.Disjoint block)
    (hclosed : ∀ v ∈ block, ∀ w, g.Edge v w → w ∈ blocks.flatten ∨ w ∈ block) {u : Nat} (hu : u ∈ block)
    (hstrong : ∀ v ∈ block, g.Reaches u v ∧ g.Reaches v u) : g.Settled (blocks ++ [block]) := by
  have hflatten : (blocks ++ [block]).flatten = blocks.flatten ++ block := by
    rw [List.flatten_append, List.flatten_singleton]
  have hleft : ∀ v ∈ blocks.flatten ++ block, ∀ w, g.Edge v w → w ∈ blocks.flatten ++ block := by
    intro v hv w hedge
    obtain hv | hv := List.mem_append.mp hv
    · exact List.mem_append_left _ (h.closed v hv w hedge)
    · exact List.mem_append.mpr (hclosed v hv w hedge)
  refine ⟨?_, ?_, ?_, ?_, ?_⟩
  · exact List.forall_mem_append.mpr ⟨h.nonempty, List.forall_mem_singleton.mpr (List.ne_nil_of_mem hu)⟩
  · rw [hflatten]
    exact h.nodup.append hnodup hapart
  · refine List.forall_mem_append.mpr ⟨h.strong, List.forall_mem_singleton.mpr fun v hv w => ⟨fun hw => ?_, fun hvw => ?_⟩⟩
    · exact ⟨(hstrong v hv).2.trans (hstrong w hw).1, (hstrong w hw).2.trans (hstrong v hv).1⟩
    · -- From an older block there is no way back.
      obtain hw | hw := List.mem_append.mp (hvw.1.mem hleft (List.mem_append_right _ hv))
      · exact absurd hv (hapart (hvw.2.mem h.closed hw))
      · exact hw
  · rw [hflatten]
    exact hleft
  · refine List.pairwise_append.mpr ⟨h.ordered, List.pairwise_singleton _ _, fun earlier hearlier later hlater => ?_⟩
    obtain rfl := List.mem_singleton.mp hlater
    intro v hv w hw hvw
    exact hapart (hvw.mem h.closed (List.mem_flatten.mpr ⟨earlier, hearlier, hv⟩)) hw

end Digraph

namespace Tarjan

variable {g : Digraph} {path : List Nat} {s t r : Tarjan} {v w : Nat}

/-! ### Tables -/

/-- A vertex has been entered. -/
def Entered (s : Tarjan) (v : Nat) : Prop := ∃ i, s.numbers[v]? = some (some i)

/-- The number of a vertex that has been entered. -/
def number (s : Tarjan) (v : Nat) : Nat := s.numbers[v]?.join.getD 0

/-- The low-link of a vertex. -/
def low (s : Tarjan) (v : Nat) : Nat := s.lows[v]?.getD 0

theorem number_eq {i : Nat} (h : s.numbers[v]? = some (some i)) : s.number v = i := by rw [number, h]; rfl

theorem low_eq {i : Nat} (h : s.lows[v]? = some i) : s.low v = i := by rw [low, h]; rfl

theorem Entered.number (h : s.Entered v) : s.numbers[v]? = some (some (s.number v)) := by
  obtain ⟨i, hi⟩ := h
  rw [hi, number_eq hi]

theorem numbers_enter_self (hv : v < s.numbers.length) : (s.enter v).numbers[v]? = some (some s.next) :=
  List.getElem?_set_self hv

theorem numbers_enter_of_ne (h : w ≠ v) : (s.enter v).numbers[w]? = s.numbers[w]? :=
  List.getElem?_set_ne h.symm

theorem entered_enter_iff (hv : v < s.numbers.length) : (s.enter v).Entered w ↔ w = v ∨ s.Entered w := by
  by_cases hw : w = v
  · subst hw
    exact ⟨fun _ => Or.inl rfl, fun _ => ⟨_, numbers_enter_self hv⟩⟩
  · rw [Entered, numbers_enter_of_ne hw]
    exact ⟨Or.inr, fun h => h.resolve_left hw⟩

theorem low_enter_self (hv : v < s.lows.length) : (s.enter v).low v = s.next :=
  low_eq (List.getElem?_set_self hv)

/-- What is taken off a stack down to a vertex, and what is left. -/
theorem popTo_append {above below : List Nat} (h : v ∉ above) :
    popTo v (above ++ v :: below) = (above ++ [v], below) := by
  induction above with
  | nil => rw [List.nil_append, popTo, if_pos rfl, List.nil_append]
  | cons w above ih =>
    have hne : w ≠ v := fun heq => h (List.mem_cons.mpr (Or.inl heq.symm))
    rw [List.cons_append, popTo, if_neg hne, ih fun hmem => h (List.mem_cons_of_mem w hmem), List.cons_append]

/-- Several entries of a table of flags are reset. -/
theorem getElem?_resetAll (vs : List Nat) {table : List Bool} {b : Bool} (h : table[w]? = some b) :
    (vs.foldl (fun table v => table.set v false) table)[w]? = some (b && !decide (w ∈ vs)) := by
  induction vs generalizing table b with
  | nil => simpa using h
  | cons v vs ih =>
    have hset : (table.set v false)[w]? = some (b && !decide (w = v)) := by
      by_cases hw : w = v
      · subst hw
        simp [List.getElem?_set_self (List.getElem?_eq_some_iff.mp h).1]
      · rw [List.getElem?_set_ne (Ne.symm hw), h]
        simp [hw]
    rw [List.foldl_cons, ih hset]
    by_cases hw : w = v <;> simp [hw]

/-- Lowering a low-link changes no other table. -/
theorem lower_eq (h : v < s.lows.length) (i : Nat) :
    s.lower v i = some { s with lows := s.lows.set v (min (s.low v) i) } := by
  rw [lower, low, List.getElem?_eq_getElem h]
  rfl

/-! ### What holds in every state -/

/-- The tables agree with each other and with the graph. -/
structure Consistent (g : Digraph) (s : Tarjan) : Prop where
  numbers : s.numbers.length = g.length
  lows : s.lows.length = g.length
  onStack : ∀ v < g.length, s.onStack[v]? = some (decide (v ∈ s.stack))
  entered_iff : ∀ v, s.Entered v ↔ v ∈ s.stack ∨ v ∈ s.blocks.flatten
  apart : s.stack.Disjoint s.blocks.flatten
  number_lt : ∀ v ∈ s.stack, s.number v < s.next
  sorted : s.stack.Pairwise fun v w => s.number w < s.number v

theorem Consistent.lt (h : s.Consistent g) (hv : s.Entered v) : v < g.length := by
  obtain ⟨i, hi⟩ := hv
  exact h.numbers ▸ (List.getElem?_eq_some_iff.mp hi).1

theorem Consistent.entered (h : s.Consistent g) (hv : v ∈ s.stack) : s.Entered v := (h.entered_iff v).mpr (Or.inl hv)

/-- A vertex has been entered or not. -/
theorem Consistent.number_cases (h : s.Consistent g) (hv : v < g.length) :
    s.numbers[v]? = some none ∧ ¬ s.Entered v ∨ ∃ i, s.numbers[v]? = some (some i) := by
  obtain ⟨number, hnumber⟩ : ∃ number, s.numbers[v]? = some number :=
    ⟨_, List.getElem?_eq_getElem (h.numbers.symm ▸ hv)⟩
  cases number with
  | some i => exact Or.inr ⟨i, hnumber⟩
  | none =>
    refine Or.inl ⟨hnumber, fun hentered => ?_⟩
    rw [hentered.number] at hnumber
    cases hnumber

theorem Consistent.lows_eq (h : s.Consistent g) (hv : v < g.length) : s.lows[v]? = some (s.low v) := by
  rw [low, List.getElem?_eq_getElem (h.lows.symm ▸ hv)]
  rfl

/-- What holds when the vertices of `path` are being visited. -/
structure Explores (g : Digraph) (path : List Nat) (s : Tarjan) : Prop extends s.Consistent g where
  /-- What is being visited is on the stack. -/
  onPath : path ⊆ s.stack
  /-- What was entered before leads to what was entered later. -/
  forth : ∀ v ∈ s.stack, ∀ w ∈ s.stack, s.number v ≤ s.number w → g.Reaches v w
  /-- Everything leads back to what is being visited. -/
  back : ∀ v ∈ s.stack, ∃ u ∈ path, s.number u ≤ s.number v ∧ g.Reaches v u
  /-- All edges of what has been visited have been followed. -/
  followed : ∀ v ∈ s.stack, v ∉ path → ∀ w, g.Edge v w → s.Entered w
  settled : g.Settled s.blocks

/-- What the search adds to a state: more numbers, and more vertices above those on the stack. -/
structure Extends (s t : Tarjan) : Prop where
  numbers : ∀ v, s.Entered v → t.numbers[v]? = s.numbers[v]?
  lows : ∀ v, s.Entered v → t.lows[v]? = s.lows[v]?
  stack : s.stack <:+ t.stack

theorem Extends.refl (s : Tarjan) : s.Extends s := ⟨fun _ _ => rfl, fun _ _ => rfl, List.suffix_rfl⟩

theorem Extends.entered (h : s.Extends t) (hv : s.Entered v) : t.Entered v := by
  rw [Entered, h.numbers v hv]
  exact hv

theorem Extends.number (h : s.Extends t) (hv : s.Entered v) : t.number v = s.number v := by
  rw [Tarjan.number, h.numbers v hv, Tarjan.number]

theorem Extends.low (h : s.Extends t) (hv : s.Entered v) : t.low v = s.low v := by
  rw [Tarjan.low, h.lows v hv, Tarjan.low]

theorem Extends.trans (h : s.Extends t) (h' : t.Extends r) : s.Extends r :=
  ⟨fun v hv => (h'.numbers v (h.entered hv)).trans (h.numbers v hv),
    fun v hv => (h'.lows v (h.entered hv)).trans (h.lows v hv), h.stack.trans h'.stack⟩

/-- Low-links of vertices that were not entered before do not count. -/
theorem Extends.setLow (h : s.Extends t) (hv : ¬ s.Entered v) (i : Nat) :
    s.Extends { t with lows := t.lows.set v i } := by
  refine ⟨h.numbers, fun w hw => ?_, h.stack⟩
  have hne : v ≠ w := fun heq => hv (heq ▸ hw)
  exact (List.getElem?_set_ne hne).trans (h.lows w hw)

theorem Explores.setLow (h : s.Explores g path) (i : Nat) : { s with lows := s.lows.set v i }.Explores g path := by
  have hlows : (s.lows.set v i).length = g.length := by rw [List.length_set, h.lows]
  exact ⟨⟨h.numbers, hlows, h.onStack, h.entered_iff, h.apart, h.number_lt, h.sorted⟩, h.onPath, h.forth, h.back, h.followed,
    h.settled⟩

/-! ### Entering a vertex -/

/-- What holds when a vertex is about to be visited. -/
structure Arrives (g : Digraph) (path : List Nat) (s : Tarjan) (v : Nat) : Prop where
  explores : s.Explores g path
  lt : v < g.length
  new : ¬ s.Entered v
  /-- What is being visited leads to the vertex. -/
  path : ∀ u ∈ path, g.Reaches u v

namespace Arrives

theorem extends_enter (h : Arrives g path s v) : s.Extends (s.enter v) := by
  refine ⟨fun w hw => numbers_enter_of_ne ?_, fun w hw => List.getElem?_set_ne ?_, List.suffix_cons v s.stack⟩
  · exact fun heq => h.new (heq ▸ hw)
  · exact fun heq => h.new (heq ▸ hw)

theorem numbers_enter (h : Arrives g path s v) : (s.enter v).numbers[v]? = some (some s.next) :=
  numbers_enter_self (h.explores.numbers.symm ▸ h.lt)

theorem number_of_mem (h : Arrives g path s v) (hw : w ∈ s.stack) : (s.enter v).number w = s.number w :=
  h.extends_enter.number (h.explores.entered hw)

/-- What is entered has a greater number than what stands on the stack. -/
theorem number_lt (h : Arrives g path s v) (hw : w ∈ s.stack) : (s.enter v).number w < (s.enter v).number v := by
  rw [h.number_of_mem hw, number_eq h.numbers_enter]
  exact h.explores.number_lt w hw

theorem consistent_enter (h : Arrives g path s v) : (s.enter v).Consistent g := by
  refine ⟨?_, ?_, ?_, ?_, ?_, ?_, ?_⟩
  · exact List.length_set.trans h.explores.numbers
  · exact List.length_set.trans h.explores.lows
  · intro w hw
    show (s.onStack.set v true)[w]? = some (decide (w ∈ v :: s.stack))
    by_cases heq : w = v
    · subst heq
      have hlength : w < s.onStack.length := (List.getElem?_eq_some_iff.mp (h.explores.onStack w hw)).1
      simp [List.getElem?_set_self hlength]
    · rw [List.getElem?_set_ne (Ne.symm heq), h.explores.onStack w hw]
      simp [heq]
  · intro w
    rw [entered_enter_iff (h.explores.numbers.symm ▸ h.lt), h.explores.entered_iff, ← or_assoc]
    exact or_congr_left List.mem_cons.symm
  · exact List.disjoint_cons_left.mpr ⟨fun hmem => h.new ((h.explores.entered_iff v).mpr (Or.inr hmem)), h.explores.apart⟩
  · refine List.forall_mem_cons.mpr ⟨?_, fun w hw => ?_⟩
    · rw [number_eq h.numbers_enter]
      exact Nat.lt_succ_self s.next
    · rw [h.number_of_mem hw]
      exact Nat.lt_succ_of_lt (h.explores.number_lt w hw)
  · refine List.pairwise_cons.mpr ⟨fun w hw => h.number_lt hw, h.explores.sorted.imp_of_mem fun hu hw hlt => ?_⟩
    rwa [h.number_of_mem hu, h.number_of_mem hw]

theorem explores_enter (h : Arrives g path s v) : (s.enter v).Explores g (v :: path) := by
  refine ⟨h.consistent_enter, List.cons_subset_cons v h.explores.onPath, ?_, ?_, ?_, h.explores.settled⟩
  · -- What stands on the stack leads to the path, and so to the vertex that is entered.
    have hlead {u : Nat} (hu : u ∈ s.stack) : g.Reaches u v := by
      obtain ⟨x, hx, -, hux⟩ := h.explores.back u hu
      exact hux.trans (h.path x hx)
    intro u hu w hw hle
    obtain rfl | hws := List.mem_cons.mp hw
    · obtain rfl | hus := List.mem_cons.mp hu
      · exact .refl
      · exact hlead hus
    · obtain rfl | hus := List.mem_cons.mp hu
      · exact absurd hle (Nat.not_le_of_lt (h.number_lt hws))
      · rw [h.number_of_mem hus, h.number_of_mem hws] at hle
        exact h.explores.forth u hus w hws hle
  · refine List.forall_mem_cons.mpr ⟨⟨v, List.mem_cons_self, le_rfl, .refl⟩, fun w hw => ?_⟩
    obtain ⟨u, hu, hle, hwu⟩ := h.explores.back w hw
    refine ⟨u, List.mem_cons_of_mem v hu, ?_, hwu⟩
    rwa [h.number_of_mem (h.explores.onPath hu), h.number_of_mem hw]
  · intro u hu hleft w hedge
    obtain ⟨hne, hleft⟩ := List.ne_and_not_mem_of_not_mem_cons hleft
    exact h.extends_enter.entered (h.explores.followed u (List.mem_of_ne_of_mem hne hu) hleft w hedge)

end Arrives

/-! ### Following the edges of a vertex -/

/-- What holds when of the edges of `v`, which was entered in the state `s`, those to the vertices `ws` have been
followed. -/
structure Following (g : Digraph) (path : List Nat) (s : Tarjan) (v : Nat) (ws : List Nat) (t : Tarjan) : Prop where
  arrives : Arrives g path s v
  explores : t.Explores g (v :: path)
  grown : s.Extends t
  number : t.numbers[v]? = some (some s.next)
  stack : v :: s.stack <:+ t.stack
  low_le : t.low v ≤ s.next
  /-- The low-link belongs to a vertex that `v` leads to. -/
  leads : ∃ u ∈ t.stack, t.number u = t.low v ∧ g.Reaches v u
  /-- No edge that has been followed leads farther down the stack. -/
  bound : ∀ u ∈ t.stack, u ∉ s.stack → ∀ w ∈ s.stack, g.Edge u w → (u = v → w ∈ ws) → t.low v ≤ t.number w
  entered : ∀ w ∈ ws, t.Entered w

/-- What a visit of `v` leaves behind. -/
structure Visited (g : Digraph) (path : List Nat) (s : Tarjan) (v : Nat) (t : Tarjan) : Prop where
  explores : t.Explores g path
  grown : s.Extends t
  entered : t.Entered v
  next_le : s.next ≤ t.number v
  /-- The low-link belongs to a vertex that `v` leads to, or is the number of `v`. -/
  leads : t.low v = t.number v ∨ ∃ u ∈ t.stack, t.number u = t.low v ∧ g.Reaches v u
  /-- No edge leads farther down the stack. -/
  bound : ∀ u ∈ t.stack, u ∉ s.stack → ∀ w ∈ s.stack, g.Edge u w → t.low v ≤ t.number w

theorem Arrives.following (h : Arrives g path s v) : Following g path s v [] (s.enter v) := by
  have hlow : (s.enter v).low v = s.next := low_enter_self (h.explores.lows.symm ▸ h.lt)
  have hnumber : (s.enter v).number v = (s.enter v).low v := (number_eq h.numbers_enter).trans hlow.symm
  refine ⟨h, h.explores_enter, h.extends_enter, h.numbers_enter, List.suffix_rfl, hlow.le,
    ⟨v, List.mem_cons_self, hnumber, .refl⟩, fun u hu hout w _ _ hdone => ?_, nofun⟩
  obtain rfl | hu := List.mem_cons.mp hu
  · cases hdone rfl
  · exact absurd hu hout

namespace Following

variable {ws : List Nat}

theorem number_eq (h : Following g path s v ws t) : t.number v = s.next := Tarjan.number_eq h.number

theorem mem_stack (h : Following g path s v ws t) : v ∈ t.stack := h.stack.subset List.mem_cons_self

/-- An edge leads to a vertex that has not been entered. -/
theorem arrives_next (h : Following g path s v ws t) (hedge : g.Edge v w) (hlt : w < g.length) (hnew : ¬ t.Entered w) :
    Arrives g (v :: path) t w :=
  ⟨h.explores, hlt, hnew, List.forall_mem_cons.mpr ⟨.single hedge, fun u hu => (h.arrives.path u hu).tail hedge⟩⟩

/-- The low-link of `v` is lowered to `i`, when this is no less than it or the number of a vertex that `v` leads to. -/
theorem lowered {ws' : List Nat} (harrives : Arrives g path s v) (hexplores : r.Explores g (v :: path))
    (hgrown : s.Extends r) (hnumber : r.numbers[v]? = some (some s.next)) (hstack : v :: s.stack <:+ r.stack)
    (hle : r.low v ≤ s.next) (hleads : ∃ u ∈ r.stack, r.number u = r.low v ∧ g.Reaches v u) {i : Nat}
    (hi : r.low v ≤ i ∨ ∃ u ∈ r.stack, r.number u = i ∧ g.Reaches v u)
    (hbound : ∀ u ∈ r.stack, u ∉ s.stack → ∀ w ∈ s.stack, g.Edge u w → (u = v → w ∈ ws') → min (r.low v) i ≤ r.number w)
    (hentered : ∀ w ∈ ws', r.Entered w) : ∃ t, r.lower v i = some t ∧ Following g path s v ws' t := by
  have hlt : v < r.lows.length := hexplores.lows.symm ▸ harrives.lt
  have hlow : Tarjan.low { r with lows := r.lows.set v (min (r.low v) i) } v = min (r.low v) i :=
    low_eq (List.getElem?_set_self hlt)
  refine ⟨_, lower_eq hlt i, harrives, hexplores.setLow _, hgrown.setLow harrives.new _, hnumber, hstack, ?_, ?_, ?_,
    hentered⟩
  · rw [hlow]
    exact (min_le_left _ _).trans hle
  · rw [hlow]
    by_cases hmin : r.low v ≤ i
    · rw [min_eq_left hmin]
      exact hleads
    · rw [min_eq_right (Nat.le_of_not_le hmin)]
      exact hi.resolve_left hmin
  · rw [hlow]
    exact hbound

/-- An edge leads to a vertex that has then been visited. -/
theorem exists_lower_visited (h : Following g path s v ws t) (hedge : g.Edge v w) (hnew : ¬ t.Entered w)
    (hvisited : Visited g (v :: path) t w r) :
    ∃ r', r.lower v (r.low w) = some r' ∧ Following g path s v (ws ++ [w]) r' := by
  have hv : t.Entered v := ⟨_, h.number⟩
  have hlow : r.low v = t.low v := hvisited.grown.low hv
  have hold {x : Nat} (hx : x ∈ s.stack) : t.Entered x := h.explores.entered (h.grown.stack.subset hx)
  refine lowered h.arrives hvisited.explores (h.grown.trans hvisited.grown)
    ((hvisited.grown.numbers v hv).trans h.number) (h.stack.trans hvisited.grown.stack) (hlow.trans_le h.low_le) ?_ ?_ ?_ ?_
  · obtain ⟨u, hu, hulow, hvu⟩ := h.leads
    refine ⟨u, hvisited.grown.stack.subset hu, ?_, hvu⟩
    rw [hvisited.grown.number (h.explores.entered hu), hulow, hlow]
  · obtain hown | ⟨u, hu, hulow, hwu⟩ := hvisited.leads
    · have hnext : s.next < t.next := h.number_eq ▸ h.explores.number_lt v h.mem_stack
      have hle := h.low_le
      have hnext' := hvisited.next_le
      exact Or.inl (by omega)
    · exact Or.inr ⟨u, hu, hulow, .head hedge hwu⟩
  · -- The edges of what stood on the stack have been accounted for before, and those of what is new by the visit.
    intro u hu hus x hx hux hdone
    by_cases hut : u ∈ t.stack
    · rw [hvisited.grown.number (hold hx), hlow]
      refine (min_le_left _ _).trans (h.bound u hut hus x hx hux fun huv => ?_)
      obtain hmem | hmem := List.mem_append.mp (hdone huv)
      · exact hmem
      · obtain rfl := List.mem_singleton.mp hmem
        exact absurd (hold hx) hnew
    · exact (min_le_right _ _).trans (hvisited.bound u hu hut x (h.grown.stack.subset hx) hux)
  · refine List.forall_mem_append.mpr ⟨fun x hx => hvisited.grown.entered (h.entered x hx), ?_⟩
    exact List.forall_mem_singleton.mpr hvisited.entered

/-- An edge leads to a vertex of the stack. -/
theorem exists_lower_stacked (h : Following g path s v ws t) (hedge : g.Edge v w) (hw : w ∈ t.stack) :
    ∃ r, t.lower v (t.number w) = some r ∧ Following g path s v (ws ++ [w]) r := by
  refine lowered h.arrives h.explores h.grown h.number h.stack h.low_le h.leads (Or.inr ⟨w, hw, rfl, .single hedge⟩) ?_ ?_
  · intro u hu hout x hx hux hdone
    by_cases hmem : u = v → x ∈ ws
    · exact (min_le_left _ _).trans (h.bound u hu hout x hx hux hmem)
    · obtain ⟨huv, hxs⟩ := Classical.not_imp.mp hmem
      obtain rfl := List.mem_singleton.mp ((List.mem_append.mp (hdone huv)).resolve_left hxs)
      exact min_le_right _ _
  · exact List.forall_mem_append.mpr ⟨h.entered, List.forall_mem_singleton.mpr (h.explores.entered hw)⟩

/-- An edge leads to a vertex whose component is complete. -/
theorem passed (h : Following g path s v ws t) (hentered : t.Entered w) (hw : w ∉ t.stack) :
    Following g path s v (ws ++ [w]) t := by
  refine { h with
    bound := fun u hu hout x hx hux hdone => h.bound u hu hout x hx hux fun huv => ?_
    entered := List.forall_mem_append.mpr ⟨h.entered, List.forall_mem_singleton.mpr hentered⟩ }
  obtain hmem | hmem := List.mem_append.mp (hdone huv)
  · exact hmem
  · obtain rfl := List.mem_singleton.mp hmem
    exact absurd (h.grown.stack.subset hx) hw

end Following

/-! ### Leaving a vertex -/

/-- The stack of a state `t` down to `v` is `block`, and below is the stack of the state `s` in which `v` was entered. -/
structure Cuts (s : Tarjan) (v : Nat) (block : List Nat) (t : Tarjan) : Prop where
  stack : t.stack = block ++ s.stack
  mem : v ∈ block
  popTo : popTo v t.stack = (block, s.stack)
  next_le : ∀ u ∈ block, s.next ≤ t.number u
  number_lt : ∀ u ∈ s.stack, t.number u < s.next

namespace Cuts

variable {block : List Nat}

theorem mem_block (h : Cuts s v block t) (hw : w ∈ block) : w ∈ t.stack := h.stack ▸ List.mem_append_left _ hw

theorem mem_below (h : Cuts s v block t) (hw : w ∈ s.stack) : w ∈ t.stack := h.stack ▸ List.mem_append_right _ hw

theorem not_mem (h : Cuts s v block t) (hw : w ∈ block) : w ∉ s.stack := fun hbelow =>
  absurd (h.number_lt w hbelow) (Nat.not_lt_of_le (h.next_le w hw))

theorem close_eq (h : Cuts s v block t) : t.close v = { t with
    stack := s.stack
    onStack := block.foldl (fun table w => table.set w false) t.onStack
    blocks := t.blocks ++ [block] } := by
  rw [close, h.popTo]

end Cuts

namespace Following

variable {ws block : List Nat}

theorem exists_cuts (h : Following g path s v ws t) : ∃ block, Cuts s v block t := by
  obtain ⟨above, hstack⟩ := h.stack
  have hsorted := h.explores.sorted
  rw [← hstack, List.pairwise_append, List.pairwise_cons] at hsorted
  obtain ⟨-, ⟨hbelow, -⟩, habove⟩ := hsorted
  rw [h.number_eq] at hbelow
  have hgreater {u : Nat} (hu : u ∈ above) : s.next < t.number u := h.number_eq ▸ habove u hu v List.mem_cons_self
  have hv : v ∉ above := fun hmem => absurd (hgreater hmem) (h.number_eq ▸ Nat.lt_irrefl s.next)
  refine ⟨above ++ [v], ?_, List.mem_append_right _ List.mem_cons_self, ?_, ?_, hbelow⟩
  · rw [← hstack, List.append_assoc, List.singleton_append]
  · rw [← hstack, popTo_append hv]
  · exact List.forall_mem_append.mpr ⟨fun u hu => (hgreater hu).le, List.forall_mem_singleton.mpr h.number_eq.ge⟩

variable (h : Following g path s v ws t) (hall : ∀ w, g.Edge v w → w ∈ ws)

include h hall

/-- All edges of what stands on the stack down to `v` have been followed. -/
theorem entered_of_edge (hcuts : Cuts s v block t) {u : Nat} (hu : u ∈ block) (hedge : g.Edge u w) : t.Entered w := by
  by_cases huv : u = v
  · subst huv
    exact h.entered w (hall w hedge)
  · have hleft : u ∉ path := fun hp => hcuts.not_mem hu (h.arrives.explores.onPath hp)
    exact h.explores.followed u (hcuts.mem_block hu) (List.not_mem_cons_of_ne_of_not_mem huv hleft) w hedge

section

variable (hlow : t.low v = s.next) (hcuts : Cuts s v block t)

include hlow hcuts

/-- If the low-link of `v` still is its number, no edge leads from what stands on the stack down to `v` to what stands
below. -/
theorem closed_block : ∀ u ∈ block, ∀ w, g.Edge u w → w ∈ t.blocks.flatten ∨ w ∈ block := by
  intro u hu w hedge
  obtain hw | hw := (h.explores.entered_iff w).mp (h.entered_of_edge hall hcuts hu hedge)
  · rw [hcuts.stack] at hw
    obtain hw | hw := List.mem_append.mp hw
    · exact Or.inr hw
    · have hle : t.low v ≤ t.number w :=
        h.bound u (hcuts.mem_block hu) (hcuts.not_mem hu) w hw hedge fun huv => hall w (huv ▸ hedge)
      exact absurd (hcuts.number_lt w hw) (Nat.not_lt_of_le (hlow ▸ hle))
  · exact Or.inl hw

/-- What stands on the stack down to a vertex whose low-link still is its number is a component. -/
theorem settled_block : g.Settled (t.blocks ++ [block]) := by
  have hclosed := h.closed_block hall hlow hcuts
  have hsorted := h.explores.sorted
  have hapart := h.explores.apart
  rw [hcuts.stack] at hsorted hapart
  obtain ⟨hfresh, hbelow⟩ := List.disjoint_append_left.mp hapart
  refine h.explores.settled.concat ?_ hfresh.symm hclosed hcuts.mem fun u hu => ⟨?_, ?_⟩
  · refine (List.pairwise_append.mp hsorted).1.imp fun hlt heq => ?_
    exact absurd hlt (heq ▸ Nat.lt_irrefl _)
  · exact h.explores.forth v h.mem_stack u (hcuts.mem_block hu) (h.number_eq ▸ hcuts.next_le u hu)
  · -- The way back to the path does not leave the block, so it ends at `v`.
    obtain ⟨x, hx, -, hux⟩ := h.explores.back u (hcuts.mem_block hu)
    obtain rfl | hx := List.mem_cons.mp hx
    · exact hux
    · have hkept : x ∈ t.blocks.flatten ++ block := by
        refine hux.mem (fun y hy w hedge => ?_) (List.mem_append_right _ hu)
        obtain hy | hy := List.mem_append.mp hy
        · exact List.mem_append_left _ (h.explores.settled.closed y hy w hedge)
        · exact List.mem_append.mpr (hclosed y hy w hedge)
      have hxs : x ∈ s.stack := h.arrives.explores.onPath hx
      obtain hx' | hx' := List.mem_append.mp hkept
      · exact absurd hx' (hbelow hxs)
      · exact absurd hxs (hcuts.not_mem hx')

omit hall hlow in
theorem consistent_close : (t.close v).Consistent g := by
  have hflatten : (t.blocks ++ [block]).flatten = t.blocks.flatten ++ block := by
    rw [List.flatten_append, List.flatten_singleton]
  rw [hcuts.close_eq]
  refine ⟨h.explores.numbers, h.explores.lows, ?_, ?_, ?_, ?_, ?_⟩
  · intro u hu
    have hreset := getElem?_resetAll block (h.explores.onStack u hu)
    rw [hcuts.stack] at hreset
    refine hreset.trans (congrArg some ?_)
    by_cases hblock : u ∈ block
    · simp [hblock, hcuts.not_mem hblock]
    · simp [hblock]
  · intro u
    refine (h.explores.entered_iff u).trans ?_
    rw [hflatten, hcuts.stack, List.mem_append, List.mem_append]
    tauto
  · rw [hflatten]
    have hapart := h.explores.apart
    rw [hcuts.stack] at hapart
    exact List.disjoint_append_right.mpr ⟨(List.disjoint_append_left.mp hapart).2, fun u hu hu' => hcuts.not_mem hu' hu⟩
  · exact fun u hu => h.explores.number_lt u (hcuts.mem_below hu)
  · have hsorted := h.explores.sorted
    rw [hcuts.stack] at hsorted
    exact (List.pairwise_append.mp hsorted).2.1

/-- The component of `v` is complete. -/
theorem explores_close : (t.close v).Explores g path := by
  have hconsistent := h.consistent_close hcuts
  have hsettled := h.settled_block hall hlow hcuts
  rw [hcuts.close_eq] at hconsistent ⊢
  refine ⟨hconsistent, h.arrives.explores.onPath, ?_, ?_, ?_, hsettled⟩
  · exact fun u hu w hw => h.explores.forth u (hcuts.mem_below hu) w (hcuts.mem_below hw)
  · intro u hu
    obtain ⟨x, hx, hle, hux⟩ := h.explores.back u (hcuts.mem_below hu)
    obtain rfl | hx := List.mem_cons.mp hx
    · rw [h.number_eq] at hle
      exact absurd (hcuts.number_lt u hu) (Nat.not_lt_of_le hle)
    · exact ⟨x, hx, hle, hux⟩
  · intro u hu hleft
    have hne : u ≠ v := fun heq => hcuts.not_mem hcuts.mem (heq ▸ hu)
    exact h.explores.followed u (hcuts.mem_below hu) (List.not_mem_cons_of_ne_of_not_mem hne hleft)

theorem visited_close : Visited g path s v (t.close v) := by
  have hexplores := h.explores_close hall hlow hcuts
  rw [hcuts.close_eq] at hexplores ⊢
  exact ⟨hexplores, ⟨h.grown.numbers, h.grown.lows, List.suffix_rfl⟩, ⟨_, h.number⟩, h.number_eq.ge,
    Or.inl (hlow.trans h.number_eq.symm), fun u hu hu' => absurd hu hu'⟩

end

/-- The component of `v` is not complete. -/
theorem visited_keep (hlow : t.low v ≠ s.next) : Visited g path s v t := by
  have hlt : t.low v < s.next := lt_of_le_of_ne h.low_le hlow
  obtain ⟨x, hx, hxlow, hvx⟩ := h.leads
  -- The vertex that the low-link belongs to leads back farther than to `v`.
  obtain ⟨z, hz, hzx, hxz⟩ : ∃ z ∈ path, t.number z ≤ t.number x ∧ g.Reaches x z := by
    obtain ⟨z, hz, hle, hxz⟩ := h.explores.back x hx
    obtain rfl | hz := List.mem_cons.mp hz
    · rw [hxlow, h.number_eq] at hle
      exact absurd hlt (Nat.not_lt_of_le hle)
    · exact ⟨z, hz, hle, hxz⟩
  refine ⟨⟨h.explores.toConsistent, ?_, h.explores.forth, ?_, ?_, h.explores.settled⟩, h.grown, ⟨_, h.number⟩, h.number_eq.ge,
    Or.inr ⟨x, hx, hxlow, hvx⟩, fun u hu hout w hw hedge => h.bound u hu hout w hw hedge fun huv => hall w (huv ▸ hedge)⟩
  · exact List.Subset.trans h.arrives.explores.onPath h.grown.stack.subset
  · intro u hu
    obtain ⟨y, hy, hle, huy⟩ := h.explores.back u hu
    obtain rfl | hy := List.mem_cons.mp hy
    · rw [h.number_eq] at hle
      exact ⟨z, hz, by omega, (huy.trans hvx).trans hxz⟩
    · exact ⟨y, hy, hle, huy⟩
  · intro u hu hleft w hedge
    by_cases huv : u = v
    · subst huv
      exact h.entered w (hall w hedge)
    · exact h.explores.followed u hu (List.not_mem_cons_of_ne_of_not_mem huv hleft) w hedge

omit hall in
theorem leave_eq : t.leave v = some (if t.low v = s.next then t.close v else t) := by
  by_cases hlow : t.low v = s.next <;> simp [leave, h.explores.lows_eq h.arrives.lt, h.number, hlow]

/-- When all edges of `v` have been followed, its visit ends. -/
theorem exists_leave : ∃ r, t.leave v = some r ∧ Visited g path s v r := by
  rw [h.leave_eq]
  refine ⟨_, rfl, ?_⟩
  split
  · obtain ⟨block, hcuts⟩ := h.exists_cuts
    exact h.visited_close hall ‹_› hcuts
  · exact h.visited_keep hall ‹_›

end Following

/-! ### Visits -/

open scoped Classical in
/-- The number of vertices that have not been entered. -/
noncomputable def unentered (g : Digraph) (s : Tarjan) : Nat := ((Finset.range g.length).filter fun v => ¬ s.Entered v).card

open scoped Classical in
theorem unentered_le (g : Digraph) (s : Tarjan) : unentered g s ≤ g.length :=
  (Finset.card_filter_le _ _).trans (Finset.card_range _).le

open scoped Classical in
theorem Arrives.unentered_lt (h : Arrives g path s v) (hgrown : s.Extends t) (hv : t.Entered v) :
    unentered g t < unentered g s := by
  refine Finset.card_lt_card ((Finset.ssubset_iff_of_subset fun u hu => ?_).mpr ⟨v, ?_, ?_⟩)
  · obtain ⟨hu, hout⟩ := Finset.mem_filter.mp hu
    exact Finset.mem_filter.mpr ⟨hu, fun hentered => hout (hgrown.entered hentered)⟩
  · exact Finset.mem_filter.mpr ⟨Finset.mem_range.mpr h.lt, h.new⟩
  · exact fun hmem => (Finset.mem_filter.mp hmem).2 hv

/-- Visits end if as many of them may be inside each other as there are vertices that have not been entered. -/
def Ends (g : Digraph) (depth : Nat) : Prop :=
  ∀ ⦃path s v⦄, Arrives g path s v → unentered g s ≤ depth → ∃ t, visit g depth s v = some t ∧ Visited g path s v t

section

variable {depth : Nat} {ws : List Nat} (hvisit : Ends g depth)

include hvisit

/-- One more edge is followed. -/
theorem Following.exists_follow (h : Following g path s v ws t) (hedge : g.Edge v w) (hw : w < g.length)
    (hdepth : unentered g s ≤ depth + 1) :
    ∃ r, follow (visit g depth) v t w = some r ∧ Following g path s v (ws ++ [w]) r := by
  obtain ⟨hnumber, hnew⟩ | ⟨i, hnumber⟩ := h.explores.number_cases hw
  · have hlt : unentered g t < unentered g s := h.arrives.unentered_lt h.grown ⟨_, h.number⟩
    obtain ⟨r, hr, hvisited⟩ := hvisit (h.arrives_next hedge hw hnew) (by omega)
    obtain ⟨r', hr', hfollowing⟩ := h.exists_lower_visited hedge hnew hvisited
    refine ⟨r', ?_, hfollowing⟩
    simp [follow, hnumber, hr, hvisited.explores.lows_eq hw, hr']
  · by_cases hstack : w ∈ t.stack
    · obtain ⟨r, hr, hfollowing⟩ := h.exists_lower_stacked hedge hstack
      rw [Tarjan.number_eq hnumber] at hr
      refine ⟨r, ?_, hfollowing⟩
      simp [follow, hnumber, h.explores.onStack w hw, hstack, hr]
    · refine ⟨t, ?_, h.passed ⟨i, hnumber⟩ hstack⟩
      simp [follow, hnumber, h.explores.onStack w hw, hstack]

/-- All edges are followed. -/
theorem Following.exists_foldlM (hrange : ∀ v w, g.Edge v w → w < g.length) (hdepth : unentered g s ≤ depth + 1) :
    ∀ {rest ws : List Nat} {t : Tarjan}, Following g path s v ws t → (∀ w ∈ rest, g.Edge v w) →
      ∃ r, rest.foldlM (follow (visit g depth) v) t = some r ∧ Following g path s v (ws ++ rest) r
  | [], ws, t, h, _ => ⟨t, rfl, by rwa [List.append_nil]⟩
  | w :: rest, ws, t, h, hedges => by
    obtain ⟨hedge, hedges⟩ := List.forall_mem_cons.mp hedges
    obtain ⟨r, hr, hfollowing⟩ := h.exists_follow hvisit hedge (hrange v w hedge) hdepth
    obtain ⟨r', hr', hfollowing'⟩ := exists_foldlM hrange hdepth hfollowing hedges
    refine ⟨r', ?_, ?_⟩
    · rw [List.foldlM_cons, hr]
      exact hr'
    · rwa [List.append_assoc] at hfollowing'

end

/-- Visits end. -/
theorem ends (hrange : ∀ v w, g.Edge v w → w < g.length) : ∀ depth, Ends g depth
  | 0, path, s, v, h, hdepth => by
    have hlt : unentered g (s.enter v) < unentered g s := h.unentered_lt h.extends_enter ⟨_, h.numbers_enter⟩
    omega
  | depth + 1, path, s, v, h, hdepth => by
    have hedges : ∀ w ∈ g.successors v, g.Edge v w := fun _ hw => hw
    obtain ⟨t, ht, hfollowing⟩ := h.following.exists_foldlM (ends hrange depth) hrange hdepth hedges
    obtain ⟨r, hr, hvisited⟩ := hfollowing.exists_leave fun w hw => hw
    refine ⟨r, ?_, hvisited⟩
    simp [visit, Digraph.getElem?_eq_successors h.lt, ht, hr]

end Tarjan

end Reactive
