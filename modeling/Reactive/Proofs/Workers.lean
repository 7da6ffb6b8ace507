import Mathlib.Algebra.GroupWithZero.Nat
import Mathlib.Tactic.Common
import Reactive.CommandLine
import Reactive.Pool
import Reactive.Proofs.Stateful

/-!
# Reactive.Proofs.Workers — a pool of workers gives what one after another would give

* `Pool.Moved`: what a step of a worker does (`Pool.moved_of_step`).
* `Pool.Sound`: the numbers that were taken are the places of the workers that are busy and of the slots that are
  filled, each once.  Every step keeps this (`Sound.moved`), so every schedule does (`Sound.run`).
* `Pool.remaining`: how many steps are left; every step takes one of them.
* `reports_keep_input_order`: whoever goes first, files are reported in their order, each being processed once.
-/

namespace Reactive

open Stateful

variable {α ρ ε β : Type}

namespace Worker

/-- The worker has taken the number of a place and not yet filled the slot there. -/
def isAt (place : Nat) : Worker α ρ → Bool
  | assigned p _ | holding p _ => p = place
  | free | stopped => false

/-- The worker has processed the item of a place and not yet filled the slot there. -/
def holds (place : Nat) : Worker α ρ → Bool
  | holding p _ => p = place
  | free | assigned _ _ | stopped => false

/-- How many steps a worker takes until it has taken another number, or stopped. -/
def ahead : Worker α ρ → Nat
  | free => 1
  | assigned _ _ => 3
  | holding _ _ => 2
  | stopped => 0

/-- The worker has stopped. -/
def isStopped : Worker α ρ → Bool
  | stopped => true
  | free | assigned _ _ | holding _ _ => false

end Worker

namespace Pool

variable {process : α → ρ} {items : List α} {p p' : Pool α ρ} {id : Nat} {w w' : Worker α ρ}

/-! ### Counting -/

/-- A worker that goes on to something else counts for what it does then. -/
theorem countP_set (f : Worker α ρ → Bool) {ws : List (Worker α ρ)} (h : ws[id]? = some w) (w' : Worker α ρ) :
    (ws.set id w').countP f + (f w).toNat = ws.countP f + (f w').toNat := by
  obtain ⟨hlt, rfl⟩ := List.getElem?_eq_some_iff.mp h
  have hpos : (f ws[id]).toNat ≤ ws.countP f := by
    cases hf : f ws[id] with
    | false => exact Nat.zero_le _
    | true => exact List.countP_pos_iff.mpr ⟨_, List.getElem_mem hlt, hf⟩
  rw [List.countP_set hlt]
  cases hf : f ws[id] <;> cases f w' <;> simp only [hf, Bool.toNat_true, Bool.toNat_false, if_true, if_false,
    Bool.false_eq_true] at hpos ⊢ <;> omega

/-- How many steps workers take before they take numbers again. -/
def aheadAll (ws : List (Worker α ρ)) : Nat := (ws.map Worker.ahead).sum

theorem aheadAll_set : ∀ {ws : List (Worker α ρ)} {id : Nat}, ws[id]? = some w → ∀ w' : Worker α ρ,
    aheadAll (ws.set id w') + w.ahead = aheadAll ws + w'.ahead
  | [], _, h, _ => by cases h
  | v :: ws, 0, h, w' => by
    cases h
    simp only [aheadAll, List.set_cons_zero, List.map_cons, List.sum_cons]
    omega
  | v :: ws, id + 1, h, w' => by
    have hw : ws[id]? = some w := h
    have ih := aheadAll_set hw w'
    simp only [aheadAll, List.set_cons_succ, List.map_cons, List.sum_cons] at ih ⊢
    omega

theorem ahead_le_aheadAll : ∀ {ws : List (Worker α ρ)}, w ∈ ws → w.ahead ≤ aheadAll ws
  | v :: ws, h => by
    rw [aheadAll, List.map_cons, List.sum_cons]
    obtain rfl | h := List.mem_cons.mp h
    · exact Nat.le_add_right _ _
    · exact Nat.le_trans (ahead_le_aheadAll h) (Nat.le_add_left _ _)

/-- One if the slot of a place is filled, and otherwise zero. -/
def filled (place : Nat) (p : Pool α ρ) : Nat := (p.slots[place]?.join).isSome.toNat

/-! ### Steps -/

/-- What a step of a worker does. -/
inductive Moved (process : α → ρ) (items : List α) (p : Pool α ρ) (id : Nat) : Pool α ρ → Prop
  | takes (item : α) (free : p.workers[id]? = some .free) (found : items[p.next]? = some item) :
    Moved process items p id ({ p with next := p.next + 1 }.assign id (.assigned p.next item))
  | stops (free : p.workers[id]? = some .free) (behind : items.length ≤ p.next) :
    Moved process items p id ({ p with next := p.next + 1 }.assign id .stopped)
  | processes (place : Nat) (item : α) (assigned : p.workers[id]? = some (.assigned place item)) :
    Moved process items p id
      ({ p with processed := p.processed ++ [(id, place)] }.assign id (.holding place (process item)))
  | stores (place : Nat) (result : ρ) (holding : p.workers[id]? = some (.holding place result)) :
    Moved process items p id ({ p with slots := p.slots.set place (some result) }.assign id .free)

theorem moved_of_step (h : p.step process items id = some p') : Moved process items p id p' := by
  unfold step at h
  split at h
  · rename_i hfree
    split at h
    · rename_i item hitem
      cases h
      exact .takes item hfree hitem
    · rename_i hnone
      cases h
      exact .stops hfree (List.getElem?_eq_none_iff.mp hnone)
  · rename_i place item hassigned
    cases h
    exact .processes place item hassigned
  · rename_i place result hholding
    cases h
    exact .stores place result hholding
  · cases h
  · cases h

/-- A worker that has not stopped can go on. -/
theorem isSome_step (process : α → ρ) (items : List α) (h : p.workers[id]? = some w) (hw : w ≠ .stopped) :
    (p.step process items id).isSome = true := by
  unfold step
  rw [h]
  cases w with
  | free =>
    dsimp only
    split <;> rfl
  | assigned place item => rfl
  | holding place result => rfl
  | stopped => exact absurd rfl hw

/-! ### What steps keep -/

/-- A pool as its steps leave it. -/
structure Sound (process : α → ρ) (items : List α) (p : Pool α ρ) : Prop where
  slots : p.slots.length = items.length
  /-- Behind the last place a number is taken only by a worker that stops then. -/
  next_le : p.next ≤ items.length + p.workers.countP Worker.isStopped
  stopped : .stopped ∈ p.workers → items.length ≤ p.next
  /-- A number that was taken is the place of one worker, or of a slot that is filled. -/
  taken : ∀ place < items.length, place < p.next → p.workers.countP (Worker.isAt place) + p.filled place = 1
  open_ : ∀ place, p.next ≤ place → p.workers.countP (Worker.isAt place) + p.filled place = 0
  /-- What has been processed is held by a worker, or stored. -/
  noted : ∀ place, (p.processed.map Prod.snd).count place = p.workers.countP (Worker.holds place) + p.filled place
  assigned : ∀ (place : Nat) (item : α), .assigned place item ∈ p.workers → items[place]? = some item
  held : ∀ (place : Nat) (result : ρ), .holding place result ∈ p.workers → items[place]?.map process = some result
  stored : ∀ (place : Nat) (result : ρ), p.slots[place]? = some (some result) → items[place]?.map process = some result

theorem sound_start (process : α → ρ) (jobs : Nat) (items : List α) : Sound process items (start jobs items) := by
  have hcount (f : Worker α ρ → Bool) (h : f .free = false) : (start jobs items).workers.countP f = 0 := by
    show (List.replicate _ Worker.free).countP f = 0
    rw [List.countP_replicate, h]
    rfl
  have hfilled (place : Nat) : (start jobs items : Pool α ρ).filled place = 0 := by
    show ((List.replicate items.length none)[place]?.join).isSome.toNat = 0
    rw [List.getElem?_replicate]
    split <;> rfl
  refine ⟨List.length_replicate, Nat.zero_le _, fun h => ?_, fun place _ h => ?_, fun place _ => ?_, fun place => ?_,
    fun place item h => ?_, fun place result h => ?_, fun place result h => ?_⟩
  · cases List.eq_of_mem_replicate h
  · exact absurd h (Nat.not_lt_zero _)
  · rw [hcount _ rfl, hfilled]
  · rw [hcount _ rfl, hfilled]
    rfl
  · cases List.eq_of_mem_replicate h
  · cases List.eq_of_mem_replicate h
  · rw [start, List.getElem?_replicate] at h
    split at h <;> cases h

/-- The slot of a place and the others, when a result is stored. -/
theorem filled_set {place : Nat} (hlt : place < p.slots.length) (result : ρ) (other : Nat) :
    { p with slots := p.slots.set place (some result) }.filled other =
      if place = other then 1 else p.filled other := by
  show ((p.slots.set place (some result))[other]?.join).isSome.toNat = _
  rw [List.getElem?_set]
  by_cases heq : place = other
  · subst heq
    rw [if_pos rfl, if_pos rfl, if_pos hlt]
    rfl
  · rw [if_neg heq, if_neg heq]
    rfl

/-- **A step keeps a pool sound.** -/
theorem Sound.moved (h : Sound process items p) (hp : Moved process items p id p') : Sound process items p' := by
  cases hp with
  | takes item free found =>
    have hlt : p.next < items.length := (List.getElem?_eq_some_iff.mp found).1
    have hcount (f : Worker α ρ → Bool) := countP_set f free (.assigned p.next item)
    refine ⟨h.slots, Nat.le_add_right_of_le hlt, fun hw => ?_, fun place hplace hnext => ?_, fun place hnext => ?_,
      fun place => ?_, fun place item' hw => ?_, fun place result hw => ?_, h.stored⟩
    · obtain hw | heq := List.mem_or_eq_of_mem_set hw
      · exact absurd (h.stopped hw) (Nat.not_le.mpr hlt)
      · cases heq
    · have hat := hcount (Worker.isAt place)
      have hopen := h.open_ place
      have htaken := h.taken place hplace
      dsimp only [assign, filled, Worker.isAt, Bool.toNat_false] at *
      by_cases heq : p.next = place
      · rw [decide_eq_true heq, Bool.toNat_true] at hat
        omega
      · rw [decide_eq_false heq, Bool.toNat_false] at hat
        omega
    · have hat := hcount (Worker.isAt place)
      have hopen := h.open_ place (Nat.le_of_succ_le hnext)
      dsimp only [assign, filled, Worker.isAt, Bool.toNat_false] at *
      rw [decide_eq_false (by omega), Bool.toNat_false] at hat
      omega
    · have hholds := hcount (Worker.holds place)
      exact (h.noted place).trans (congrArg (· + _) hholds.symm)
    · obtain hw | heq := List.mem_or_eq_of_mem_set hw
      · exact h.assigned place item' hw
      · cases heq
        exact found
    · obtain hw | heq := List.mem_or_eq_of_mem_set hw
      · exact h.held place result hw
      · cases heq
  | stops free behind =>
    have hcount (f : Worker α ρ → Bool) := countP_set f free .stopped
    refine ⟨h.slots, ?_, fun hw => Nat.le_succ_of_le behind, fun place hplace _ => ?_, fun place hnext => ?_,
      fun place => ?_, fun place item hw => ?_, fun place result hw => ?_, h.stored⟩
    · have hstopped := hcount Worker.isStopped
      have hle := h.next_le
      dsimp only [assign, Worker.isStopped, Bool.toNat_false, Bool.toNat_true] at *
      omega
    · have hat := hcount (Worker.isAt place)
      exact (congrArg (· + _) hat).trans (h.taken place hplace (Nat.lt_of_lt_of_le hplace behind))
    · have hat := hcount (Worker.isAt place)
      exact (congrArg (· + _) hat).trans (h.open_ place (Nat.le_of_succ_le hnext))
    · have hholds := hcount (Worker.holds place)
      exact (h.noted place).trans (congrArg (· + _) hholds.symm)
    · obtain hw | heq := List.mem_or_eq_of_mem_set hw
      · exact h.assigned place item hw
      · cases heq
    · obtain hw | heq := List.mem_or_eq_of_mem_set hw
      · exact h.held place result hw
      · cases heq
  | processes place item assigned =>
    have hcount (f : Worker α ρ → Bool) := countP_set f assigned (.holding place (process item))
    have hat (other : Nat) : (p.workers.set id (.holding place (process item))).countP (Worker.isAt other) =
        p.workers.countP (Worker.isAt other) := Nat.add_right_cancel (hcount (Worker.isAt other))
    refine ⟨h.slots, ?_, fun hw => ?_, fun other hother hnext => ?_, fun other hnext => ?_, fun other => ?_,
      fun other item' hw => ?_, fun other result hw => ?_, h.stored⟩
    · exact Nat.le_trans h.next_le (Nat.add_le_add_left (Nat.le_of_eq (hcount Worker.isStopped).symm) _)
    · obtain hw | heq := List.mem_or_eq_of_mem_set hw
      · exact h.stopped hw
      · cases heq
    · exact (congrArg (· + _) (hat other)).trans (h.taken other hother hnext)
    · exact (congrArg (· + _) (hat other)).trans (h.open_ other hnext)
    · have hholds := hcount (Worker.holds other)
      have hnoted := h.noted other
      dsimp only [assign, filled, Worker.holds, Bool.toNat_false] at *
      rw [List.map_append, List.count_append, hnoted]
      show _ + [place].count other = _
      rw [List.count_singleton]
      by_cases heq : place = other
      · rw [decide_eq_true heq, Bool.toNat_true] at hholds
        rw [beq_iff_eq.mpr heq, if_pos rfl]
        omega
      · rw [decide_eq_false heq, Bool.toNat_false] at hholds
        rw [beq_false_of_ne heq, if_neg Bool.false_ne_true]
        omega
    · obtain hw | heq := List.mem_or_eq_of_mem_set hw
      · exact h.assigned other item' hw
      · cases heq
    · obtain hw | heq := List.mem_or_eq_of_mem_set hw
      · exact h.held other result hw
      · cases heq
        rw [h.assigned place item (List.mem_of_getElem? assigned)]
        rfl
  | stores place result holding =>
    have hcount (f : Worker α ρ → Bool) := countP_set f holding .free
    have hheld := h.held place result (List.mem_of_getElem? holding)
    have hlt : place < p.slots.length := by
      obtain ⟨item, hitem, -⟩ := Option.map_eq_some_iff.mp hheld
      rw [h.slots]
      exact (List.getElem?_eq_some_iff.mp hitem).1
    have hempty : p.filled place = 0 := by
      have hat : 1 ≤ p.workers.countP (Worker.isAt place) :=
        List.countP_pos_iff.mpr ⟨_, List.mem_of_getElem? holding, decide_eq_true rfl⟩
      rcases Nat.lt_or_ge place p.next with hnext | hnext
      · have htaken := h.taken place (h.slots ▸ hlt) hnext
        omega
      · have hopen := h.open_ place hnext
        omega
    -- Where the worker counted, the slot counts now.
    have hpass (f : Nat → Worker α ρ → Bool) (hf : ∀ other, f other (.holding place result) = decide (place = other))
        (hfree : ∀ other, f other .free = false) (other : Nat) :
        (p.workers.set id .free).countP (f other) + { p with slots := p.slots.set place (some result) }.filled other =
          p.workers.countP (f other) + p.filled other := by
      have hother := hcount (f other)
      rw [hf, hfree] at hother
      rw [filled_set hlt]
      by_cases heq : place = other
      · subst heq
        rw [decide_eq_true rfl, Bool.toNat_true, Bool.toNat_false] at hother
        rw [if_pos rfl]
        omega
      · rw [decide_eq_false heq, Bool.toNat_false] at hother
        rw [if_neg heq]
        omega
    have hat := hpass Worker.isAt (fun _ => rfl) fun _ => rfl
    refine ⟨?_, ?_, fun hw => ?_, fun other hother hnext => ?_, fun other hnext => ?_, fun other => ?_,
      fun other item' hw => ?_, fun other result hw => ?_, fun other result' hslot => ?_⟩
    · exact List.length_set.trans h.slots
    · exact Nat.le_trans h.next_le (Nat.add_le_add_left (Nat.le_of_eq (hcount Worker.isStopped).symm) _)
    · obtain hw | heq := List.mem_or_eq_of_mem_set hw
      · exact h.stopped hw
      · cases heq
    · exact (hat other).trans (h.taken other hother hnext)
    · exact (hat other).trans (h.open_ other hnext)
    · exact (h.noted other).trans (hpass Worker.holds (fun _ => rfl) (fun _ => rfl) other).symm
    · obtain hw | heq := List.mem_or_eq_of_mem_set hw
      · exact h.assigned other item' hw
      · cases heq
    · obtain hw | heq := List.mem_or_eq_of_mem_set hw
      · exact h.held other result hw
      · cases heq
    · dsimp only [assign] at hslot
      rw [List.getElem?_set] at hslot
      split at hslot
      · rename_i heq
        subst heq
        cases hslot
        exact hheld
      · exact h.stored other result' hslot

/-! ### Schedules -/

/-- How many steps are left. -/
def remaining (items : List α) (p : Pool α ρ) : Nat := 3 * (items.length - p.next) + aheadAll p.workers

/-- Every step is one less to be taken. -/
theorem Moved.remaining (hp : Moved process items p id p') : p'.remaining items + 1 = p.remaining items := by
  unfold Pool.remaining
  cases hp with
  | takes item free found =>
    have hlt : p.next < items.length := (List.getElem?_eq_some_iff.mp found).1
    have hahead := aheadAll_set free (.assigned p.next item)
    dsimp only [assign, Worker.ahead] at hahead ⊢
    omega
  | stops free behind =>
    have hahead := aheadAll_set free .stopped
    dsimp only [assign, Worker.ahead] at hahead ⊢
    omega
  | processes place item assigned =>
    have hahead := aheadAll_set assigned (.holding place (process item))
    dsimp only [assign, Worker.ahead] at hahead ⊢
    omega
  | stores place result holding =>
    have hahead := aheadAll_set holding .free
    dsimp only [assign, Worker.ahead] at hahead ⊢
    omega

theorem Moved.length_workers (hp : Moved process items p id p') : p'.workers.length = p.workers.length := by
  cases hp <;> exact List.length_set

theorem run_cons {schedule : List Nat} (h : p.run process items (id :: schedule) = some p') :
    ∃ p₁, Moved process items p id p₁ ∧ p₁.run process items schedule = some p' := by
  obtain ⟨p₁, h₁, h₂⟩ := Option.bind_eq_some_iff.mp h
  exact ⟨p₁, moved_of_step h₁, h₂⟩

/-- **A schedule keeps a pool sound**, and takes as many steps as it has. -/
theorem Sound.run : ∀ {schedule : List Nat} {p : Pool α ρ}, Sound process items p →
    p.run process items schedule = some p' → Sound process items p' ∧ p'.workers.length = p.workers.length ∧
      p'.remaining items + schedule.length = p.remaining items
  | [], _, h, hrun => by
    cases hrun
    exact ⟨h, rfl, rfl⟩
  | id :: schedule, _, h, hrun => by
    obtain ⟨p₁, hmoved, hrest⟩ := run_cons hrun
    obtain ⟨hsound, hlength, hremaining⟩ := (h.moved hmoved).run hrest
    have hone := hmoved.remaining
    refine ⟨hsound, hlength.trans hmoved.length_workers, ?_⟩
    rw [List.length_cons]
    omega

/-! ### The end -/

/-- A pool with a worker has no steps left exactly if all workers have stopped. -/
theorem Sound.isDone_iff (h : Sound process items p) (hworkers : p.workers ≠ []) :
    p.IsDone ↔ p.remaining items = 0 := by
  constructor
  · intro hdone
    obtain ⟨w, hw⟩ := List.exists_mem_of_ne_nil _ hworkers
    have hnext := h.stopped (hdone w hw ▸ hw)
    have hahead : aheadAll p.workers = 0 := by
      rw [List.eq_replicate_of_mem hdone, aheadAll, List.map_replicate, List.sum_replicate_nat]
      rfl
    rw [remaining, hahead]
    omega
  · intro hzero w hw
    have hle := ahead_le_aheadAll hw
    have hahead : w.ahead = 0 := by
      unfold remaining at hzero
      omega
    cases w with
    | stopped => rfl
    | free | assigned | holding => cases hahead

/-- When all workers have stopped, every slot is filled. -/
theorem Sound.filled_of_isDone (h : Sound process items p) (hworkers : p.workers ≠ []) (hdone : p.IsDone) {place : Nat}
    (hplace : place < items.length) : p.filled place = 1 := by
  obtain ⟨w, hw⟩ := List.exists_mem_of_ne_nil _ hworkers
  have hnext := h.stopped (hdone w hw ▸ hw)
  have hnone : p.workers.countP (Worker.isAt place) = 0 := List.countP_eq_zero.mpr fun w hw => by
    rw [hdone w hw]
    exact Bool.false_ne_true
  have htaken := h.taken place hplace (Nat.lt_of_lt_of_le hplace hnext)
  omega

/-- When all workers have stopped, every slot holds the result of its item. -/
theorem Sound.slots_eq (h : Sound process items p) (hworkers : p.workers ≠ []) (hdone : p.IsDone) :
    p.slots = items.map fun item => some (process item) := by
  refine List.ext_getElem? fun place => ?_
  rw [List.getElem?_map]
  rcases Nat.lt_or_ge place items.length with hplace | hplace
  · have hfilled := h.filled_of_isDone hworkers hdone hplace
    obtain ⟨slot, hslot⟩ : ∃ slot, p.slots[place]? = some slot :=
      ⟨_, List.getElem?_eq_getElem (h.slots.symm ▸ hplace)⟩
    rw [filled, hslot] at hfilled
    cases slot with
    | none => cases hfilled
    | some result =>
      obtain ⟨item, hitem, hresult⟩ := Option.map_eq_some_iff.mp (h.stored place result hslot)
      rw [hslot, hitem, Option.map_some, hresult]
  · rw [List.getElem?_eq_none hplace, List.getElem?_eq_none (h.slots.symm ▸ hplace), Option.map_none]

/-- When all workers have stopped, every item has been processed once, by one worker. -/
theorem Sound.processed_once (h : Sound process items p) (hworkers : p.workers ≠ []) (hdone : p.IsDone) {place : Nat}
    (hplace : place < items.length) : ∃ id, p.processed.filter (·.2 = place) = [(id, place)] := by
  have hnone : p.workers.countP (Worker.holds place) = 0 := List.countP_eq_zero.mpr fun w hw => by
    rw [hdone w hw]
    exact Bool.false_ne_true
  have hnoted := h.noted place
  rw [hnone, h.filled_of_isDone hworkers hdone hplace, List.count, List.countP_map,
    List.countP_eq_length_filter] at hnoted
  have hsame : p.processed.filter (·.2 = place) = p.processed.filter ((· == place) ∘ Prod.snd) := by
    congr 1
  obtain ⟨⟨id, other⟩, hone⟩ := List.length_eq_one_iff.mp hnoted
  have hmem : (id, other) ∈ p.processed.filter ((· == place) ∘ Prod.snd) := hone ▸ List.mem_singleton_self _
  obtain rfl : other = place := beq_iff_eq.mp (List.mem_filter.mp hmem).2
  exact ⟨id, hsame.trans hone⟩

/-- What filled slots give is what comes of processing one item after another. -/
theorem mapM_taken (process : α → Except ε β) : ∀ items : List α,
    (((items.map fun item => some (process item)).zip items).mapM fun (slot, item) => taken slot item) =
      (items.mapM process).mapError .failed
  | [] => rfl
  | item :: items => by
    rw [List.map_cons, List.zip_cons_cons, List.mapM_cons, List.mapM_cons, mapM_taken process items]
    cases process item with
    | error e => rfl
    | ok b => cases items.mapM process <;> rfl

/-- What is collected in the end is what comes of processing one item after another. -/
theorem collect_eq {process : α → Except ε β} {p : Pool α (Except ε β)} (h : Sound process items p)
    (hworkers : p.workers ≠ []) (hdone : p.IsDone) : p.collect items = (items.mapM process).mapError .failed := by
  rw [collect, h.slots_eq hworkers hdone]
  exact mapM_taken process items

end Pool

/-! ### One after another -/

theorem mapM_eq_ok_iff {process : α → Except ε β} : ∀ {items : List α} {bs : List β},
    items.mapM process = .ok bs ↔ List.Forall₂ (fun item b => process item = .ok b) items bs
  | [], bs => by
    constructor
    · rintro ⟨⟩
      exact .nil
    · rintro ⟨⟩
      rfl
  | item :: items, bs => by
    rw [List.mapM_cons]
    constructor
    · intro h
      cases hitem : process item with
      | error e =>
        rw [hitem] at h
        cases h
      | ok b =>
        cases hitems : items.mapM process with
        | error e =>
          rw [hitem, hitems] at h
          cases h
        | ok rest =>
          rw [hitem, hitems] at h
          cases h
          exact .cons hitem (mapM_eq_ok_iff.mp hitems)
    · rintro (_ | ⟨hitem, hitems⟩)
      rw [hitem, mapM_eq_ok_iff.mpr hitems]
      rfl

/-- The first item that has no result is the one whose error is given. -/
theorem exists_of_mapM_error {process : α → Except ε β} {e : ε} : ∀ {items : List α}, items.mapM process = .error e →
    ∃ before item after, items = before ++ item :: after ∧ (∀ earlier ∈ before, ∃ b, process earlier = .ok b) ∧
      process item = .error e
  | [], h => by cases h
  | item :: items, h => by
    rw [List.mapM_cons] at h
    cases hitem : process item with
    | error e' =>
      rw [hitem] at h
      cases h
      exact ⟨[], item, items, rfl, nofun, hitem⟩
    | ok b =>
      cases hitems : items.mapM process with
      | ok bs =>
        rw [hitem, hitems] at h
        cases h
      | error e' =>
        rw [hitem, hitems] at h
        cases h
        obtain ⟨before, found, after, rfl, hbefore, hfound⟩ := exists_of_mapM_error hitems
        refine ⟨item :: before, found, after, rfl, fun earlier hearlier => ?_, hfound⟩
        obtain rfl | hearlier := List.mem_cons.mp hearlier
        · exact ⟨b, hitem⟩
        · exact hbefore earlier hearlier

/-- The report on a file, or why there is none. -/
def FileReport.ofPath (files : Files) (conventions : Conventions) (mode : Mode) (path : String) :
    Except RunError FileReport :=
  match FileReport.ofFile? files conventions mode path with
  | some report => .ok report
  | none => .error (.unreadable path)

namespace CommandLine

/-- The command line reports on one file after another. -/
theorem mapM_reportOn (conventions : Conventions) (mode : Mode) (console : Console) : ∀ paths : List String,
    paths.mapM (reportOn conventions mode) console =
      match paths.mapM (FileReport.ofPath console.files conventions mode) with
      | .ok reports => .ok reports console
      | .error e => .error e console
  | [] => rfl
  | path :: paths => by
    have hone : reportOn conventions mode path console =
        match FileReport.ofPath console.files conventions mode path with
        | .ok report => .ok report console
        | .error e => .error e console := by
      unfold reportOn FileReport.ofPath
      rw [get_bind]
      cases FileReport.ofFile? console.files conventions mode path <;> rfl
    rw [List.mapM_cons, List.mapM_cons, bind_apply, hone]
    cases FileReport.ofPath console.files conventions mode path with
    | error e => rfl
    | ok report =>
      dsimp only
      rw [bind_apply, mapM_reportOn conventions mode console paths]
      cases paths.mapM (FileReport.ofPath console.files conventions mode) <;> rfl

end CommandLine

/-! ### Files -/

namespace Pool

/-- All workers have stopped exactly if none of them can go on. -/
theorem isDone_iff_stuck (process : α → ρ) (items : List α) (p : Pool α ρ) :
    p.IsDone ↔ ∀ id, p.step process items id = none := by
  constructor
  · intro hdone id
    unfold step
    cases hw : p.workers[id]? with
    | none => rfl
    | some w => rw [hdone w (List.mem_of_getElem? hw)]
  · intro hnone w hw
    obtain ⟨id, hid⟩ := List.mem_iff_getElem?.mp hw
    by_contra hne
    have hsome := isSome_step process items hid hne
    rw [hnone id] at hsome
    cases hsome

/-- How many steps there are in all. -/
theorem remaining_start (jobs : Nat) (items : List α) :
    (start jobs items : Pool α ρ).remaining items = 3 * items.length + size jobs items.length := by
  have hahead : aheadAll (List.replicate (size jobs items.length) (.free : Worker α ρ)) = size jobs items.length := by
    rw [aheadAll, List.map_replicate, List.sum_replicate_nat]
    exact Nat.mul_one _
  rw [remaining, start, hahead, Nat.sub_zero]

/-- A pool as a schedule leaves it that began before the first step. -/
structure Ran (process : α → ρ) (items : List α) (jobs : Nat) (schedule : List Nat) (p : Pool α ρ) : Prop where
  sound : Sound process items p
  workers : p.workers.length = size jobs items.length
  remaining : p.remaining items + schedule.length = 3 * items.length + size jobs items.length

theorem ran_of_run {jobs : Nat} {schedule : List Nat} (h : (start jobs items).run process items schedule = some p) :
    Ran process items jobs schedule p := by
  obtain ⟨hsound, hlength, hremaining⟩ := (sound_start process jobs items).run h
  exact ⟨hsound, hlength.trans List.length_replicate, hremaining.trans (remaining_start jobs items)⟩

namespace Ran

variable {jobs : Nat} {schedule : List Nat}

theorem workers_ne_nil (h : Ran process items jobs schedule p) : p.workers ≠ [] := by
  refine List.ne_nil_of_length_pos ?_
  rw [h.workers]
  exact Nat.le_max_left 1 _

end Ran

end Pool

open CommandLine in
/-- **Workers report in the order of the files.**  However many workers are wanted and whoever of them goes first, a
worker can go on until all have stopped, which takes a fixed number of steps; no number that they take is greater than
those of the files and workers together.  When all have stopped, each file has been processed once, by one worker.  The
reports are then collected in the order of the files, or else the error of the first file that cannot be read; no slot
is found empty.  So the command line, which reports on one file after another, gives the same. -/
theorem reports_keep_input_order (files : Files) (conventions : Conventions) (mode : Mode) (paths : List String)
    (jobs : Nat) {schedule : List Nat} {p : Pool String (Except RunError FileReport)}
    (hrun : (Pool.start jobs paths).run (FileReport.ofPath files conventions mode) paths schedule = some p) :
    (p.IsDone ↔ ∀ id, p.step (FileReport.ofPath files conventions mode) paths id = none) ∧
      (p.IsDone ↔ schedule.length = 3 * paths.length + Pool.size jobs paths.length) ∧
      schedule.length ≤ 3 * paths.length + Pool.size jobs paths.length ∧
      p.next ≤ paths.length + Pool.size jobs paths.length ∧
      (p.IsDone →
        (∀ place < paths.length, ∃ id, p.processed.filter (·.2 = place) = [(id, place)]) ∧
          ((∃ reports, p.collect paths = .ok reports ∧
            List.Forall₂ (fun path report => FileReport.ofPath files conventions mode path = .ok report) paths reports ∧
            ∀ console : Console, console.files = files →
              paths.mapM (reportOn conventions mode) console = .ok reports console) ∨
          ∃ e before path after, p.collect paths = .error (.failed e) ∧ paths = before ++ path :: after ∧
            (∀ earlier ∈ before, ∃ report, FileReport.ofPath files conventions mode earlier = .ok report) ∧
            FileReport.ofPath files conventions mode path = .error e ∧
            ∀ console : Console, console.files = files →
              paths.mapM (reportOn conventions mode) console = .error e console)) := by
  have hran := Pool.ran_of_run hrun
  have hne := hran.workers_ne_nil
  have hremaining := hran.remaining
  refine ⟨Pool.isDone_iff_stuck _ paths p, ?_, by omega, ?_, fun hdone => ⟨fun place hplace => ?_, ?_⟩⟩
  · rw [hran.sound.isDone_iff hne]
    omega
  · calc p.next ≤ paths.length + p.workers.countP Worker.isStopped := hran.sound.next_le
      _ ≤ paths.length + p.workers.length := Nat.add_le_add_left List.countP_le_length _
      _ = paths.length + Pool.size jobs paths.length := by rw [hran.workers]
  · exact hran.sound.processed_once hne hdone hplace
  · have hcollect := Pool.collect_eq hran.sound hne hdone
    cases hone : paths.mapM (FileReport.ofPath files conventions mode) with
    | ok reports =>
      refine .inl ⟨reports, by rw [hcollect, hone]; rfl, mapM_eq_ok_iff.mp hone, fun console hfiles => ?_⟩
      subst hfiles
      rw [mapM_reportOn, hone]
    | error e =>
      obtain ⟨before, path, after, hpaths, hbefore, hpath⟩ := exists_of_mapM_error hone
      refine .inr ⟨e, before, path, after, by rw [hcollect, hone]; rfl, hpaths, hbefore, hpath,
        fun console hfiles => ?_⟩
      subst hfiles
      rw [mapM_reportOn, hone]

/-- Of two workers on two empty files, the second takes its number last and is done first. -/
theorem reports_keep_input_order_two :
    ∃ p : Pool String (Except RunError FileReport),
      (Pool.start 5 ["a", "b"]).run (FileReport.ofPath ⟨[(["a"], ""), (["b"], "")]⟩ default .check) ["a", "b"]
        [0, 1, 1, 1, 1, 0, 0, 0] = some p ∧ p.IsDone ∧ p.processed = [(1, 1), (0, 0)] ∧
      p.collect ["a", "b"] = .ok [.ofText default .check "a" "", .ofText default .check "b" ""] := by
  let process := FileReport.ofPath ⟨[(["a"], ""), (["b"], "")]⟩ default .check
  have hrun : (Pool.start 5 ["a", "b"]).run process ["a", "b"] [0, 1, 1, 1, 1, 0, 0, 0] =
      some ⟨4, [.stopped, .stopped], [some (process "a"), some (process "b")], [(1, 1), (0, 0)]⟩ := rfl
  obtain ⟨-, hdone, -, -, hend⟩ := reports_keep_input_order _ _ _ _ _ hrun
  refine ⟨_, hrun, hdone.mpr rfl, rfl, ?_⟩
  obtain ⟨reports, hcollect, hreports, -⟩ | ⟨e, before, path, after, -, hpaths, -, hpath, -⟩ := (hend (hdone.mpr rfl)).2
  · obtain _ | ⟨ha, _ | ⟨hb, ⟨⟩⟩⟩ := hreports
    cases ha
    cases hb
    exact hcollect
  · have hmem : path ∈ ["a", "b"] := hpaths ▸ List.mem_append_right before (List.mem_cons_self ..)
    obtain rfl | rfl : path = "a" ∨ path = "b" := by simpa using hmem
    · cases hpath
    · cases hpath

end Reactive
