/-!
# Reactive.Pool — items that are spread over workers

Some workers share a number, a list of items and a slot for each item.  A worker takes the number, which becomes the
next one, processes the item at that place, stores the result in the slot of that place, and takes a number again; it
stops when there is no item at the place.  Each of these is a step, and the steps of the workers come in any order: a
schedule says who takes the next one.  When all have stopped, the results are collected in the order of the items.
-/

namespace Reactive

/-- What a worker does next. -/
inductive Worker (α ρ : Type)
  /-- It takes a number. -/
  | free
  /-- It processes the item of its place. -/
  | assigned (place : Nat) (item : α)
  /-- It stores the result of its place. -/
  | holding (place : Nat) (result : ρ)
  /-- It does nothing any more. -/
  | stopped
deriving DecidableEq, Repr

/-- Workers and what they share. -/
structure Pool (α ρ : Type) where
  /-- The number that is taken next. -/
  next : Nat
  workers : List (Worker α ρ)
  slots : List (Option ρ)
  /-- Who has processed what, each worker and each item by its place. -/
  processed : List (Nat × Nat)
deriving DecidableEq, Repr

/-- Why nothing is collected. -/
inductive PoolError (α ε : Type)
  /-- An item has no result but an error. -/
  | failed (error : ε)
  /-- The slot of an item is empty. -/
  | unprocessed (item : α)
deriving DecidableEq, Repr

namespace Pool

variable {α ρ ε β : Type}

/-- How many workers there are when `jobs` of them are wanted: no more than items, and one at least. -/
def size (jobs items : Nat) : Nat := max 1 (min jobs (max items 1))

/-- Before the first step. -/
def start (jobs : Nat) (items : List α) : Pool α ρ where
  next := 0
  workers := List.replicate (size jobs items.length) .free
  slots := List.replicate items.length none
  processed := []

/-- The pool in which a worker goes on to something else. -/
def assign (p : Pool α ρ) (id : Nat) (w : Worker α ρ) : Pool α ρ := { p with workers := p.workers.set id w }

section

variable (process : α → ρ) (items : List α)

/-- A step of a worker that has not stopped. -/
def step (p : Pool α ρ) (id : Nat) : Option (Pool α ρ) :=
  match p.workers[id]? with
  | some .free =>
    match items[p.next]? with
    | some item => some ({ p with next := p.next + 1 }.assign id (.assigned p.next item))
    | none => some ({ p with next := p.next + 1 }.assign id .stopped)
  | some (.assigned place item) =>
    some ({ p with processed := p.processed ++ [(id, place)] }.assign id (.holding place (process item)))
  | some (.holding place result) => some ({ p with slots := p.slots.set place (some result) }.assign id .free)
  | some .stopped | none => none

/-- The steps of a schedule. -/
def run (p : Pool α ρ) : List Nat → Option (Pool α ρ)
  | [] => some p
  | id :: schedule => (p.step process items id).bind (run · schedule)

end

/-- All workers have stopped. -/
def IsDone (p : Pool α ρ) : Prop := ∀ w ∈ p.workers, w = .stopped

instance [DecidableEq α] [DecidableEq ρ] (p : Pool α ρ) : Decidable p.IsDone :=
  inferInstanceAs (Decidable (∀ w ∈ p.workers, w = .stopped))

/-- What a slot holds for its item. -/
def taken (slot : Option (Except ε β)) (item : α) : Except (PoolError α ε) β :=
  match slot with
  | some (.ok b) => .ok b
  | some (.error e) => .error (.failed e)
  | none => .error (.unprocessed item)

/-- The results in the order of their items, or the first error. -/
def collect (p : Pool α (Except ε β)) (items : List α) : Except (PoolError α ε) (List β) :=
  (p.slots.zip items).mapM fun (slot, item) => taken slot item

end Pool

end Reactive
