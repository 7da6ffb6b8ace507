/-!
# Reactive.Table — values under names

A table holds at most one value under a name.  `find?` is its view: a name has the value last put under it.
-/

namespace Reactive

/-- Values under distinct names, in the order in which the names were first used. -/
abbrev Table (α : Type) := List (String × α)

namespace Table

variable {α : Type}

/-- The value under a name. -/
def find? (t : Table α) (name : String) : Option α := List.lookup name t

/-- There is a value under the name. -/
def has (t : Table α) (name : String) : Bool := (t.find? name).isSome

/-- The table with a value under a name. -/
def put : Table α → String → α → Table α
  | [], name, a => [(name, a)]
  | (n, b) :: t, name, a => if n = name then (name, a) :: t else (n, b) :: put t name a

/-- The table without the value under a name. -/
def drop (t : Table α) (name : String) : Table α := t.filter (·.1 ≠ name)

/-- The table of a list of named values; of two with one name the later one counts. -/
def ofList (entries : List (String × α)) : Table α := entries.foldl (fun t e => t.put e.1 e.2) []

@[simp] theorem find?_put_self (t : Table α) (name : String) (a : α) : (t.put name a).find? name = some a := by
  induction t with
  | nil => simp [put, find?]
  | cons e t ih =>
    obtain ⟨n, b⟩ := e
    unfold put
    split
    · simp [find?]
    · rename_i h
      simp only [find?, List.lookup_cons] at ih ⊢
      simp [beq_false_of_ne (Ne.symm h), ih]

theorem find?_put_of_ne (t : Table α) {name other : String} (a : α) (h : other ≠ name) :
    (t.put name a).find? other = t.find? other := by
  induction t with
  | nil => simp [put, find?, List.lookup_cons, beq_false_of_ne h]
  | cons e t ih =>
    obtain ⟨n, b⟩ := e
    unfold put
    split
    · rename_i hn
      subst hn
      simp [find?, List.lookup_cons, beq_false_of_ne h]
    · simp only [find?, List.lookup_cons] at ih ⊢
      split <;> simp_all

end Table

end Reactive
