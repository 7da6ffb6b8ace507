import Mathlib.Data.List.Basic
import Mathlib.Data.Option.Basic
import Mathlib.Tactic.Common
import Reactive.Annotation

/-!
# Reactive.Proofs.Overloading — the arguments that a constructor accepts

* `Shape.slot? ps i`: the parameter that an argument in a place goes to.
* `Shape.Accepts ps values`: each argument has a parameter, which accepts it, and no required parameter is without one.
* `Shape.Binds ps values bound`: how arguments are bound to parameters, a variadic one taking all that are left.
* `Shape.exists_binds`: what is accepted is what can be bound.  `Shape.bindPositional?_eq_some`,
  `Shape.bindPositional?_eq_none`: arguments are bound to the first constructor that accepts them, if there is one.
-/

namespace Reactive

/-- The constants that are in a list, or a single one. -/
def Constant.items : Constant → List Constant
  | .list items => items
  | c => [c]

/-- No parameter takes a list. -/
theorem ParamType.items_of_accepts {type : ParamType} {v : Constant} (h : type.accepts v = true) : v.items = [v] := by
  cases v with
  | list items => cases type <;> cases h
  | _ => rfl

namespace Shape

variable {s : Shape} {p : Parameter} {ps : List Parameter} {v : Constant} {vs values : List Constant}
  {bound : List (String × Constant)}

/-- The parameter that the argument in a place goes to: the first variadic one takes all that get to it. -/
def slot? : List Parameter → Nat → Option Parameter
  | [], _ => none
  | p :: ps, i =>
    if p.arity = .variadic then some p
    else
      match i with
      | 0 => some p
      | i + 1 => slot? ps i

/-- The arguments that are accepted: each goes to a parameter of its type, and each required parameter gets the one in
its own place. -/
structure Accepts (ps : List Parameter) (values : List Constant) : Prop where
  typed : ∀ i v, values[i]? = some v → ∃ p, slot? ps i = some p ∧ p.type.accepts v = true
  required : ∀ j p, ps[j]? = some p → p.arity = .required → j < values.length ∧ slot? ps j = some p

/-- Arguments bound to parameters under the names of the parameters. -/
inductive Binds : List Parameter → List Constant → List (String × Constant) → Prop
  | done : Binds [] [] []
  | one {p : Parameter} {ps : List Parameter} {v : Constant} {vs : List Constant} {bound : List (String × Constant)}
      (single : p.arity ≠ .variadic) (typed : p.type.accepts v = true) (more : Binds ps vs bound) :
      Binds (p :: ps) (v :: vs) ((p.name, v) :: bound)
  | absent {p : Parameter} {ps : List Parameter} {bound : List (String × Constant)} (optional : p.arity = .optional)
      (more : Binds ps [] bound) : Binds (p :: ps) [] bound
  | rest {p : Parameter} {ps : List Parameter} {values : List Constant} {bound : List (String × Constant)}
      (variadic : p.arity = .variadic) (typed : ∀ v ∈ values, p.type.accepts v = true) (more : Binds ps [] bound) :
      Binds (p :: ps) values ((p.name, .list values) :: bound)

/-- Nothing is lost and nothing invented: the constants that are bound are the arguments, in their order. -/
theorem Binds.items (h : Binds ps values bound) : bound.flatMap (·.2.items) = values := by
  induction h with
  | done => rfl
  | one single typed more ih =>
    rw [List.flatMap_cons, ParamType.items_of_accepts typed, ih]
    rfl
  | absent optional more ih => exact ih
  | rest variadic typed more ih =>
    rw [List.flatMap_cons, ih, List.append_nil]
    rfl

/-- What is bound has the name of a parameter and is of its type. -/
theorem Binds.typed (h : Binds ps values bound) : ∀ e ∈ bound, ∃ p ∈ ps, p.name = e.1 ∧
    ∀ v ∈ e.2.items, p.type.accepts v = true := by
  induction h with
  | done => nofun
  | @one p ps v vs bound single typed more ih =>
    refine List.forall_mem_cons.mpr ⟨⟨p, List.mem_cons_self, rfl, ?_⟩, fun e he => ?_⟩
    · rw [ParamType.items_of_accepts typed]
      exact List.forall_mem_singleton.mpr typed
    · exact List.exists_mem_cons_of_exists (ih e he)
  | absent optional more ih => exact fun e he => List.exists_mem_cons_of_exists (ih e he)
  | @rest p ps values bound variadic typed more ih =>
    refine List.forall_mem_cons.mpr ⟨⟨p, List.mem_cons_self, rfl, typed⟩, fun e he => ?_⟩
    exact List.exists_mem_cons_of_exists (ih e he)

/-! ### What is accepted can be bound -/

theorem accepts_nil_nil : Accepts [] [] := ⟨nofun, nofun⟩

theorem not_accepts_nil_cons : ¬ Accepts [] (v :: vs) := by
  intro h
  obtain ⟨p, hp, -⟩ := h.typed 0 v rfl
  cases hp

theorem accepts_nil : Accepts ps [] ↔ ∀ p ∈ ps, p.arity ≠ .required := by
  constructor
  · intro h p hp hrequired
    obtain ⟨j, hj⟩ := List.mem_iff_getElem?.mp hp
    exact absurd (h.required j p hj hrequired).1 (Nat.not_lt_zero j)
  · intro h
    exact ⟨nofun, fun j p hj hrequired => absurd hrequired (h p (List.mem_of_getElem? hj))⟩

/-- A parameter for one argument. -/
theorem accepts_one (hp : p.arity ≠ .variadic) :
    Accepts (p :: ps) (v :: vs) ↔ p.type.accepts v = true ∧ Accepts ps vs := by
  have hzero : slot? (p :: ps) 0 = some p := by simp [slot?, hp]
  have hsucc (i : Nat) : slot? (p :: ps) (i + 1) = slot? ps i := by simp [slot?, hp]
  constructor
  · intro h
    obtain ⟨q, hq, hv⟩ := h.typed 0 v rfl
    rw [hzero] at hq
    cases hq
    refine ⟨hv, fun i w hw => ?_, fun j q hq hrequired => ?_⟩
    · rw [← hsucc i]
      exact h.typed (i + 1) w hw
    · obtain ⟨hj, hslot⟩ := h.required (j + 1) q hq hrequired
      rw [hsucc] at hslot
      exact ⟨Nat.lt_of_succ_lt_succ hj, hslot⟩
  · rintro ⟨hv, h⟩
    refine ⟨fun i w hw => ?_, fun j q hq hrequired => ?_⟩
    · cases i with
      | zero =>
        cases hw
        exact ⟨p, hzero, hv⟩
      | succ i =>
        rw [hsucc]
        exact h.typed i w hw
    · cases j with
      | zero =>
        cases hq
        exact ⟨Nat.succ_pos _, hzero⟩
      | succ j =>
        obtain ⟨hj, hslot⟩ := h.required j q hq hrequired
        rw [hsucc]
        exact ⟨Nat.succ_lt_succ hj, hslot⟩

/-- A parameter that takes all arguments leaves none for those behind it. -/
theorem accepts_variadic (hp : p.arity = .variadic) :
    Accepts (p :: ps) values ↔ (∀ v ∈ values, p.type.accepts v = true) ∧ Accepts ps [] := by
  have hslot (i : Nat) : slot? (p :: ps) i = some p := by simp [slot?, hp]
  rw [accepts_nil]
  constructor
  · intro h
    refine ⟨fun v hv => ?_, fun q hq hrequired => ?_⟩
    · obtain ⟨i, hi⟩ := List.mem_iff_getElem?.mp hv
      obtain ⟨q, hq, hv⟩ := h.typed i v hi
      rw [hslot] at hq
      cases hq
      exact hv
    · obtain ⟨j, hj⟩ := List.mem_iff_getElem?.mp hq
      have hown := (h.required (j + 1) q hj hrequired).2
      rw [hslot] at hown
      cases hown
      rw [hp] at hrequired
      cases hrequired
  · rintro ⟨htyped, hoptional⟩
    refine ⟨fun i v hv => ⟨p, hslot i, htyped v (List.mem_of_getElem? hv)⟩, fun j q hq hrequired => ?_⟩
    cases j with
    | zero =>
      cases hq
      rw [hp] at hrequired
      cases hrequired
    | succ j => exact absurd hrequired (hoptional q (List.mem_of_getElem? hq))

theorem accepts_absent (hp : p.arity = .optional) : Accepts (p :: ps) [] ↔ Accepts ps [] := by
  rw [accepts_nil, accepts_nil, List.forall_mem_cons]
  refine and_iff_right ?_
  rw [hp]
  nofun

/-- The arguments that are accepted are those that can be bound. -/
theorem exists_binds : (∃ bound, Binds ps values bound) ↔ Accepts ps values := by
  constructor
  · rintro ⟨bound, h⟩
    induction h with
    | done => exact accepts_nil_nil
    | one single typed more ih => exact (accepts_one single).mpr ⟨typed, ih⟩
    | absent optional more ih => exact (accepts_absent optional).mpr ih
    | rest variadic typed more ih => exact (accepts_variadic variadic).mpr ⟨typed, ih⟩
  · intro h
    induction ps generalizing values with
    | nil =>
      cases values with
      | nil => exact ⟨_, .done⟩
      | cons v vs => exact absurd h not_accepts_nil_cons
    | cons p ps ih =>
      by_cases hp : p.arity = .variadic
      · obtain ⟨htyped, hmore⟩ := (accepts_variadic hp).mp h
        obtain ⟨bound, hbound⟩ := ih hmore
        exact ⟨_, .rest hp htyped hbound⟩
      · cases values with
        | nil =>
          have hoptional : p.arity = .optional := by
            cases hkind : p.arity with
            | required => exact absurd hkind (accepts_nil.mp h p List.mem_cons_self)
            | optional => rfl
            | variadic => exact absurd hkind hp
          obtain ⟨bound, hbound⟩ := ih ((accepts_absent hoptional).mp h)
          exact ⟨_, .absent hoptional hbound⟩
        | cons v vs =>
          obtain ⟨htyped, hmore⟩ := (accepts_one hp).mp h
          obtain ⟨bound, hbound⟩ := ih hmore
          exact ⟨_, .one hp htyped hbound⟩

/-! ### Binding -/

theorem bindTo?_variadic (hp : p.arity = .variadic) : bindTo? (p :: ps) values = some bound ↔
    (∀ v ∈ values, p.type.accepts v = true) ∧ ∃ more, bindTo? ps [] = some more ∧
      (p.name, .list values) :: more = bound := by
  conv_lhs => unfold bindTo?
  rw [hp]
  simp [Option.bind_eq_some_iff, Option.guard_eq_some']

theorem bindTo?_one (hp : p.arity ≠ .variadic) : bindTo? (p :: ps) (v :: vs) = some bound ↔
    p.type.accepts v = true ∧ ∃ more, bindTo? ps vs = some more ∧ (p.name, v) :: more = bound := by
  conv_lhs => unfold bindTo?
  cases hkind : p.arity with
  | variadic => exact absurd hkind hp
  | required | optional => simp [Option.bind_eq_some_iff, Option.guard_eq_some']

/-- Arguments are bound exactly as the parameters say. -/
theorem bindTo?_eq_some : bindTo? ps values = some bound ↔ Binds ps values bound := by
  induction ps generalizing values bound with
  | nil =>
    cases values with
    | nil =>
      constructor
      · rintro ⟨⟩
        exact .done
      · rintro ⟨⟩
        rfl
    | cons v vs => exact ⟨nofun, nofun⟩
  | cons p ps ih =>
    by_cases hp : p.arity = .variadic
    · rw [bindTo?_variadic hp]
      constructor
      · rintro ⟨htyped, more, hmore, rfl⟩
        exact .rest hp htyped (ih.mp hmore)
      · intro h
        cases h with
        | one single => exact absurd hp single
        | absent optional =>
          rw [hp] at optional
          cases optional
        | rest variadic typed more => exact ⟨typed, _, ih.mpr more, rfl⟩
    · cases values with
      | cons v vs =>
        rw [bindTo?_one hp]
        constructor
        · rintro ⟨htyped, more, hmore, rfl⟩
          exact .one hp htyped (ih.mp hmore)
        · intro h
          cases h with
          | one single typed more => exact ⟨typed, _, ih.mpr more, rfl⟩
          | rest variadic => exact absurd variadic hp
      | nil =>
        constructor
        · intro h
          unfold bindTo? at h
          cases hkind : p.arity with
          | variadic => exact absurd hkind hp
          | required =>
            rw [hkind] at h
            cases h
          | optional =>
            rw [hkind] at h
            exact .absent hkind (ih.mp h)
        · intro h
          cases h with
          | absent optional more =>
            unfold bindTo?
            rw [optional]
            exact ih.mpr more
          | rest variadic => exact absurd variadic hp

theorem bindTo?_eq_none : bindTo? ps values = none ↔ ¬ Accepts ps values := by
  rw [← exists_binds, Option.eq_none_iff_forall_ne_some, not_exists]
  exact forall_congr' fun bound => not_congr bindTo?_eq_some

/-- Arguments bound to the parameters of the first constructor that accepts them. -/
def FirstBinds (s : Shape) (values : List Constant) (bound : List (String × Constant)) : Prop :=
  ∃ before ps after, s.constructors = before ++ ps :: after ∧ (∀ earlier ∈ before, ¬ Accepts earlier values) ∧
    Binds ps values bound

/-- Arguments are bound to the first constructor that accepts them. -/
theorem bindPositional?_eq_some : s.bindPositional? values = some bound ↔ s.FirstBinds values bound := by
  unfold bindPositional? FirstBinds
  rw [List.findSome?_eq_some_iff]
  simp only [bindTo?_eq_some, bindTo?_eq_none]
  constructor
  · rintro ⟨before, ps, after, hsplit, hbound, hbefore⟩
    exact ⟨before, ps, after, hsplit, hbefore, hbound⟩
  · rintro ⟨before, ps, after, hsplit, hbefore, hbound⟩
    exact ⟨before, ps, after, hsplit, hbound, hbefore⟩

/-- Arguments are not bound exactly if no constructor accepts them. -/
theorem bindPositional?_eq_none :
    s.bindPositional? values = none ↔ ∀ ps ∈ s.constructors, ¬ Accepts ps values := by
  unfold bindPositional?
  rw [List.findSome?_eq_none_iff]
  exact forall₂_congr fun ps _ => bindTo?_eq_none

/-- The mode of caching is no source, so the second constructor is the first that accepts it. -/
example : AnnotationKind.derived.shape.bindPositional? [.path ["CacheMode", "Disabled"], .string "Width"] =
    some [("CacheMode", .path ["CacheMode", "Disabled"]), ("Sources", .list [.string "Width"])] := by
  rfl

/-! ### How many arguments are accepted -/

theorem slot?_of_single (h : ∀ p ∈ ps, p.arity ≠ .variadic) (i : Nat) : slot? ps i = ps[i]? := by
  induction ps generalizing i with
  | nil => rfl
  | cons p ps ih =>
    obtain ⟨hp, hps⟩ := List.forall_mem_cons.mp h
    cases i with
    | zero => simp [slot?, hp]
    | succ i =>
      rw [List.getElem?_cons_succ, ← ih hps i]
      simp [slot?, hp]

theorem Accepts.length_le (h : Accepts ps values) (hps : ∀ p ∈ ps, p.arity ≠ .variadic) :
    values.length ≤ ps.length := by
  by_contra hlong
  have hlt : ps.length < values.length := Nat.lt_of_not_le hlong
  obtain ⟨p, hp, -⟩ := h.typed ps.length values[ps.length] (List.getElem?_eq_getElem hlt)
  rw [slot?_of_single hps, List.getElem?_eq_none (Nat.le_refl _)] at hp
  cases hp

theorem le_foldl_max {ns : List Nat} {m : Nat} : m ≤ ns.foldl max m ∧ ∀ n ∈ ns, n ≤ ns.foldl max m := by
  induction ns generalizing m with
  | nil => exact ⟨Nat.le_refl m, nofun⟩
  | cons n ns ih =>
    obtain ⟨hfirst, hmore⟩ := ih (m := max m n)
    refine ⟨Nat.le_trans (Nat.le_max_left m n) hfirst, List.forall_mem_cons.mpr ⟨?_, hmore⟩⟩
    exact Nat.le_trans (Nat.le_max_right m n) hfirst

/-- A constructor that accepts arguments accepts no more than are allowed. -/
theorem length_le_of_maxPositional? {most : Nat} (hmost : s.maxPositional? = some most) (hps : ps ∈ s.constructors)
    (h : Accepts ps values) : values.length ≤ most := by
  unfold maxPositional? at hmost
  split at hmost
  · cases hmost
  · rename_i hsingle
    cases hmost
    have hnone : ∀ p ∈ ps, p.arity ≠ .variadic := by
      intro p hp hvariadic
      exact hsingle (List.any_eq_true.mpr ⟨ps, hps, List.any_eq_true.mpr ⟨p, hp, decide_eq_true hvariadic⟩⟩)
    exact Nat.le_trans (h.length_le hnone) (le_foldl_max.2 _ (List.mem_map_of_mem hps))

end Shape

end Reactive
