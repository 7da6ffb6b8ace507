import Reactive.Proofs.Loading

/-!
# Reactive.Proofs.Baseline — what is there of a class that is compiled from its declaration

* `MemberDecl.bodyNames`: the bodies that a declared member is compiled to.
* `ClassImage.Mirrors`: the class has exactly the bodies, the properties and the initial values of its members, and no
  field but those of automatic properties.
* `mirrors_baseline`: a class that is compiled from its declaration is like that.
-/

namespace Reactive

namespace MemberDecl

/-- The names of the bodies that a member is compiled to. -/
def bodyNames (m : MemberDecl) : List String :=
  match m.kind with
  | .property p =>
    (p.getter.map fun _ => Naming.getter m.name).toList ++ (p.setter.map fun _ => Naming.setter m.name).toList
  | .method d => (d.body.map fun _ => m.name).toList

/-- The name of the member, if it is a property with an initial value. -/
def initialized? (m : MemberDecl) : Option String := (m.property?.bind (·.initializer)).map fun _ => m.name

end MemberDecl

namespace ClassImage

/-- What there is of a class, some members of which have been compiled. -/
structure Mirrors (d : ClassDecl) (members : List MemberDecl) (c : ClassImage) : Prop where
  name : c.name = d.name
  fields : ∀ f ∈ c.fields, ∃ property, f.1 = Naming.autoField property
  properties : ∀ n, c.properties.has n = true ↔ n ∈ propertyNames members
  known : ∀ n, c.Known n ↔ n ∈ members.flatMap MemberDecl.bodyNames
  externs : ∀ m ∈ members, ∀ decl, m.kind = .method decl → decl.body = none → m.name ∈ c.externs
  getters : ∀ n p, c.properties.find? n = some p → ∃ m ∈ members, m.name = n ∧ ∃ decl, m.kind = .property decl ∧
    p.getter = decl.getter.map fun _ => Naming.getter n
  initialized : c.initializers.map Initializer.property = members.filterMap MemberDecl.initialized?
  targets : ∀ i ∈ c.initializers, i.target = .field (Naming.autoField i.property)

variable {c c' : ClassImage}

/-- A declared body is there afterwards, and nothing else is. -/
theorem define_eq_ok {name : String} {params : List String} {body : Expr} (h : c.define name params body = .ok c') :
    ∃ methods opaqueBodies, c' = { c with methods, opaqueBodies } ∧ ∀ n, c'.Known n ↔ n = name ∨ c.Known n := by
  unfold define at h
  split at h
  · rename_i m hm
    cases h
    refine ⟨_, _, rfl, fun n => ?_⟩
    rw [known_putMethod, name_ofBody hm]
  · rename_i reason _
    cases h
    refine ⟨_, _, rfl, fun n => ?_⟩
    unfold Known
    simp only [Table.has, Table.find?_put]
    by_cases hn : n = name <;> simp [hn]
  · cases h

theorem defineGetter_eq_ok {name : String} {p : PropertyDecl} (h : c.defineGetter name p = .ok c') :
    ∃ fields methods opaqueBodies, c' = { c with fields := c.fields ++ fields, methods, opaqueBodies } ∧
      (∀ f ∈ fields, ∃ property, f.1 = Naming.autoField property) ∧
        ∀ n, c'.Known n ↔ n ∈ (p.getter.map fun _ => Naming.getter name).toList ∨ c.Known n := by
  unfold defineGetter at h
  split at h
  · rename_i hgetter
    cases h
    refine ⟨[], c.methods, c.opaqueBodies, ?_, nofun, fun n => ?_⟩
    · rw [List.append_nil]
    · rw [hgetter]
      simp
  · rename_i body span hgetter
    obtain ⟨methods, opaqueBodies, rfl, hknown⟩ := define_eq_ok h
    refine ⟨[], methods, opaqueBodies, ?_, nofun, fun n => ?_⟩
    · rw [List.append_nil]
    · rw [hknown, hgetter]
      simp
  · rename_i span hgetter
    cases h
    refine ⟨[(Naming.autoField name, p.type.text)], _, _, rfl, ?_, fun n => ?_⟩
    · exact List.forall_mem_singleton.mpr ⟨name, rfl⟩
    · rw [known_putMethod, hgetter]
      simp [fieldGetter, Known]

theorem defineInitializer_eq_ok {name : String} {p : PropertyDecl} (h : c.defineInitializer name p = .ok c') :
    ∃ is, c' = { c with initializers := c.initializers ++ is } ∧
      is.map Initializer.property = (p.initializer.map fun _ => name).toList ∧
        ∀ i ∈ is, i.target = .field (Naming.autoField i.property) := by
  unfold defineInitializer at h
  split at h
  · rename_i hinitializer
    cases h
    refine ⟨[], ?_, ?_, nofun⟩
    · rw [List.append_nil]
    · rw [hinitializer]
      rfl
  · rename_i body hinitializer
    split at h
    · cases h
      refine ⟨[_], rfl, ?_, List.forall_mem_singleton.mpr rfl⟩
      rw [hinitializer]
      rfl
    · cases h

/-- One more property. -/
theorem Mirrors.property {d : ClassDecl} {members : List MemberDecl} {m : MemberDecl} {p : PropertyDecl}
    (h : c.Mirrors d members) (hp : m.kind = .property p) (hdefine : c.defineProperty m.name p = .ok c') :
    c'.Mirrors d (members ++ [m]) := by
  unfold defineProperty at hdefine
  cases hgetter : c.defineGetter m.name p with
  | error e =>
    rw [hgetter] at hdefine
    cases hdefine
  | ok c₁ =>
    rw [hgetter] at hdefine
    obtain ⟨fields, methods, opaqueBodies, rfl, hfields, hknown⟩ := defineGetter_eq_ok hgetter
    obtain ⟨c₂, hc₂, methods₂, rfl, hknown₂⟩ : ∃ c₂, (if p.setter.isSome then
        putMethod { c with fields := c.fields ++ fields, methods, opaqueBodies }
          (fieldSetter m.name (Naming.autoField m.name))
        else { c with fields := c.fields ++ fields, methods, opaqueBodies }) = c₂ ∧ ∃ methods₂,
          c₂ = { c with fields := c.fields ++ fields, methods := methods₂, opaqueBodies } ∧
            ∀ n, c₂.Known n ↔ n ∈ m.bodyNames ∨ c.Known n := by
      cases hset : p.setter with
      | some accessor =>
        refine ⟨_, if_pos rfl, _, rfl, fun n => ?_⟩
        rw [known_putMethod, hknown, MemberDecl.bodyNames, hp]
        simp [hset, fieldSetter, or_left_comm, or_assoc]
      | none =>
        refine ⟨_, if_neg Bool.false_ne_true, _, rfl, fun n => ?_⟩
        rw [hknown, MemberDecl.bodyNames, hp]
        simp [hset]
    dsimp only [bind, Except.bind] at hdefine
    rw [hc₂] at hdefine
    cases hinitializer : defineInitializer
        { c with fields := c.fields ++ fields, methods := methods₂, opaqueBodies } m.name p with
    | error e =>
      rw [hinitializer] at hdefine
      cases hdefine
    | ok c₃ =>
      rw [hinitializer] at hdefine
      obtain ⟨is, rfl, hproperties, htargets⟩ := defineInitializer_eq_ok hinitializer
      cases hdefine
      refine ⟨h.name, fun f hf => ?_, fun n => ?_, fun n => ?_, fun m' hm' decl hdecl hbody => ?_, fun n q hq => ?_, ?_,
        fun i hi => ?_⟩
      · obtain hf | hf := List.mem_append.mp hf
        · exact h.fields f hf
        · exact hfields f hf
      · have hold := h.properties n
        have hproperty : m.property? = some p := MemberDecl.property?_eq_some.mpr hp
        rw [Table.has] at hold ⊢
        rw [Table.find?_put]
        by_cases hn : n = m.name <;> simp [hn, hold, propertyNames, hproperty]
      · refine Iff.trans (hknown₂ n) ?_
        rw [h.known]
        simp [or_comm]
      · obtain hm' | hm' := List.mem_append.mp hm'
        · exact h.externs m' hm' decl hdecl hbody
        · rw [List.mem_singleton.mp hm', hp] at hdecl
          cases hdecl
      · rw [Table.find?_put] at hq
        split at hq
        · rename_i hn
          cases hq
          exact ⟨m, List.mem_append_right _ (List.mem_singleton_self m), hn.symm, p, hp, hn ▸ rfl⟩
        · obtain ⟨m', hm', hdeclared⟩ := h.getters n q hq
          exact ⟨m', List.mem_append_left _ hm', hdeclared⟩
      · show (c.initializers ++ is).map _ = _
        have hproperty : m.property? = some p := MemberDecl.property?_eq_some.mpr hp
        rw [List.map_append, h.initialized, hproperties]
        cases hinit : p.initializer <;> simp [MemberDecl.initialized?, hproperty, hinit]
      · obtain hi | hi := List.mem_append.mp hi
        · exact h.targets i hi
        · exact htargets i hi

/-- One more member. -/
theorem Mirrors.member {d : ClassDecl} {members : List MemberDecl} {m : MemberDecl} (h : c.Mirrors d members)
    (hdefine : c.defineMember m = .ok c') : c'.Mirrors d (members ++ [m]) := by
  unfold defineMember at hdefine
  split at hdefine
  · rename_i p hp
    exact h.property hp hdefine
  · rename_i type params body hkind
    obtain ⟨methods, opaqueBodies, rfl, hknown⟩ := define_eq_ok hdefine
    refine ⟨h.name, h.fields, fun n => ?_, fun n => ?_, fun m' hm' decl hdecl hbody => ?_, fun n q hq => ?_, ?_, h.targets⟩
    · simp [h.properties, propertyNames, MemberDecl.property?, hkind]
    · rw [hknown, h.known]
      simp [MemberDecl.bodyNames, hkind, or_comm]
    · obtain hm' | hm' := List.mem_append.mp hm'
      · exact h.externs m' hm' decl hdecl hbody
      · rw [List.mem_singleton.mp hm', hkind] at hdecl
        cases hdecl
        cases hbody
    · obtain ⟨m', hm', hdeclared⟩ := h.getters n q hq
      exact ⟨m', List.mem_append_left _ hm', hdeclared⟩
    · simp [h.initialized, MemberDecl.initialized?, MemberDecl.property?, hkind]
  · rename_i type params hkind
    cases hdefine
    refine ⟨h.name, h.fields, fun n => ?_, fun n => ?_, fun m' hm' decl hdecl hbody => ?_, fun n q hq => ?_, ?_, h.targets⟩
    · simp [h.properties, propertyNames, MemberDecl.property?, hkind]
    · show c.Known n ↔ _
      rw [h.known]
      simp [MemberDecl.bodyNames, hkind]
    · have hold (n : String) (hn : n ∈ c.externs) :
          n ∈ if c.externs.contains m.name then c.externs else c.externs ++ [m.name] := by
        split
        · exact hn
        · exact List.mem_append_left _ hn
      obtain hm' | hm' := List.mem_append.mp hm'
      · exact hold _ (h.externs m' hm' decl hdecl hbody)
      · rw [List.mem_singleton.mp hm']
        show m.name ∈ if c.externs.contains m.name then c.externs else c.externs ++ [m.name]
        split
        · exact List.contains_iff_mem.mp ‹_›
        · exact List.mem_append_right _ (List.mem_singleton_self _)
    · obtain ⟨m', hm', hdeclared⟩ := h.getters n q hq
      exact ⟨m', List.mem_append_left _ hm', hdeclared⟩
    · simp [h.initialized, MemberDecl.initialized?, MemberDecl.property?, hkind]

theorem Mirrors.foldlM {d : ClassDecl} : ∀ {ms members : List MemberDecl} {c c' : ClassImage}, c.Mirrors d members →
    ms.foldlM defineMember c = .ok c' → c'.Mirrors d (members ++ ms)
  | [], members, c, c', h, hfold => by
    cases hfold
    rwa [List.append_nil]
  | m :: ms, members, c, c', h, hfold => by
    rw [List.foldlM_cons] at hfold
    cases hdefine : c.defineMember m with
    | error e =>
      rw [hdefine] at hfold
      cases hfold
    | ok c₁ =>
      rw [hdefine] at hfold
      have hrest := (h.member hdefine).foldlM hfold
      rwa [List.append_assoc] at hrest

/-- A class that is compiled from its declaration has what its members declare, and nothing else. -/
theorem mirrors_baseline {d : ClassDecl} {conventions : Conventions} (h : baseline d conventions = .ok c) :
    c.Mirrors d d.members := by
  have hbare : (bare d.name (d.derivesFrom conventions.extensibleBase) conventions.initMethod).Mirrors d [] := by
    refine ⟨rfl, nofun, fun n => ?_, fun n => ?_, nofun, nofun, rfl, nofun⟩
    · constructor <;> nofun
    · constructor
      · rintro (h | h) <;> cases h
      · nofun
  exact hbare.foldlM h

/-! ### The init method -/

theorem initMethod_defineProperty {name : String} {p : PropertyDecl} (h : c.defineProperty name p = .ok c') :
    c'.initMethod = c.initMethod := by
  unfold defineProperty at h
  cases hgetter : c.defineGetter name p with
  | error e =>
    rw [hgetter] at h
    cases h
  | ok c₁ =>
    rw [hgetter] at h
    obtain ⟨fields, methods, opaqueBodies, rfl, -, -⟩ := defineGetter_eq_ok hgetter
    dsimp only [bind, Except.bind] at h
    split at h
    · cases h
    · rename_i c₂ hinitializer
      obtain ⟨is, rfl, -, -⟩ := defineInitializer_eq_ok hinitializer
      cases h
      show (if _ then _ else _ : ClassImage).initMethod = _
      split <;> rfl

theorem initMethod_defineMember {m : MemberDecl} (h : c.defineMember m = .ok c') : c'.initMethod = c.initMethod := by
  unfold defineMember at h
  split at h
  · exact initMethod_defineProperty h
  · obtain ⟨methods, opaqueBodies, rfl, -⟩ := define_eq_ok h
    rfl
  · cases h
    rfl

/-- Members leave the name of the init method as it is. -/
theorem initMethod_foldlM : ∀ {ms : List MemberDecl} {c c' : ClassImage}, ms.foldlM defineMember c = .ok c' →
    c'.initMethod = c.initMethod
  | [], c, c', h => by
    cases h
    rfl
  | m :: ms, c, c', h => by
    rw [List.foldlM_cons] at h
    cases hdefine : c.defineMember m with
    | error e =>
      rw [hdefine] at h
      cases h
    | ok c₁ =>
      rw [hdefine] at h
      exact (initMethod_foldlM h).trans (initMethod_defineMember hdefine)

end ClassImage

end Reactive
