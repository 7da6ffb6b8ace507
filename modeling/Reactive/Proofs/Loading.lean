import Reactive.Machine.Image
import Reactive.Proofs.Analyzing
import Reactive.Proofs.Methods

/-!
# Reactive.Proofs.Loading — where the methods of a loaded class come from

* `ClassDecl.HasBody`: the declared bodies; `ClassDecl.Defines`: the methods that are compiled from a declaration.
* `ClassImage.Baseline`: what a class is like that is compiled from its declaration.
* `ClassImage.Patched`: what it is like after some edits: a method is the one of the last edit of its name, or is
  compiled from the declaration.
-/

namespace Reactive

open Stateful

/-! ### Methods of bodies -/

/-- Which argument a name stands for. -/
def Scope.index (scope : Scope) (name : String) : Option Nat := (scope.param? name).map UInt16.toNat

/-- The stages of the method of a body. -/
theorem ofBody_eq_ok {name : String} {scope : Scope} {body : Expr} {method : CompiledMethod}
    (h : CompiledMethod.ofBody name scope body = .ok method) :
    ∃ b, Build.expression scope body (.start name (UInt16.ofNat scope.params.length)) = .ok () b ∧
      (b.push .ret).build = .ok method := by
  unfold CompiledMethod.ofBody at h
  cases hbody : Build.expression scope body (.start name (UInt16.ofNat scope.params.length)) with
  | error e b =>
    rw [hbody] at h
    cases h
  | ok _ b =>
    rw [hbody] at h
    exact ⟨b, rfl, h⟩

theorem name_ofBody {name : String} {scope : Scope} {body : Expr} {method : CompiledMethod}
    (h : CompiledMethod.ofBody name scope body = .ok method) : method.name = name := by
  obtain ⟨b, hbody, hbuild⟩ := ofBody_eq_ok h
  exact (MethodBuilder.build_eq_ok hbuild).1.trans (Build.grows_expression body hbody).name

namespace Run

open MethodBuilder

/-- The method of a body is built of the instructions of the body and a return. -/
theorem built_ofBody {name : String} {scope : Scope} {body : Expr} {method : CompiledMethod}
    (h : CompiledMethod.ofBody name scope body = .ok method) (hsize : method.code.length < UInt64.size) :
    ∃ b, Build.expression scope body (.start name (UInt16.ofNat scope.params.length)) = .ok () b ∧
      Built (b.push .ret) method := by
  obtain ⟨b, hbody, hbuild⟩ := ofBody_eq_ok h
  have hpaid : (b.push .ret).labels.length + 0 ≤ 0 + (b.push .ret).code.length :=
    ((Build.grows_expression body hbody).trans (grows_push b .ret)).paid
  have hlength := length_of_build hbuild
  exact ⟨b, hbody, hbuild, by omega, by omega⟩

/-- The method of a body gives the value of the body. -/
theorem simulates_ofBody {enter : Enter} {a : Activation} {name : String} {scope : Scope} {body : Expr}
    (h : CompiledMethod.ofBody name scope body = .ok a.method) (hsize : a.method.code.length < UInt64.size) :
    Simulates enter a (.start a.method) (evaluate enter a scope.index body) .returned := by
  obtain ⟨b, hbody, hbuilt⟩ := built_ofBody h hsize
  have hlocals : (b.push .ret).locals.length ≤ 0 := ((Build.grows_expression body hbody).trans (grows_push b .ret)).few
  have hstart : Frame.start a.method = ⟨0, [], []⟩ := by
    rw [Frame.start, (build_eq_ok hbuilt.build).2.2.1, Nat.le_zero.mp hlocals]
    rfl
  rw [hstart]
  have hrun : Simulates enter a _ (evaluate enter a scope.index body) _ :=
    computes_expression hbuilt (fun _ => rfl) body hbody (grows_push b .ret).extends [] []
  refine hrun.bind (y := pure) ?_ (fun _ _ hgo => by cases hgo) |> fun h => by rwa [bind_pure] at h
  rintro v f' - ⟨⟩
  exact .return_ (fetched hbuilt.build (Extends.refl _) rfl) rfl v rfl

end Run

namespace Table

variable {α : Type}

theorem find?_put (t : Table α) (name other : String) (a : α) :
    (t.put name a).find? other = if other = name then some a else t.find? other := by
  by_cases h : other = name
  · rw [if_pos h, h, find?_put_self]
  · rw [if_neg h, find?_put_of_ne t a h]

theorem mem_of_find? {t : Table α} {name : String} {a : α} (h : t.find? name = some a) : (name, a) ∈ t := by
  obtain ⟨before, behind, rfl, -⟩ := List.lookup_eq_some_iff.mp h
  exact List.mem_append_right _ List.mem_cons_self

theorem find?_drop (t : Table α) (name other : String) :
    (t.drop name).find? other = if other = name then none else t.find? other := by
  induction t with
  | nil =>
    show (none : Option α) = _
    split <;> rfl
  | cons e t ih =>
    obtain ⟨n, a⟩ := e
    unfold drop at ih ⊢
    by_cases hn : n = name
    · subst hn
      rw [List.filter_cons_of_neg (by simp), ih]
      by_cases h : other = n
      · rw [if_pos h, if_pos h]
      · rw [if_neg h, if_neg h, find?, find?, List.lookup_cons, beq_false_of_ne h]
    · rw [List.filter_cons_of_pos (by simp [hn])]
      by_cases h : other = n
      · subst h
        rw [if_neg hn]
        simp [find?]
      · have hstep (u : Table α) : find? ((n, a) :: u) other = find? u other := by
          rw [find?, find?, List.lookup_cons, beq_false_of_ne h]
        rw [hstep, hstep, ih]

theorem has_iff {t : Table α} {name : String} : t.has name = true ↔ ∃ a, t.find? name = some a := Option.isSome_iff_exists

end Table

theorem filterMap_cons_toList {α β : Type} (f : α → Option β) (x : α) (xs : List α) :
    (x :: xs).filterMap f = (f x).toList ++ xs.filterMap f := by
  rw [List.filterMap_cons]
  cases f x <;> rfl

/-! ### Classes as they are declared -/

namespace ClassDecl

/-- A declared body, with the name and the parameters of its method. -/
inductive HasBody (d : ClassDecl) : String → List String → Expr → Prop
  | getter {property : String} {body : Expr} (declared : d.HasGetter property body) :
    HasBody d (Naming.getter property) [] body
  | method {m : MemberDecl} {decl : MethodDecl} {body : Expr} (mem : m ∈ d.members) (kind : m.kind = .method decl)
    (written : decl.body = some body) : HasBody d m.name (decl.params.map Param.name) body

/-- A method is compiled from a declaration. -/
inductive Defines (d : ClassDecl) : CompiledMethod → Prop
  | body {name : String} {params : List String} {body : Expr} {m : CompiledMethod}
    (declared : d.HasBody name params body) (compiled : CompiledMethod.ofBody name (.ofInstance params) body = .ok m) :
    Defines d m
  | autoGetter (property : String) : Defines d (ClassImage.fieldGetter property (Naming.autoField property))
  | autoSetter (property : String) : Defines d (ClassImage.fieldSetter property (Naming.autoField property))

end ClassDecl

/-- The name of the field that an edit adds. -/
def PatchEdit.field? : PatchEdit → Option String
  | .addField name _ _ => some name
  | _ => none

namespace ClassImage

/-- The class has a body of the name, be it opaque. -/
def Known (c : ClassImage) (name : String) : Prop := c.methods.has name = true ∨ c.opaqueBodies.has name = true

/-- The accessors of a property have the names that belong to the property, and the class has bodies of these names. -/
structure Accesses (c : ClassImage) (property : String) (p : PropertyDef) : Prop where
  getter : ∀ g, p.getter = some g → g = Naming.getter property ∧ c.Known g
  setter : ∀ s, p.setter = some s → s = Naming.setter property ∧ c.Known s

/-- What a class is like that is compiled from its declaration. -/
structure Baseline (d : ClassDecl) (c : ClassImage) : Prop where
  methods : ∀ n m, c.methods.find? n = some m → d.Defines m ∧ m.name = n
  properties : ∀ n p, c.properties.find? n = some p → c.Accesses n p
  statics : c.statics = []

/-- A class with more bodies. -/
def Wider (c c' : ClassImage) : Prop := ∀ n, c.Known n → c'.Known n

theorem Accesses.wider {c c' : ClassImage} {property : String} {p : PropertyDef} (h : c.Accesses property p)
    (hwider : c.Wider c') : c'.Accesses property p :=
  ⟨fun g hg => ⟨(h.getter g hg).1, hwider g (h.getter g hg).2⟩,
    fun s hs => ⟨(h.setter s hs).1, hwider s (h.setter s hs).2⟩⟩

theorem known_putMethod {c : ClassImage} {m : CompiledMethod} {n : String} :
    (c.putMethod m).Known n ↔ n = m.name ∨ c.Known n := by
  unfold Known putMethod
  simp only [Table.has, Table.find?_put]
  by_cases h : n = m.name <;> simp [h]

theorem wider_putMethod (c : ClassImage) (m : CompiledMethod) : c.Wider (c.putMethod m) :=
  fun _ h => known_putMethod.mpr (Or.inr h)

variable {d : ClassDecl}

/-- Fields, initial values and methods without a body do not matter. -/
theorem Baseline.congr {c c' : ClassImage} (h : Baseline d c) (methods : c'.methods = c.methods)
    (opaqueBodies : c'.opaqueBodies = c.opaqueBodies) (properties : c'.properties = c.properties)
    (statics : c'.statics = c.statics) : Baseline d c' := by
  have hwider : c.Wider c' := fun n hn => by
    unfold Known
    rwa [methods, opaqueBodies]
  exact ⟨methods ▸ h.methods, fun n p hp => (h.properties n p (properties ▸ hp)).wider hwider, statics ▸ h.statics⟩

/-- A compiled method in place of any of its name. -/
theorem Baseline.putMethod {c : ClassImage} (h : Baseline d c) {m : CompiledMethod} (hm : d.Defines m) :
    Baseline d (c.putMethod m) := by
  refine ⟨fun n m' hfind => ?_, fun n p hp => (h.properties n p hp).wider (wider_putMethod c m), h.statics⟩
  have hput : (c.methods.put m.name m).find? n = some m' := hfind
  rw [Table.find?_put] at hput
  split at hput
  · rename_i heq
    cases hput
    exact ⟨hm, heq.symm⟩
  · exact h.methods n m' hput

/-- A declared body becomes a method, or stays opaque. -/
theorem Baseline.define {c c' : ClassImage} (h : Baseline d c) {name : String} {params : List String} {body : Expr}
    (hbody : d.HasBody name params body) (hdefine : c.define name params body = .ok c') :
    Baseline d c' ∧ c.Wider c' ∧ c'.Known name := by
  unfold ClassImage.define at hdefine
  split at hdefine
  · rename_i m hm
    cases hdefine
    exact ⟨h.putMethod (.body hbody hm), wider_putMethod c m, known_putMethod.mpr (Or.inl (name_ofBody hm).symm)⟩
  · rename_i reason hm
    cases hdefine
    have hwider : c.Wider { c with opaqueBodies := c.opaqueBodies.put name reason } := fun n hn => by
      refine hn.imp id fun hopaque => ?_
      show ((c.opaqueBodies.put name reason).find? n).isSome = true
      rw [Table.find?_put]
      split
      · rfl
      · exact hopaque
    refine ⟨⟨h.methods, fun n p hp => (h.properties n p hp).wider hwider, h.statics⟩, hwider, Or.inr ?_⟩
    show ((c.opaqueBodies.put name reason).find? name).isSome = true
    rw [Table.find?_put_self]
    rfl
  · cases hdefine

theorem Baseline.defineGetter {c c' : ClassImage} (h : Baseline d c) {m : MemberDecl} {p : PropertyDecl}
    (hm : m ∈ d.members) (hp : m.kind = .property p) (hdefine : c.defineGetter m.name p = .ok c') :
    Baseline d c' ∧ c.Wider c' ∧ (p.getter.isSome → c'.Known (Naming.getter m.name)) := by
  unfold ClassImage.defineGetter at hdefine
  split at hdefine
  · rename_i hnone
    cases hdefine
    exact ⟨h, fun _ => id, fun hsome => by rw [hnone] at hsome; cases hsome⟩
  · rename_i body span hgetter
    have hbody : p.getterBody? = some body := by
      rw [PropertyDecl.getterBody?, hgetter]
      rfl
    obtain ⟨hbase, hwider, hknown⟩ := h.define (.getter ⟨m, hm, rfl, p, hp, hbody⟩) hdefine
    exact ⟨hbase, hwider, fun _ => hknown⟩
  · cases hdefine
    have hfields : Baseline d { c with fields := c.fields ++ [(Naming.autoField m.name, p.type.text)] } :=
      h.congr rfl rfl rfl rfl
    exact ⟨hfields.putMethod (.autoGetter m.name), wider_putMethod _ _, fun _ => known_putMethod.mpr (Or.inl rfl)⟩

theorem Baseline.defineInitializer {c c' : ClassImage} (h : Baseline d c) {name : String} {p : PropertyDecl}
    (hdefine : c.defineInitializer name p = .ok c') : Baseline d c' ∧ c.Wider c' := by
  unfold ClassImage.defineInitializer at hdefine
  split at hdefine
  · cases hdefine
    exact ⟨h, fun _ => id⟩
  · split at hdefine
    · cases hdefine
      exact ⟨h.congr rfl rfl rfl rfl, fun _ => id⟩
    · cases hdefine

theorem Baseline.defineProperty {c c' : ClassImage} (h : Baseline d c) {m : MemberDecl} {p : PropertyDecl}
    (hm : m ∈ d.members) (hp : m.kind = .property p) (hdefine : c.defineProperty m.name p = .ok c') :
    Baseline d c' ∧ c.Wider c' := by
  unfold ClassImage.defineProperty at hdefine
  cases hgetter : c.defineGetter m.name p with
  | error e =>
    rw [hgetter] at hdefine
    cases hdefine
  | ok c₁ =>
    rw [hgetter] at hdefine
    obtain ⟨h₁, hw₁, hk₁⟩ := h.defineGetter hm hp hgetter
    obtain ⟨c₂, hc₂, h₂, hw₂, hk₂⟩ : ∃ c₂, (if p.setter.isSome then
        c₁.putMethod (fieldSetter m.name (Naming.autoField m.name)) else c₁) = c₂ ∧ Baseline d c₂ ∧ c₁.Wider c₂ ∧
          (p.setter.isSome → c₂.Known (Naming.setter m.name)) := by
      by_cases hset : p.setter.isSome
      · exact ⟨_, if_pos hset, h₁.putMethod (.autoSetter m.name), wider_putMethod _ _,
          fun _ => known_putMethod.mpr (Or.inl rfl)⟩
      · exact ⟨_, if_neg hset, h₁, fun _ => id, fun hsome => absurd hsome hset⟩
    dsimp only [bind, Except.bind] at hdefine
    rw [hc₂] at hdefine
    cases hinit : c₂.defineInitializer m.name p with
    | error e =>
      rw [hinit] at hdefine
      cases hdefine
    | ok c₃ =>
      rw [hinit] at hdefine
      obtain ⟨h₃, hw₃⟩ := h₂.defineInitializer hinit
      cases hdefine
      refine ⟨⟨h₃.methods, fun n q hq => ?_, h₃.statics⟩, fun n hn => hw₃ n (hw₂ n (hw₁ n hn))⟩
      have hput : (c₃.properties.put m.name _).find? n = some q := hq
      rw [Table.find?_put] at hput
      split at hput
      · rename_i heq
        subst heq
        cases hput
        refine ⟨fun g hg => ?_, fun s hs => ?_⟩
        · obtain ⟨a, ha, rfl⟩ := Option.map_eq_some_iff.mp hg
          exact ⟨rfl, hw₃ _ (hw₂ _ (hk₁ (by rw [ha]; rfl)))⟩
        · obtain ⟨a, ha, rfl⟩ := Option.map_eq_some_iff.mp hs
          exact ⟨rfl, hw₃ _ (hk₂ (by rw [ha]; rfl))⟩
      · exact (h₃.properties n q hput).wider fun _ => id

theorem Baseline.defineMember {c c' : ClassImage} (h : Baseline d c) {m : MemberDecl} (hm : m ∈ d.members)
    (hdefine : c.defineMember m = .ok c') : Baseline d c' ∧ c.Wider c' ∧
      ∀ decl, m.kind = .method decl → decl.body.isSome → c'.Known m.name := by
  unfold ClassImage.defineMember at hdefine
  split at hdefine
  · rename_i p hp
    obtain ⟨hbase, hwider⟩ := h.defineProperty hm hp hdefine
    exact ⟨hbase, hwider, fun decl hdecl => by rw [hp] at hdecl; cases hdecl⟩
  · rename_i type params body hkind
    obtain ⟨hbase, hwider, hknown⟩ := h.define (.method hm hkind rfl) hdefine
    exact ⟨hbase, hwider, fun _ _ _ => hknown⟩
  · rename_i type params hkind
    cases hdefine
    refine ⟨h.congr rfl rfl rfl rfl, fun _ => id, fun decl hdecl hbody => ?_⟩
    rw [hkind] at hdecl
    cases hdecl
    cases hbody

theorem Baseline.foldlM : ∀ {ms : List MemberDecl} {c c' : ClassImage}, (∀ m ∈ ms, m ∈ d.members) → Baseline d c →
    ms.foldlM ClassImage.defineMember c = .ok c' → Baseline d c' ∧ c.Wider c' ∧
      ∀ m ∈ ms, ∀ decl, m.kind = .method decl → decl.body.isSome → c'.Known m.name
  | [], c, c', _, h, hfold => by
    cases hfold
    exact ⟨h, fun _ => id, nofun⟩
  | m :: ms, c, c', hmem, h, hfold => by
    rw [List.foldlM_cons] at hfold
    cases hdefine : c.defineMember m with
    | error e =>
      rw [hdefine] at hfold
      cases hfold
    | ok c₁ =>
      rw [hdefine] at hfold
      obtain ⟨h₁, hw₁, hk₁⟩ := h.defineMember (hmem m List.mem_cons_self) hdefine
      obtain ⟨h₂, hw₂, hk₂⟩ := Baseline.foldlM (fun n hn => hmem n (List.mem_cons_of_mem _ hn)) h₁ hfold
      exact ⟨h₂, fun n hn => hw₂ n (hw₁ n hn),
        List.forall_mem_cons.mpr ⟨fun decl hdecl hbody => hw₂ _ (hk₁ decl hdecl hbody), hk₂⟩⟩

/-- A class that is compiled from its declaration has the methods and accessors that are declared. -/
theorem baseline_eq_ok {conventions : Conventions} {c : ClassImage} (h : baseline d conventions = .ok c) :
    Baseline d c ∧ ∀ name, d.implements name = true → c.Known name := by
  have hbare : Baseline d (bare d.name (d.derivesFrom conventions.extensibleBase) conventions.initMethod) :=
    ⟨nofun, nofun, rfl⟩
  obtain ⟨hbase, -, hknown⟩ := hbare.foldlM (fun _ hm => hm) h
  refine ⟨hbase, fun name himpl => ?_⟩
  obtain ⟨m, hm, hboth⟩ := List.any_eq_true.mp himpl
  obtain ⟨hname, hbody⟩ := (Bool.and_eq_true _ _ ▸ hboth : _ ∧ _)
  have hname : m.name = name := by simpa using hname
  cases hkind : m.kind with
  | property p =>
    rw [MemberDecl.method?, hkind] at hbody
    cases hbody
  | method decl =>
    rw [MemberDecl.method?, hkind] at hbody
    exact hname ▸ hknown m hm decl hkind hbody

/-! ### Edits -/

/-- What an edit that fits has done. -/
def Edited (e : PatchEdit) (c c' : ClassImage) : Prop :=
  match e with
  | .addField name type _ => c.fields.any (·.1 == name) = false ∧ c' = { c with fields := c.fields ++ [(name, type)] }
  | .addStatic m => c' = { c with statics := c.statics.put m.name m }
  | .addProperty name type getter =>
    c.properties.has name = false ∧ c' = { c with properties := c.properties.put name ⟨type, some getter, none⟩ }
  | .addMethod m => ¬ c.Known m.name ∧ c' = c.putMethod m
  | .replaceBody m => c.Known m.name ∧ c' = { c with opaqueBodies := c.opaqueBodies.drop m.name }.putMethod m
  | .redirectInitializer property setter => ∃ initializers, redirect property setter c.initializers = some initializers ∧
    c' = { c with initializers }

theorem misfit_ne_ok {reason : Misfit} {c c' : ClassImage} {u : Unit} : misfit reason c ≠ .ok u c' := by
  intro h
  cases h

theorem known_iff (c : ClassImage) (n : String) : (c.methods.has n || c.opaqueBodies.has n) = true ↔ c.Known n :=
  Bool.or_eq_true _ _ ▸ Iff.rfl

theorem edited_of_applyEdit {e : PatchEdit} {c c' : ClassImage} {u : Unit} (h : applyEdit e c = .ok u c') :
    Edited e c c' := by
  obtain ⟨_, _, h₀, h⟩ := bind_eq_ok.mp (show (get >>= _ : Patching Unit) c = _ from h)
  obtain ⟨rfl, rfl⟩ := get_eq_ok.mp h₀
  cases e with
  | addField name type role =>
    dsimp only at h
    split at h
    · cases misfit_ne_ok h
    · rename_i hnew
      exact ⟨Bool.eq_false_iff.mpr hnew, (set_eq_ok.mp h).symm⟩
  | addStatic m => exact (set_eq_ok.mp h).symm
  | addProperty name type getter =>
    dsimp only at h
    split at h
    · cases misfit_ne_ok h
    · rename_i hnew
      exact ⟨Bool.eq_false_iff.mpr hnew, (set_eq_ok.mp h).symm⟩
  | addMethod m =>
    dsimp only at h
    split at h
    · cases misfit_ne_ok h
    · rename_i hnew
      exact ⟨fun hknown => hnew ((known_iff _ _).mpr hknown), (set_eq_ok.mp h).symm⟩
  | replaceBody m =>
    dsimp only at h
    split at h
    · rename_i hknown
      exact ⟨(known_iff _ _).mp hknown, (set_eq_ok.mp h).symm⟩
    · cases misfit_ne_ok h
  | redirectInitializer property setter =>
    dsimp only at h
    cases hredirect : redirect property setter _ with
    | none =>
      rw [hredirect] at h
      cases misfit_ne_ok h
    | some initializers =>
      rw [hredirect] at h
      exact ⟨initializers, hredirect, (set_eq_ok.mp h).symm⟩

/-- What a class is like after some edits. -/
structure Patched (d : ClassDecl) (es : List PatchEdit) (c : ClassImage) : Prop where
  methods : ∀ n m, c.methods.find? n = some m → m.name = n ∧
    (m ∈ es.filterMap PatchEdit.instanceMethod? ∨
      (d.Defines m ∧ ∀ m' ∈ es.filterMap PatchEdit.instanceMethod?, m'.name ≠ n))
  added : ∀ m ∈ es.filterMap PatchEdit.instanceMethod?, c.methods.has m.name = true
  properties : ∀ n p, c.properties.find? n = some p → c.Accesses n p ∨
    ∃ type getter, .addProperty n type getter ∈ es ∧ p = ⟨type, some getter, none⟩
  statics : ∀ n f, c.statics.find? n = some f → f.name = n ∧ .addStatic f ∈ es
  hoisted : ∀ f, .addStatic f ∈ es → c.statics.has f.name = true
  fields : ∀ n ∈ es.filterMap PatchEdit.field?, ∃ e ∈ c.fields, e.1 = n
  distinct : (es.filterMap PatchEdit.field?).Nodup

/-- A class with an edit has the bodies that it had. -/
theorem Edited.wider {e : PatchEdit} {c c' : ClassImage} (h : Edited e c c') : c.Wider c' := by
  cases e with
  | addField name type role =>
    obtain ⟨-, rfl⟩ := h
    exact fun _ => id
  | addStatic m =>
    obtain rfl := h
    exact fun _ => id
  | addProperty name type getter =>
    obtain ⟨-, rfl⟩ := h
    exact fun _ => id
  | addMethod m =>
    obtain ⟨-, rfl⟩ := h
    exact wider_putMethod c m
  | replaceBody m =>
    obtain ⟨-, rfl⟩ := h
    intro n hn
    rw [known_putMethod]
    by_cases heq : n = m.name
    · exact Or.inl heq
    · refine Or.inr (hn.imp id fun hopaque => ?_)
      show ((c.opaqueBodies.drop m.name).find? n).isSome = true
      rw [Table.find?_drop, if_neg heq]
      exact hopaque
  | redirectInitializer property setter =>
    obtain ⟨_, -, rfl⟩ := h
    exact fun _ => id

theorem filterMap_snoc_none {α β : Type} {f : α → Option β} {xs : List α} {x : α} (h : f x = none) :
    (xs ++ [x]).filterMap f = xs.filterMap f := by
  rw [List.filterMap_append, List.filterMap_cons_none h, List.filterMap_nil, List.append_nil]

/-- An edit that brings in no method, function, property or field of its own. -/
theorem Patched.congr {es : List PatchEdit} {c c' : ClassImage} (h : Patched d es c) (methods : c'.methods = c.methods)
    (properties : c'.properties = c.properties) (statics : c'.statics = c.statics) (fields : c.fields ⊆ c'.fields)
    (hwider : c.Wider c') {e : PatchEdit} (he : e.instanceMethod? = none) (hfield : e.field? = none)
    (hstatic : ∀ f, e ≠ .addStatic f) :
    Patched d (es ++ [e]) c' := by
  have hmem {x : PatchEdit} (hx : x ∈ es) : x ∈ es ++ [e] := List.mem_append_left _ hx
  have hmethods : (es ++ [e]).filterMap PatchEdit.instanceMethod? = es.filterMap PatchEdit.instanceMethod? :=
    filterMap_snoc_none he
  have hfields : (es ++ [e]).filterMap PatchEdit.field? = es.filterMap PatchEdit.field? :=
    filterMap_snoc_none hfield
  refine ⟨?_, ?_, fun n p hp => ?_, fun n f hf => ?_, fun f hf => ?_, fun n hn => ?_, hfields ▸ h.distinct⟩
  · rw [methods, hmethods]
    exact h.methods
  · rw [methods, hmethods]
    exact h.added
  · rw [properties] at hp
    obtain haccess | ⟨type, getter, hadd, rfl⟩ := h.properties n p hp
    · exact Or.inl (haccess.wider hwider)
    · exact Or.inr ⟨type, getter, hmem hadd, rfl⟩
  · rw [statics] at hf
    obtain ⟨hname, hadd⟩ := h.statics n f hf
    exact ⟨hname, hmem hadd⟩
  · rw [statics]
    obtain hf | hf := List.mem_append.mp hf
    · exact h.hoisted f hf
    · exact absurd (List.mem_singleton.mp hf).symm (hstatic f)
  · rw [hfields] at hn
    obtain ⟨x, hx, rfl⟩ := h.fields n hn
    exact ⟨x, fields hx, rfl⟩

/-- One more method, in place of any of its name. -/
theorem Patched.method {es : List PatchEdit} {c c' : ClassImage} (h : Patched d es c) {e : PatchEdit}
    {m : CompiledMethod} (he : e.instanceMethod? = some m) (hput : c'.methods = c.methods.put m.name m)
    (properties : c'.properties = c.properties) (statics : c'.statics = c.statics) (fields : c'.fields = c.fields)
    (hwider : c.Wider c') : Patched d (es ++ [e]) c' := by
  have hmem {x : PatchEdit} (hx : x ∈ es) : x ∈ es ++ [e] := List.mem_append_left _ hx
  have hmethods : (es ++ [e]).filterMap PatchEdit.instanceMethod? = es.filterMap PatchEdit.instanceMethod? ++ [m] := by
    rw [List.filterMap_append, List.filterMap_cons_some he, List.filterMap_nil]
  have hfields : (es ++ [e]).filterMap PatchEdit.field? = es.filterMap PatchEdit.field? := by
    have hnone : e.field? = none := by cases e <;> first | rfl | cases he
    exact filterMap_snoc_none hnone
  refine ⟨fun n m' hfind => ?_, fun m' hm' => ?_, fun n p hp => ?_, fun n f hf => ?_, fun f hf => ?_, ?_,
    hfields ▸ h.distinct⟩
  · rw [hput, Table.find?_put] at hfind
    rw [hmethods]
    split at hfind
    · rename_i heq
      cases hfind
      exact ⟨heq.symm, Or.inl (List.mem_append_right _ List.mem_cons_self)⟩
    · rename_i hne
      obtain ⟨hname, hin | ⟨hdefines, hother⟩⟩ := h.methods n m' hfind
      · exact ⟨hname, Or.inl (List.mem_append_left _ hin)⟩
      · refine ⟨hname, Or.inr ⟨hdefines, fun m'' hm'' => ?_⟩⟩
        obtain hm'' | hm'' := List.mem_append.mp hm''
        · exact hother m'' hm''
        · exact fun heq => hne (heq.symm.trans (by rw [List.mem_singleton.mp hm'']))
  · rw [hmethods] at hm'
    rw [hput, Table.has, Table.find?_put]
    split
    · rfl
    · rename_i hne
      obtain hm' | hm' := List.mem_append.mp hm'
      · exact h.added m' hm'
      · exact absurd (by rw [List.mem_singleton.mp hm']) hne
  · rw [properties] at hp
    obtain haccess | ⟨type, getter, hadd, rfl⟩ := h.properties n p hp
    · exact Or.inl (haccess.wider hwider)
    · exact Or.inr ⟨type, getter, hmem hadd, rfl⟩
  · rw [statics] at hf
    obtain ⟨hname, hadd⟩ := h.statics n f hf
    exact ⟨hname, hmem hadd⟩
  · rw [statics]
    obtain hf | hf := List.mem_append.mp hf
    · exact h.hoisted f hf
    · rw [← List.mem_singleton.mp hf] at he
      cases he
  · rw [hfields, fields]
    exact h.fields

/-- One more edit. -/
theorem Patched.step {es : List PatchEdit} {c c' : ClassImage} (h : Patched d es c) {e : PatchEdit}
    (hedit : Edited e c c') : Patched d (es ++ [e]) c' := by
  have hwider := hedit.wider
  have hmem {x : PatchEdit} (hx : x ∈ es) : x ∈ es ++ [e] := List.mem_append_left _ hx
  cases e with
  | addField name type role =>
    obtain ⟨hnew, rfl⟩ := hedit
    refine ⟨?_, ?_, fun n p hp => ?_, fun n f hf => ?_, fun f hf => ?_, fun n hn => ?_, ?_⟩
    · rw [filterMap_snoc_none rfl]
      exact h.methods
    · rw [filterMap_snoc_none rfl]
      exact h.added
    · obtain haccess | ⟨type, getter, hadd, rfl⟩ := h.properties n p hp
      · exact Or.inl (haccess.wider hwider)
      · exact Or.inr ⟨type, getter, hmem hadd, rfl⟩
    · obtain ⟨hname, hadd⟩ := h.statics n f hf
      exact ⟨hname, hmem hadd⟩
    · obtain hf | hf := List.mem_append.mp hf
      · exact h.hoisted f hf
      · cases List.mem_singleton.mp hf
    · rw [List.filterMap_append] at hn
      obtain hn | hn := List.mem_append.mp hn
      · obtain ⟨x, hx, rfl⟩ := h.fields n hn
        exact ⟨x, List.mem_append_left _ hx, rfl⟩
      · obtain rfl := List.mem_singleton.mp hn
        exact ⟨(n, type), List.mem_append_right _ List.mem_cons_self, rfl⟩
    · rw [List.filterMap_append]
      refine List.nodup_append.mpr ⟨h.distinct, List.nodup_singleton _, fun a ha b hb hab => ?_⟩
      obtain rfl := List.mem_singleton.mp hb
      obtain ⟨x, hx, hname⟩ := h.fields a ha
      refine Bool.eq_false_iff.mp hnew (List.any_eq_true.mpr ⟨x, hx, ?_⟩)
      rw [hname, hab, beq_self_eq_true]
  | addStatic m =>
    obtain rfl := hedit
    refine ⟨?_, ?_, fun n p hp => ?_, fun n f hf => ?_, fun f hf => ?_, ?_, ?_⟩
    · rw [filterMap_snoc_none rfl]
      exact h.methods
    · rw [filterMap_snoc_none rfl]
      exact h.added
    · obtain haccess | ⟨type, getter, hadd, rfl⟩ := h.properties n p hp
      · exact Or.inl (haccess.wider hwider)
      · exact Or.inr ⟨type, getter, hmem hadd, rfl⟩
    · have hput : (c.statics.put m.name m).find? n = some f := hf
      rw [Table.find?_put] at hput
      split at hput
      · rename_i heq
        cases hput
        exact ⟨heq.symm, List.mem_append_right _ List.mem_cons_self⟩
      · obtain ⟨hname, hadd⟩ := h.statics n f hput
        exact ⟨hname, hmem hadd⟩
    · show ((c.statics.put m.name m).find? f.name).isSome = true
      rw [Table.find?_put]
      split
      · rfl
      · rename_i hne
        obtain hf | hf := List.mem_append.mp hf
        · exact h.hoisted f hf
        · cases List.mem_singleton.mp hf
          exact absurd rfl hne
    · rw [filterMap_snoc_none rfl]
      exact h.fields
    · rw [filterMap_snoc_none rfl]
      exact h.distinct
  | addProperty name type getter =>
    obtain ⟨hnew, rfl⟩ := hedit
    refine ⟨?_, ?_, fun n p hp => ?_, fun n f hf => ?_, fun f hf => ?_, ?_, ?_⟩
    · rw [filterMap_snoc_none rfl]
      exact h.methods
    · rw [filterMap_snoc_none rfl]
      exact h.added
    · have hput : (c.properties.put name ⟨type, some getter, none⟩).find? n = some p := hp
      rw [Table.find?_put] at hput
      split at hput
      · rename_i heq
        cases hput
        exact Or.inr ⟨type, getter, heq ▸ List.mem_append_right _ List.mem_cons_self, rfl⟩
      · obtain haccess | ⟨type', getter', hadd, rfl⟩ := h.properties n p hput
        · exact Or.inl (haccess.wider hwider)
        · exact Or.inr ⟨type', getter', hmem hadd, rfl⟩
    · obtain ⟨hname, hadd⟩ := h.statics n f hf
      exact ⟨hname, hmem hadd⟩
    · obtain hf | hf := List.mem_append.mp hf
      · exact h.hoisted f hf
      · cases List.mem_singleton.mp hf
    · rw [filterMap_snoc_none rfl]
      exact h.fields
    · rw [filterMap_snoc_none rfl]
      exact h.distinct
  | addMethod m =>
    obtain ⟨-, rfl⟩ := hedit
    exact h.method rfl rfl rfl rfl rfl hwider
  | replaceBody m =>
    obtain ⟨-, rfl⟩ := hedit
    exact h.method rfl rfl rfl rfl rfl hwider
  | redirectInitializer property setter =>
    obtain ⟨_, -, rfl⟩ := hedit
    refine h.congr (e := .redirectInitializer property setter) ?_ ?_ ?_ ?_ hwider rfl rfl (by rintro f ⟨⟩)
    · rfl
    · rfl
    · rfl
    · exact List.Subset.refl _

/-- Edits one after another. -/
theorem Patched.forM {u : Unit} : ∀ {es pre : List PatchEdit} {c c' : ClassImage}, Patched d pre c →
    es.forM applyEdit c = .ok u c' → Patched d (pre ++ es) c' ∧ c.Wider c'
  | [], pre, c, c', h, hrun => by
    cases hrun
    rw [List.append_nil]
    exact ⟨h, fun _ => id⟩
  | e :: es, pre, c, c', h, hrun => by
    obtain ⟨_, c₁, h₁, hrun⟩ := bind_eq_ok.mp hrun
    have hedit := edited_of_applyEdit h₁
    obtain ⟨hall, hwider⟩ := (h.step hedit).forM hrun
    rw [List.append_assoc] at hall
    exact ⟨hall, fun n hn => hwider n (hedit.wider n hn)⟩

theorem Baseline.patched {c : ClassImage} (h : Baseline d c) : Patched d [] c := by
  refine ⟨fun n m hfind => ⟨(h.methods n m hfind).2, Or.inr ⟨(h.methods n m hfind).1, nofun⟩⟩, nofun,
    fun n p hp => Or.inl (h.properties n p hp), fun n f hf => ?_, nofun, nofun, List.nodup_nil⟩
  rw [h.statics] at hf
  cases hf

theorem apply_eq_ok {module : PatchModule} {c c' : ClassImage} {u : Unit} (h : apply module c = .ok u c') :
    module.edits.forM applyEdit c = .ok u c' := by
  unfold apply at h
  dsimp only at h
  split at h
  · obtain ⟨_, _, h₀, h⟩ := bind_eq_ok.mp h
    obtain ⟨rfl, rfl⟩ := get_eq_ok.mp h₀
    split at h
    · exact h
    · obtain ⟨_, _, h₁, -⟩ := bind_eq_ok.mp h
      cases misfit_ne_ok h₁
  · obtain ⟨_, _, h₁, -⟩ := bind_eq_ok.mp h
    cases throw_ne_ok h₁

/-- The edits of a module are made if the module is of the class. -/
theorem ofPatched_of_forM {conventions : Conventions} {className : String} {edits : List PatchEdit}
    {base c : ClassImage} {u : Unit} (hbase : baseline d conventions = .ok base) (hname : className = base.name)
    (hrun : edits.forM applyEdit base = .ok u c) :
    ofPatched d conventions (.ofEdits className edits) = .ok c := by
  have hintact : (PatchModule.ofEdits className edits).isIntact = true := PatchModule.isIntact_sealed _
  have happly : apply (.ofEdits className edits) base = .ok u c := by
    unfold apply
    rw [if_pos hintact]
    show (if className = base.name then edits.forM applyEdit else _) base = _
    rw [if_pos hname]
    exact hrun
  unfold ofPatched
  rw [hbase]
  show ClassImage.patched base _ = _
  rw [ClassImage.patched, happly]

/-- A declared class with the edits of a module is the one that is compiled from the declaration, edit by edit. -/
theorem forM_of_ofPatched {conventions : Conventions} {module : PatchModule} {c : ClassImage}
    (h : ofPatched d conventions module = .ok c) :
    ∃ base, baseline d conventions = .ok base ∧ module.edits.forM applyEdit base = .ok () c := by
  unfold ofPatched at h
  cases hbase : baseline d conventions with
  | error e =>
    rw [hbase] at h
    cases h
  | ok base =>
    rw [hbase] at h
    dsimp only [Bind.bind, Except.bind] at h
    unfold ClassImage.patched at h
    split at h
    · rename_i u c' happly
      cases h
      exact ⟨base, rfl, apply_eq_ok happly⟩
    · cases h

/-- A declared class with the edits of a module, the last of which adds a method. -/
theorem ofPatched_eq_ok {conventions : Conventions} {className : String} {front : List PatchEdit}
    {m : CompiledMethod} {c : ClassImage}
    (h : ofPatched d conventions (.ofEdits className (front ++ [.addMethod m])) = .ok c) :
    ∃ base mid, Baseline d base ∧ (∀ name, d.implements name = true → base.Known name) ∧ Patched d front mid ∧
      base.Wider mid ∧ ¬ mid.Known m.name ∧ c = mid.putMethod m ∧ Patched d (front ++ [.addMethod m]) c := by
  obtain ⟨base, hbase, hrun⟩ := forM_of_ofPatched h
  obtain ⟨hbaseline, himplements⟩ := baseline_eq_ok hbase
  obtain ⟨mid, hfront, hlast⟩ := forM_append_eq_ok.mp hrun
  obtain ⟨hpatched, hwider⟩ := hbaseline.patched.forM hfront
  obtain ⟨_, c₁, hadd, hnil⟩ := bind_eq_ok.mp hlast
  cases hnil
  obtain ⟨hnew, rfl⟩ := edited_of_applyEdit hadd
  rw [List.nil_append] at hpatched
  exact ⟨base, mid, hbaseline, himplements, hpatched, hwider, hnew, rfl, hpatched.step (edited_of_applyEdit hadd)⟩

end ClassImage

end Reactive
