import Reactive.Proofs.Balance
import Reactive.Proofs.Emitting

/-!
# Reactive.Proofs.Registering — the code that registers locale objects

The init method registers the locale objects of a class behind everything else that it does.  Each is kept in a local
while its bindings are added; objects of one name share their local, one after the other.

* `LocaleRegistration.of`: a locale object as it is registered for an owner.
* `Enrols`: what instructions that register locale objects make of the registrations.
* `CompiledMethod.Registers`: from a place on, which is not passed over before, a method registers locale objects, and
  nothing else is registered.
* `ClassImage.exists_init_ofPatched`: the init method of a class with a patch module does so with the locale objects of the
  model, and no other code of the class registers anything.
-/

namespace Reactive

open Stateful MethodBuilder

/-- A locale object with its registry, as it is registered for an owner. -/
def LocaleRegistration.of (owner : Nat) (object : String × LocaleGrouping) : LocaleRegistration :=
  ⟨object.1, object.2.name, owner, object.2.bindings.map fun b => ⟨b.keyName, b.targetName, b.retain⟩⟩

/-! ### Instructions in a row -/

/-- Executed in a row for an owner, with operands and locals, instructions make other registrations of those that there
are, adding bindings to those of the owner only.  They come to an end, or stop because a local is not there. -/
inductive Enrols (owner : Nat) : List Instruction → List Value → List Value → List LocaleRegistration → Bool →
    List LocaleRegistration → Prop
  | behind {stack locals : List Value} {rs : List LocaleRegistration} : Enrols owner [] stack locals rs true rs
  | returned {rest : List Instruction} {stack locals : List Value} {rs : List LocaleRegistration} :
    Enrols owner (.retVoid :: rest) stack locals rs true rs
  | register {rest : List Instruction} {stack locals : List Value} {rs rs' : List LocaleRegistration} {ends : Bool}
    {registry : String} {grouping : Option String}
    (next : Enrols owner rest (.locale rs.length :: stack) locals (rs ++ [⟨registry, grouping, owner, []⟩]) ends rs') :
    Enrols owner (.registerLocale registry grouping :: rest) stack locals rs ends rs'
  | store {rest : List Instruction} {stack locals : List Value} {rs rs' : List LocaleRegistration} {ends : Bool}
    {index : UInt16} {v : Value} (there : index.toNat < locals.length)
    (next : Enrols owner rest stack (locals.set index.toNat v) rs ends rs') :
    Enrols owner (.storeLocal index :: rest) (v :: stack) locals rs ends rs'
  | full {rest : List Instruction} {stack locals : List Value} {rs : List LocaleRegistration} {index : UInt16} {v : Value}
    (missing : locals.length ≤ index.toNat) : Enrols owner (.storeLocal index :: rest) (v :: stack) locals rs false rs
  | load {rest : List Instruction} {stack locals : List Value} {rs rs' : List LocaleRegistration} {ends : Bool}
    {index : UInt16} {v : Value} (there : locals[index.toNat]? = some v)
    (next : Enrols owner rest (v :: stack) locals rs ends rs') :
    Enrols owner (.loadLocal index :: rest) stack locals rs ends rs'
  | add {rest : List Instruction} {stack locals : List Value} {rs rs' : List LocaleRegistration} {ends : Bool} {id : Nat}
    {r : LocaleRegistration} {key target : String} {retain : Bool} (there : rs[id]? = some r) (own : r.owner = owner)
    (next : Enrols owner rest stack locals
      (rs.modify id fun r => { r with bindings := r.bindings ++ [⟨key, target, retain⟩] }) ends rs') :
    Enrols owner (.addLocaleProperty key target retain :: rest) (.locale id :: stack) locals rs ends rs'

/-- The instructions that add bindings to what a local holds. -/
def bindingCode (index : UInt16) (bindings : List LocaleBinding) : List Instruction :=
  bindings.flatMap fun b => [.loadLocal index, .addLocaleProperty b.keyName b.targetName b.retain]

/-- The instructions that register a locale object, which is kept in a local. -/
def objectCode (index : UInt16) (object : String × LocaleGrouping) : List Instruction :=
  .registerLocale object.1 object.2.name :: .storeLocal index :: bindingCode index object.2.bindings

section

variable {owner : Nat} {rest : List Instruction} {stack locals : List Value} {rs rs' : List LocaleRegistration} {ends : Bool}
  {index : UInt16}

theorem modify_last {α : Type} (xs : List α) (x : α) (f : α → α) : (xs ++ [x]).modify xs.length f = xs ++ [f x] := by
  rw [List.modify_eq_take_cons_drop (by simp)]
  simp

/-- Bindings are added to the last registration. -/
theorem enrols_bindingCode (hlocal : locals[index.toNat]? = some (.locale rs.length)) :
    ∀ {bindings : List LocaleBinding} {r : LocaleRegistration}, r.owner = owner →
      Enrols owner rest stack locals
        (rs ++ [{ r with bindings := r.bindings ++ bindings.map fun b => ⟨b.keyName, b.targetName, b.retain⟩ }]) ends rs' →
      Enrols owner (bindingCode index bindings ++ rest) stack locals (rs ++ [r]) ends rs'
  | [], _, _, h => by rwa [List.map_nil, List.append_nil] at h
  | b :: bs, r, hr, h => by
    refine .load hlocal (.add List.getElem?_concat_length hr ?_)
    rw [modify_last]
    refine enrols_bindingCode hlocal hr ?_
    rwa [List.append_assoc]

/-- A locale object is registered with its bindings. -/
theorem enrols_objectCode {object : String × LocaleGrouping} (hindex : index.toNat < locals.length)
    (h : Enrols owner rest stack (locals.set index.toNat (.locale rs.length)) (rs ++ [.of owner object]) ends rs') :
    Enrols owner (objectCode index object ++ rest) stack locals rs ends rs' :=
  .register (.store hindex (enrols_bindingCode (List.getElem?_set_self hindex) rfl h))

/-- If its local is not there, it is registered without them. -/
theorem enrols_objectCode_full {object : String × LocaleGrouping} (hindex : locals.length ≤ index.toNat) :
    Enrols owner (objectCode index object ++ rest) stack locals rs false
      (rs ++ [⟨object.1, object.2.name, owner, []⟩]) :=
  .register (.full hindex)

end

/-! ### Statements -/

namespace Build

variable {hooks params : List String} {b b' : MethodBuilder} {u : Unit}

theorem statements_append_eq_ok : ∀ {ss ts : List Statement} {b : MethodBuilder},
    statements hooks params (ss ++ ts) b = .ok u b' →
      ∃ b₁, statements hooks params ss b = .ok () b₁ ∧ statements hooks params ts b₁ = .ok () b'
  | [], _, b, h => ⟨b, by rw [statements]; rfl, h⟩
  | s :: ss, ts, b, h => by
    obtain ⟨b₁, h₁, h₂⟩ := statements_cons_eq_ok h
    obtain ⟨b₂, h₂, h₃⟩ := statements_append_eq_ok h₂
    refine ⟨b₂, ?_, h₃⟩
    rw [statements, bind_of_ok h₁]
    exact h₂

theorem bindings_eq_ok {object : String} {index : UInt16} : ∀ {bindings : List LocaleBinding} {b : MethodBuilder},
    b.local? object = some index →
      statements hooks params (bindings.map fun x => .addLocaleProperty object x.keyName x.targetName x.retain) b = .ok u b' →
        b' = b.pushAll (bindingCode index bindings)
  | [], b, _, h => by
    cases h
    simp [pushAll, bindingCode]
  | x :: xs, b, hobject, h => by
    obtain ⟨b₁, h₁, h₂⟩ := statements_cons_eq_ok h
    obtain ⟨i, hi, rfl⟩ := addLocaleProperty_eq_ok h₁
    obtain rfl := Option.some.inj (hi.symm.trans hobject)
    rw [bindings_eq_ok (b := (b.push _).push _) hobject h₂]
    simp [pushAll, push, bindingCode]

/-- A local has the number with which it was asked for. -/
theorem local?_allocate (b : MethodBuilder) (name : String) : (b.allocate name).2.local? name = some (b.allocate name).1 := by
  obtain ⟨i, hi, h⟩ | ⟨hnew, h⟩ := allocate_cases b name
  · rw [h]
    exact hi
  · rw [h]
    show ((b.locals ++ [name]).findIdx? (· == name)).map UInt16.ofNat = _
    have hnone : b.locals.findIdx? (· == name) = none := List.idxOf?_eq_none_iff.mpr hnew
    rw [List.findIdx?_append, hnone]
    simp

theorem target?_objectCode {index : UInt16} {object : String × LocaleGrouping} :
    ∀ i ∈ objectCode index object, i.target? = none := by
  intro i hi
  simp only [objectCode, bindingCode, List.mem_cons, List.mem_flatMap, List.not_mem_nil, or_false] at hi
  obtain rfl | rfl | ⟨_, -, rfl | rfl⟩ := hi <;> rfl

theorem registration_eq_ok {object : String} {o : String × LocaleGrouping}
    (h : statements hooks params (ClassModel.registration o.1 object o.2) b = .ok u b') :
    b' = (b.allocate object).2.pushAll (objectCode (b.allocate object).1 o) := by
  obtain ⟨b₁, h₁, h₂⟩ := statements_cons_eq_ok h
  obtain rfl : ((b.allocate object).2.push (.registerLocale o.1 o.2.name)).push (.storeLocal (b.allocate object).1) = b₁ := by
    cases h₁
    rfl
  rw [bindings_eq_ok (b := ((b.allocate object).2.push _).push _) (local?_allocate b object) h₂]
  simp [pushAll, push, objectCode]

/-- Registrations of locale objects are compiled to a row of instructions that make them.  If there are locals for all of
them, it comes to its end; otherwise some of them may be made. -/
theorem enrols_registrations : ∀ {objects : List (String × LocaleGrouping)} {unnamed : Nat} {b : MethodBuilder},
    statements hooks params (ClassModel.registrations unnamed objects) b = .ok u b' →
      ∃ row, b'.code = b.code ++ row ∧ b'.labels = b.labels ∧ (∀ i ∈ row, i.target? = none) ∧
        ∀ (owner : Nat) (tail : List Instruction), (∀ stack locals rs, Enrols owner tail stack locals rs true rs) →
          ∀ stack locals rs, ∃ ends more, Enrols owner (row ++ tail) stack locals rs ends (rs ++ more) ∧
            (ends = true → more = objects.map (.of owner)) ∧ (b'.locals.length ≤ locals.length → ends = true)
  | [], _, b, h => by
    cases h
    refine ⟨[], (List.append_nil _).symm, rfl, nofun, fun owner tail htail stack locals rs => ?_⟩
    refine ⟨true, [], ?_, fun _ => rfl, fun _ => rfl⟩
    rw [List.append_nil]
    exact htail stack locals rs
  | object :: objects, unnamed, b, h => by
    obtain ⟨b₁, h₁, h₂⟩ := statements_append_eq_ok h
    obtain ⟨row, hcode, hlabels, htargets, hrow⟩ := enrols_registrations h₂
    have hgrows := grows_statements _ h₂
    have hb₁ := registration_eq_ok h₁
    generalize hname : ClassModel.localeObject unnamed object.2.name = name at hb₁
    have hindex := toNat_allocate_lt b name
    subst hb₁
    refine ⟨objectCode (b.allocate name).1 object ++ row, ?_, ?_, ?_, fun owner tail htail stack locals rs => ?_⟩
    · rw [hcode]
      show (b.allocate name).2.code ++ _ ++ _ = _
      rw [code_allocate, List.append_assoc]
    · rw [hlabels]
      exact labels_allocate b name
    · exact List.forall_mem_append.mpr ⟨target?_objectCode, htargets⟩
    · rw [List.append_assoc]
      by_cases hlocal : (b.allocate name).1.toNat < locals.length
      · obtain ⟨ends, more, henrols, hall, hends⟩ :=
          hrow owner tail htail stack (locals.set (b.allocate name).1.toNat (.locale rs.length)) (rs ++ [.of owner object])
        refine ⟨ends, .of owner object :: more, enrols_objectCode hlocal ?_, fun h => congrArg _ (hall h),
          fun hle => hends (by rwa [List.length_set])⟩
        rwa [List.append_assoc] at henrols
      · refine ⟨false, _, enrols_objectCode_full (Nat.le_of_not_lt hlocal), nofun, fun hle => ?_⟩
        have hmore : (b.allocate name).2.locals.length ≤ b'.locals.length := hgrows.locals.length_le
        omega

/-- What is done for a derived value goes on and registers nothing. -/
theorem goesOn_initialSteps {m : ClassModel} {d : DerivedProperty} : ∀ {s : Statement}, s ∈ m.initialSteps d →
    ∀ {b b' : MethodBuilder} {u : Unit}, statement hooks params s b = .ok u b' →
      b.Consists (·.goesOn = true) → b'.Consists (·.goesOn = true) := by
  intro s hs b b' u h hb
  unfold ClassModel.initialSteps at hs
  split at hs
  · split at hs
    · split at hs <;> obtain rfl := List.mem_singleton.mp hs
      · cases h
        simpa [Instruction.goesOn, Instruction.registers, Instruction.isReturn] using hb
      · obtain ⟨b₁, h₁, rfl⟩ := store_eq_ok h
        exact consists_push.mpr ⟨consists_operand (fun _ => id) h₁ hb, rfl⟩
    · cases hs
  · split at hs
    · obtain rfl := List.mem_singleton.mp hs
      cases h
      simpa [Instruction.goesOn, Instruction.registers, Instruction.isReturn] using hb
    · cases hs
  · cases hs

theorem goesOn_statements {m : ClassModel} : ∀ {ss : List Statement}, (∀ s ∈ ss, ∃ d, s ∈ m.initialSteps d) →
    ∀ {b b' : MethodBuilder} {u : Unit}, statements hooks params ss b = .ok u b' →
      b.Consists (·.goesOn = true) → b'.Consists (·.goesOn = true)
  | [], _, _, _, _, h, hb => by
    cases h
    exact hb
  | s :: ss, hss, _, _, _, h, hb => by
    obtain ⟨b₁, h₁, h₂⟩ := statements_cons_eq_ok h
    obtain ⟨d, hd⟩ := hss s List.mem_cons_self
    exact goesOn_statements (fun t ht => hss t (List.mem_cons_of_mem _ ht)) h₂ (goesOn_initialSteps hd h₁ hb)

end Build

/-! ### Methods -/

namespace CompiledMethod

/-- No instruction of the method registers anything. -/
def SparesLocales (m : CompiledMethod) : Prop := ∀ i ∈ m.code, i.registers = false

/-- From a place on a method registers locale objects, all of them if they can be numbered; before, it registers nothing,
does not return and does not go on behind that place. -/
structure Registers (m : CompiledMethod) (place : Nat) (objects : List (String × LocaleGrouping)) : Prop where
  place_le : place ≤ m.code.length
  before : ∀ p i, p < place → m.code[p]? = some i → i.goesOn = true ∧ ∀ t, i.target? = some t → t.toNat ≤ place
  row : ∀ (owner : Nat) (stack locals : List Value) (rs : List LocaleRegistration), locals.length = m.localCount.toNat →
    ∃ ends more, Enrols owner (m.code.drop place) stack locals rs ends (rs ++ more) ∧
      (ends = true → more = objects.map (.of owner)) ∧ (objects.length < 65536 → ends = true)

variable {m : CompiledMethod} {hooks : List String}

/-- What stands behind a place of a method that is being built stands there in the built one, if it has no jumps. -/
theorem drop_of_build {b : MethodBuilder} (hbuild : b.build = .ok m) {front back : List Instruction}
    (hcode : b.code = front ++ back) (hback : ∀ i ∈ back, i.target? = none) : m.code.drop front.length = back := by
  refine List.ext_getElem (by simp [length_of_build hbuild, hcode]) fun p hp hp' => ?_
  rw [List.getElem_drop]
  have hlt : front.length + p < m.code.length := by
    rw [List.length_drop] at hp
    omega
  obtain ⟨i, hi, hresolve⟩ := fetched_of_build hbuild (List.getElem?_eq_getElem hlt)
  rw [hcode, List.getElem?_append_right (Nat.le_add_right _ _), Nat.add_sub_cancel_left, List.getElem?_eq_getElem hp'] at hi
  obtain rfl := Option.some.inj hi
  rw [resolve, hback _ (List.getElem_mem hp')] at hresolve
  exact (Except.ok.inj hresolve).symm

theorem sparesLocales_ofBody {name : String} {scope : Scope} {body : Expr} (h : ofBody name scope body = .ok m) :
    m.SparesLocales := by
  obtain ⟨b, hbody, hbuild⟩ := ofBody_eq_ok h
  have hb : b.Consists (·.registers = false) := Build.consists_expression
    (fun i hi => Instruction.registers_of_goesOn (Instruction.goesOn_of_evaluates hi)) body hbody (consists_start _ _)
  exact (consists_push.mpr ⟨hb, rfl⟩ : (b.push .ret).Consists (·.registers = false)).build hbuild
    fun i t hi => by rwa [Instruction.registers_withTarget]

theorem sparesLocales_ofStatements {signature : MethodSignature} {body : List Statement}
    (h : ofStatements hooks signature body = .ok m) (hbody : Statement.allSpareLocales body = true) : m.SparesLocales := by
  obtain ⟨b, hrun, hbuild⟩ := ofStatements_eq_ok h
  have hb : b.Consists (·.registers = false) := Build.consists_statements body hrun hbody (consists_start _ _)
  have hlast : (if b.endsInReturn then b else b.push .retVoid).Consists (·.registers = false) := by
    split
    · exact hb
    · exact consists_push.mpr ⟨hb, rfl⟩
  exact hlast.build hbuild fun i t hi => by rwa [Instruction.registers_withTarget]

/-- The return that may be added at the end of a method. -/
theorem exists_tail (b : MethodBuilder) : ∃ tail : List Instruction,
    (if b.endsInReturn then b else b.push .retVoid) = b.pushAll tail ∧ (∀ i ∈ tail, i.target? = none) ∧
      ∀ owner stack locals rs, Enrols owner tail stack locals rs true rs := by
  split
  · exact ⟨[], by simp [pushAll], nofun, fun _ _ _ _ => .behind⟩
  · exact ⟨[.retVoid], rfl, List.forall_mem_singleton.mpr rfl, fun _ _ _ _ => .returned⟩

/-- The init method registers the locale objects of a class. -/
theorem registers_initBody {model : ClassModel} {signature : MethodSignature}
    (h : ofStatements hooks signature model.initBody = .ok m) : ∃ place, m.Registers place model.localeObjects := by
  obtain ⟨b, hrun, hbuild⟩ := ofStatements_eq_ok h
  have hfew : b.locals.length ≤ 0 + _ := (Build.grows_statements _ hrun).few
  rw [ClassModel.initBody, Statement.localCountAll_append,
    Statement.localCountAll_plain fun s hs => ClassModel.initBody_isPlain hs, ClassModel.localCountAll_registrations] at hfew
  obtain ⟨b₁, h₁, h₂⟩ := Build.statements_append_eq_ok hrun
  obtain ⟨row, hcode, hlabels, htargets, hrow⟩ := Build.enrols_registrations h₂
  obtain ⟨tail, hlast, htail, hends⟩ := exists_tail b
  rw [hlast] at hbuild
  have hall : (b.pushAll tail).code = b₁.code ++ (row ++ tail) := by
    rw [pushAll, hcode, List.append_assoc]
  have hgoesOn := Build.goesOn_statements (fun s hs => (List.mem_flatMap.mp hs).imp fun _ => And.right) h₁
    (consists_start _ _)
  -- Labels that are bound before the registrations are bound to places before them.
  obtain ⟨heights, levels, hon⟩ := Build.spans_statements _ h₁ [0] [] (balanced_start _ _) rfl
  refine ⟨b₁.code.length, ?_, fun p i hp hi => ?_, fun owner stack locals rs hlocals => ?_⟩
  · rw [length_of_build hbuild, hall]
    simp
  · obtain ⟨j, hj, hresolve⟩ := fetched_of_build hbuild hi
    rw [hall, List.getElem?_append_left hp] at hj
    have hplain : j.goesOn = true := hgoesOn j (List.mem_of_getElem? hj)
    obtain ⟨hnone, rfl⟩ | ⟨t, place, ht, hplace, rfl⟩ := resolve_eq_ok hresolve
    · refine ⟨hplain, fun t ht => ?_⟩
      rw [hnone] at ht
      cases ht
    · refine ⟨by rwa [Instruction.goesOn_withTarget], fun t' ht' => ?_⟩
      have hbound : b₁.Bound t.toNat place := by
        rw [Bound, ← hlabels]
        exact hplace
      rw [Instruction.target?_withTarget ht] at ht'
      cases ht'
      rw [UInt64.toNat_ofNat']
      exact Nat.le_trans (Nat.mod_le _ _) (hon.balanced.bound _ _ hbound).1
  · rw [drop_of_build hbuild hall (List.forall_mem_append.mpr ⟨htargets, htail⟩)]
    obtain ⟨ends, more, henrols, hmore, hthere⟩ := hrow owner tail (hends owner) stack locals rs
    refine ⟨ends, more, henrols, hmore, fun hnumbered => hthere ?_⟩
    have hcount : m.localCount = UInt16.ofNat b.locals.length := (build_eq_ok hbuild).2.2.1
    rw [hlocals, hcount, UInt16.toNat_ofNat_of_lt' (by have hsize : UInt16.size = 65536 := rfl; omega)]

end CompiledMethod

namespace ClassModel

variable {m : ClassModel}

/-- Of the methods of a class only the init method registers anything. -/
theorem HasMethod.init_or_spares {signature : MethodSignature} {body : List Statement} (h : m.HasMethod signature body) :
    (signature = ⟨m.initMethod, .init m.derivesExtensibleBase, [], none⟩ ∧ body = m.initBody) ∨
      Statement.allSpareLocales body = true := by
  cases h with
  | raiseAndSet p mem =>
    refine .inr (Statement.allSpareLocales_iff.mpr fun s hs => ?_)
    simp only [raiseAndSetBody, List.mem_append, List.mem_map, List.mem_cons, List.not_mem_nil, or_false] at hs
    obtain (((hs | rfl | rfl | rfl) | ⟨d, -, rfl⟩) | rfl | rfl | rfl) | ⟨d, -, rfl⟩ := hs
    · split at hs
      · cases hs
      · obtain rfl := List.mem_singleton.mp hs
        rfl
    all_goals try rfl
    unfold refresh
    split <;> rfl
  | mutableGetter p mem => exact .inr rfl
  | mutableSetter p mem => exact .inr rfl
  | derivedGetter d mem value computed =>
    refine .inr ?_
    unfold getterBody
    repeat' split
    all_goals rfl
  | recompute d mem slot cached value computed own =>
    refine .inr ?_
    unfold recomputeBody
    cases slot.flag <;> rfl
  | commandGetter c mem => exact .inr rfl
  | init => exact .inl ⟨rfl, rfl⟩

end ClassModel

namespace ClassImage

theorem Origin.sparesLocales {hooks : List String} {generated : MethodSignature → List Statement → Prop}
    {m : CompiledMethod} (h : Origin hooks generated m)
    (hspares : ∀ signature body, generated signature body → CompiledMethod.ofStatements hooks signature body = .ok m →
      m.SparesLocales) : m.SparesLocales := by
  cases h with
  | body compiled => exact CompiledMethod.sparesLocales_ofBody compiled
  | autoGetter property field => simp [CompiledMethod.SparesLocales, fieldGetter, Instruction.registers]
  | autoSetter property field => simp [CompiledMethod.SparesLocales, fieldSetter, Instruction.registers]
  | method method compiled => exact hspares _ _ method compiled

variable {c : ClassImage} {d : ClassDecl} {conventions : Conventions}

/-- A class that is compiled from its declaration registers nothing. -/
theorem sparesLocales_baseline (h : baseline d conventions = .ok c) {m : CompiledMethod} (hm : c.HasCode m) :
    m.SparesLocales := (origin_of_baseline h hm).sparesLocales fun _ _ h => h.elim

/-- In a class with the patch module of a model, the method that is compiled from the body of the init method registers
the locale objects of the model, and nothing else registers anything. -/
theorem exists_init_ofPatched {model : ClassModel} {module : PatchModule} (hmodule : PatchModule.ofModel model = .ok module)
    (h : ofPatched d conventions module = .ok c) : ∃ init, c.methods.find? model.initMethod = some init ∧
      (∃ place, init.Registers place model.localeObjects) ∧ ∀ m, c.HasCode m → m = init ∨ m.SparesLocales := by
  obtain ⟨hooks, init, hinit, hfound, horigin⟩ := origin_of_ofPatched hmodule h
  refine ⟨init, hfound, CompiledMethod.registers_initBody hinit, fun m hm => ?_⟩
  by_cases hm' : m = init
  · exact .inl hm'
  · refine .inr ((horigin m hm).sparesLocales fun signature body hmethod hcompiled => ?_)
    obtain ⟨rfl, rfl⟩ | hspares := hmethod.init_or_spares
    · exact absurd (Except.ok.inj (hcompiled.symm.trans hinit)) hm'
    · exact CompiledMethod.sparesLocales_ofStatements hcompiled hspares

end ClassImage

/-- Any code of a loaded class registers nothing, or locale objects from a place on. -/
theorem LoadedClass.Assembled.registers {L : LoadedClass} (h : L.Assembled) {m : CompiledMethod} (hm : L.image.HasCode m) :
    m.SparesLocales ∨ ∃ place objects, m.Registers place objects := by
  cases h with
  | plain compiled => exact .inl (ClassImage.sparesLocales_baseline compiled hm)
  | patched generated applied =>
    obtain ⟨init, -, ⟨place, hregisters⟩, hspares⟩ := ClassImage.exists_init_ofPatched generated applied
    obtain rfl | h := hspares m hm
    · exact .inr ⟨place, _, hregisters⟩
    · exact .inl h

end Reactive
