import Mathlib.Tactic.Common
import Reactive.Proofs.Labels
import Reactive.Proofs.Methods
import Reactive.Source.Unit

/-!
# Reactive.Proofs.Protocol — the members of a class come in an order that both back-ends take

A back-end receives the pieces of a class one by one, and trusts in their order: a class begins before anything else,
methods are not nested, the field of a slot comes before the comparison with it, a property before its accessors, and a
locale object is registered before it is used.

* `ClassModel.Regular`: what the bodies of all generated methods keep to.
* `Assembly.Idle`: the state of a module between two members; a member keeps it, or has an expression that is not
  supported (`Assembly.meets_member`).
* `SourceDraft.Idle`: the state of a file between two members, with the slots and properties that it knows; lists of
  members that keep the state are served (`SourceDraft.Serves`), and those of a class are.
* `internal_errors_unreachable`: every class has a file, and its module fails for unsupported expressions only.
-/

namespace Reactive

open Stateful

/-! ### Bodies -/

namespace Statement

mutual

/-- The slots that a statement compares `value` with. -/
def compared : Statement → List String
  | .returnIfUnchanged slot => [slot]
  | .ifUnset _ body => comparedAll body
  | _ => []

/-- The slots that statements compare `value` with. -/
def comparedAll : List Statement → List String
  | [] => []
  | s :: rest => s.compared ++ comparedAll rest

end

theorem mem_comparedAll : ∀ {ss : List Statement} {slot : String}, slot ∈ comparedAll ss → ∃ s ∈ ss, slot ∈ s.compared
  | [], _, h => absurd h (by simp [comparedAll])
  | s :: ss, slot, h => by
    rw [comparedAll, List.mem_append] at h
    rcases h with h | h
    · exact ⟨s, List.mem_cons_self, h⟩
    · obtain ⟨t, ht, hslot⟩ := mem_comparedAll h
      exact ⟨t, List.mem_cons_of_mem _ ht, hslot⟩

end Statement

namespace ClassModel

variable {m : ClassModel} {s : Statement} {body : List Statement}

/-- Statements that compare with slots of reactive properties only, and register locale objects before using them. -/
structure Regular (m : ClassModel) (body : List Statement) : Prop where
  compared : ∀ slot ∈ Statement.comparedAll body, slot ∈ m.mutableProperties.map (·.slot)
  registered : Statement.RegisteredAll [] body

/-- A statement that is in order wherever it stands. -/
structure Unbound (m : ClassModel) (s : Statement) : Prop where
  compared : ∀ slot ∈ s.compared, slot ∈ m.mutableProperties.map (·.slot)
  registered : ∀ known, s.Registered known

theorem regular_of_unbound (h : ∀ s ∈ body, m.Unbound s) : m.Regular body where
  compared := by
    intro slot hslot
    obtain ⟨s, hs, hslot⟩ := Statement.mem_comparedAll hslot
    exact (h s hs).compared slot hslot
  registered := Statement.registeredAll_of_forall fun s hs => (h s hs).registered

/-- A statement that compares nothing and uses no locale object. -/
theorem unbound_of (hcompared : s.compared = []) (hregistered : ∀ known, s.Registered known) : m.Unbound s where
  compared := by
    intro slot hslot
    rw [hcompared] at hslot
    cases hslot
  registered := hregistered

theorem unbound_raiseAndSetBody {p : MutableProperty} (hp : p ∈ m.mutableProperties) (hs : s ∈ m.raiseAndSetBody p) :
    m.Unbound s := by
  simp only [raiseAndSetBody, List.mem_append, List.mem_map, List.mem_cons, List.not_mem_nil, or_false] at hs
  rcases hs with (((hs | rfl | rfl | rfl) | ⟨d, -, rfl⟩) | rfl | rfl | rfl) | ⟨d, -, rfl⟩
  · split at hs
    · cases hs
    · obtain rfl := List.mem_singleton.mp hs
      refine ⟨fun slot hslot => ?_, fun _ => trivial⟩
      obtain rfl : slot = p.slot := by simpa [Statement.compared] using hslot
      exact List.mem_map_of_mem hp
  iterate 7 exact unbound_of rfl fun _ => trivial
  · unfold refresh
    split <;> exact unbound_of rfl fun _ => trivial

theorem unbound_getterBody {d : DerivedProperty} {value : Operand} (hs : s ∈ getterBody d value) : m.Unbound s := by
  have hret (value : Operand) : m.Unbound (.ret value) :=
    unbound_of rfl fun _ => trivial
  unfold getterBody at hs
  split at hs
  · obtain rfl := List.mem_singleton.mp hs
    exact hret _
  · split at hs
    · obtain rfl := List.mem_singleton.mp hs
      exact hret _
    · rcases List.mem_append.mp hs with hs | hs
      · split at hs
        · obtain rfl := List.mem_singleton.mp hs
          exact unbound_of rfl fun _ => ⟨trivial, trivial, trivial⟩
        · cases hs
      · obtain rfl := List.mem_singleton.mp hs
        exact hret _

theorem unbound_initialSteps {d : DerivedProperty} (hs : s ∈ m.initialSteps d) : m.Unbound s := by
  unfold initialSteps at hs
  split at hs
  · split at hs
    · split at hs <;> obtain rfl := List.mem_singleton.mp hs <;>
        exact unbound_of rfl fun _ => trivial
    · cases hs
  · split at hs
    · obtain rfl := List.mem_singleton.mp hs
      exact unbound_of rfl fun _ => trivial
    · cases hs
  · cases hs

/-! ### The init method -/

theorem registeredAll_bindings {object : String} : ∀ {bs : List LocaleBinding} {known : List String}, object ∈ known →
    Statement.RegisteredAll known (bs.map fun b => .addLocaleProperty object b.keyName b.targetName b.retain)
  | [], _, _ => by
    rw [List.map_nil, Statement.RegisteredAll]
    trivial
  | b :: bs, known, h => by
    rw [List.map_cons, Statement.RegisteredAll, Statement.Registered]
    exact ⟨h, registeredAll_bindings h⟩

/-- Every locale object is registered right before its bindings. -/
theorem registeredAll_registrations : ∀ (unnamed : Nat) (objects : List (String × LocaleGrouping))
    (known : List String), Statement.RegisteredAll known (registrations unnamed objects)
  | _, [], _ => by
    rw [registrations, Statement.RegisteredAll]
    trivial
  | unnamed, (registry, grouping) :: rest, known => by
    rw [registrations]
    refine Statement.registeredAll_append ?_ fun more => registeredAll_registrations _ rest _
    exact ⟨trivial, registeredAll_bindings List.mem_cons_self⟩

theorem compared_registrations : ∀ {unnamed : Nat} {objects : List (String × LocaleGrouping)},
    s ∈ registrations unnamed objects → s.compared = []
  | _, [], hs => by
    rw [registrations] at hs
    cases hs
  | unnamed, (registry, grouping) :: rest, hs => by
    rw [registrations, registration] at hs
    rcases List.mem_append.mp hs with hs | hs
    · rcases List.mem_cons.mp hs with rfl | hs
      · rfl
      · obtain ⟨b, -, rfl⟩ := List.mem_map.mp hs
        rfl
    · exact compared_registrations hs

theorem regular_initBody : m.Regular m.initBody := by
  have hsteps : ∀ s ∈ (m.initializationOrder.filterMap (m.derived[·]?)).flatMap m.initialSteps, m.Unbound s := by
    intro s hs
    obtain ⟨d, -, hs⟩ := List.mem_flatMap.mp hs
    exact unbound_initialSteps hs
  refine ⟨fun slot hslot => ?_, ?_⟩
  · obtain ⟨s, hs, hslot⟩ := Statement.mem_comparedAll hslot
    rcases List.mem_append.mp hs with hs | hs
    · exact (hsteps s hs).compared slot hslot
    · rw [compared_registrations hs] at hslot
      cases hslot
  · exact Statement.registeredAll_append (regular_of_unbound hsteps).registered fun more =>
      registeredAll_registrations _ _ _

theorem HasMethod.regular {signature : MethodSignature} (h : m.HasMethod signature body) : m.Regular body := by
  cases h with
  | raiseAndSet p mem => exact regular_of_unbound fun s hs => unbound_raiseAndSetBody mem hs
  | derivedGetter d mem value computed => exact regular_of_unbound fun s hs => unbound_getterBody hs
  | init => exact regular_initBody
  | recompute d mem slot cached value computed own =>
    refine regular_of_unbound fun s hs => ?_
    unfold recomputeBody at hs
    rcases List.mem_append.mp hs with hs | hs
    · obtain ⟨flag, -, rfl⟩ := Option.map_eq_some_iff.mp (Option.mem_toList.mp hs)
      exact unbound_of rfl fun _ => trivial
    · obtain rfl := List.mem_singleton.mp hs
      exact unbound_of rfl fun _ => trivial
  | mutableGetter | mutableSetter | commandGetter =>
    refine regular_of_unbound fun s hs => ?_
    obtain rfl := List.mem_singleton.mp hs
    exact unbound_of rfl fun _ => trivial

end ClassModel

/-! ### The module of a class -/

namespace Assembly

variable {a : Assembly} {signature : MethodSignature} {b : MethodBuilder}

/-- Between two members a class has begun, and no method. -/
structure Idle (a : Assembly) : Prop where
  begun : a.className.isSome
  current : a.current = none

/-- A statement goes to the method that has begun. -/
theorem statement_of_current (s : Statement) (hcur : a.current = some ⟨signature, b⟩) :
    statement s a = match Build.statement a.hooks (signature.params.map Prod.fst) s b with
      | .ok _ b' => .ok () { a with current := some ⟨signature, b'⟩ }
      | .error e b' => .error e { a with current := some ⟨signature, b'⟩ } := by
  unfold statement
  rw [get_bind, hcur]
  dsimp only
  cases Build.statement a.hooks (signature.params.map Prod.fst) s b <;> rfl

theorem meets_statements : ∀ {body : List Statement} {known : List String} {a : Assembly} {b : MethodBuilder},
    a.current = some ⟨signature, b⟩ → b.Sound [] → (∀ object ∈ known, object ∈ b.locals) →
      Statement.RegisteredAll known body →
      Meets CompileError.IsUnsupported ((body.map Fragment.statement).forM add) a fun _ a' =>
        a'.className = a.className ∧ ∃ b', a'.current = some ⟨signature, b'⟩ ∧ b'.Sound []
  | [], _, _, b, hcur, hb, _, _ => ⟨rfl, b, hcur, hb⟩
  | s :: body, known, a, b, hcur, hb, hknown, hregistered => by
    rw [Statement.RegisteredAll] at hregistered
    have hsound : Meets CompileError.IsUnsupported (Build.statement a.hooks (signature.params.map Prod.fst) s) b
        fun _ b' => b'.Sound [] ∧ ∀ object ∈ s.registers, object ∈ b'.locals :=
      Build.sound_statement s hb hknown hregistered.1
    have hadd := statement_of_current s hcur
    show Meets _ (statement s >>= fun _ => (body.map Fragment.statement).forM add) a _
    cases hs : Build.statement a.hooks (signature.params.map Prod.fst) s b with
    | error e b₁ =>
      rw [hs] at hadd
      exact meets_of_error (bind_of_error hadd) (hsound.of_error hs)
    | ok u b₁ =>
      rw [hs] at hadd
      obtain ⟨hb₁, hregisters⟩ := hsound.of_ok hs
      refine meets_bind_of_ok hadd (meets_statements (a := { a with current := some ⟨signature, b₁⟩ }) rfl hb₁
        (fun object hobject => ?_) hregistered.2)
      rcases List.mem_append.mp hobject with hobject | hobject
      · exact hregisters object hobject
      · exact (Build.grows_statement s hs).locals.subset (hknown object hobject)

theorem meets_method {body : List Statement} (ha : a.Idle) (hbody : Statement.RegisteredAll [] body) :
    Meets CompileError.IsUnsupported ((GeneratedMember.method signature body).fragments.forM add) a
      fun _ a' => a'.Idle := by
  obtain ⟨className, edits, hooks, properties, current⟩ := a
  obtain rfl : current = none := ha.current
  have hbegin : beginMethod signature ⟨className, edits, hooks, properties, none⟩ = .ok () ⟨className, edits, hooks,
      properties, some ⟨signature, .start signature.name (UInt16.ofNat signature.params.length)⟩⟩ := rfl
  refine meets_forM_cons hbegin (meets_forM_append ((meets_statements rfl (MethodBuilder.sound_start _ _)
    (fun _ h => absurd h List.not_mem_nil) hbody).imp ?_))
  rintro _ a₁ - ⟨hname, b, hcur, hb⟩
  obtain ⟨method, hbuild⟩ := hb.finished.build
  show Meets _ (endMethod >>= fun _ => pure ()) a₁ _
  have hend : endMethod a₁ =
      .ok () { a₁ with current := none, edits := a₁.edits ++ [a₁.methodEdit signature.kind method] } := by
    unfold endMethod
    rw [get_bind, hcur]
    dsimp only
    rw [hbuild]
    rfl
  exact meets_bind_of_ok hend ⟨hname ▸ ha.begun, rfl⟩

theorem meets_function (decl : StaticFunction) (ha : a.Idle) :
    Meets CompileError.IsUnsupported (add (.function decl)) a fun _ a' => a'.Idle := by
  have hsound : Meets CompileError.IsUnsupported (Build.expression (.detached [decl.param]) decl.body)
      (.start decl.name (UInt16.ofNat (Scope.detached [decl.param]).params.length)) fun _ b => b.Sound [] :=
    Build.sound_expression decl.body (MethodBuilder.sound_start _ _)
  have hbody : CompiledMethod.ofBody decl.name (.detached [decl.param]) decl.body =
      match Build.expression (.detached [decl.param]) decl.body
        (.start decl.name (UInt16.ofNat (Scope.detached [decl.param]).params.length)) with
      | .ok _ b => (b.push .ret).build
      | .error e _ => .error e := rfl
  rw [add]
  cases hrun : Build.expression (.detached [decl.param]) decl.body
      (.start decl.name (UInt16.ofNat (Scope.detached [decl.param]).params.length)) with
  | error e b₁ =>
    rw [hbody, hrun]
    exact hsound.of_error hrun
  | ok u b₁ =>
    obtain ⟨method, hbuild⟩ := ((hsound.of_ok hrun).push (i := .ret) rfl).build
    rw [hbody, hrun]
    dsimp only
    rw [hbuild]
    exact ⟨ha.begun, ha.current⟩

/-- A member whose statements are in order has an edit, or an expression that is not supported. -/
theorem meets_member {m : ClassModel} {member : GeneratedMember} (hmember : member ∈ m.generatedMembers) (ha : a.Idle) :
    Meets CompileError.IsUnsupported (member.fragments.forM add) a fun _ a' => a'.Idle := by
  cases member with
  | method signature body =>
    have hmethod : (signature, body) ∈ m.methods := List.mem_filterMap.mpr ⟨_, hmember, rfl⟩
    exact meets_method ha (ClassModel.hasMethod_of_mem hmethod).regular.registered
  | function decl => exact (meets_function decl ha).bind fun _ _ _ ha' => ha'
  | hook decl =>
    obtain ⟨name, valueType, isImplemented⟩ := decl
    cases isImplemented <;> exact ⟨ha.begun, ha.current⟩
  | property signature =>
    obtain ⟨name, type, accessibility, synthesized, hasSetter⟩ := signature
    cases synthesized <;> exact ⟨ha.begun, ha.current⟩
  | field decl | redirect property setter => exact ⟨ha.begun, ha.current⟩

end Assembly

/-- The module of a class fails for an expression that is not supported, if at all. -/
theorem PatchModule.ofModel_meets (m : ClassModel) :
    (∃ module, PatchModule.ofModel m = .ok module) ∨
      ∃ e, e.IsUnsupported ∧ PatchModule.ofModel m = .error e := by
  have hmembers : Meets CompileError.IsUnsupported
      ((m.generatedMembers.flatMap GeneratedMember.fragments).forM Assembly.add)
      { Assembly.empty with className := some m.header.name } fun _ a => a.Idle :=
    meets_forM_flatMap ⟨rfl, rfl⟩ fun member hmember a ha => Assembly.meets_member hmember ha
  have hall : Meets CompileError.IsUnsupported (m.fragments.forM Assembly.add) .empty fun _ a => a.Idle := by
    have hbegin : Assembly.add (.beginClass m.header) .empty =
        .ok () { Assembly.empty with className := some m.header.name } := rfl
    exact meets_forM_cons hbegin hmembers
  have hrun : Meets CompileError.IsUnsupported (do m.fragments.forM Assembly.add; Assembly.finish) .empty
      fun _ _ => True := by
    refine hall.bind fun _ a _ ha => ?_
    obtain ⟨name, hname⟩ := Option.isSome_iff_exists.mp ha.begun
    unfold Assembly.finish
    refine meets_get_bind ?_
    rw [hname]
    trivial
  unfold PatchModule.ofModel
  cases h : (do m.fragments.forM Assembly.add; Assembly.finish : Assembling PatchModule) .empty with
  | ok module a => exact Or.inl ⟨module, rfl⟩
  | error e a => exact Or.inr ⟨e, hrun.of_error h, rfl⟩

/-! ### The lines of statements -/

mutual

/-- A statement has lines in a class that has begun, if the slots are known that it compares with. -/
theorem Statement.exists_source {c : SourceContext} {name : String} (hname : c.className = some name) :
    ∀ (s : Statement), (∀ slot ∈ s.compared, ∃ type, c.slotTypes.lookup slot = some type) →
      ∃ lines, s.source c = .ok lines
  | .returnIfUnchanged slot, h => by
    obtain ⟨type, htype⟩ := h slot List.mem_cons_self
    rw [Statement.source, htype]
    exact ⟨_, rfl⟩
  | .ifUnset flag body, h => by
    rw [Statement.compared] at h
    obtain ⟨lines, hlines⟩ := exists_sourceAll hname body h
    rw [Statement.source, hlines]
    exact ⟨_, rfl⟩
  | .addLocaleProperty object key target retain, _ => by
    rw [Statement.source, SourceContext.declaredName, hname]
    exact ⟨_, rfl⟩
  | .captureOld _, _ | .raiseChanging _, _ | .raiseChanged _, _ | .callHook _, _ | .storeValue _, _ | .callMethod .., _
  | .setIfChanged .., _ | .store .., _ | .ret _, _ | .returnCommand .., _ | .registerLocale .., _ => by
    rw [Statement.source]
    exact ⟨_, rfl⟩

/-- Statements have lines, if each of them has. -/
theorem Statement.exists_sourceAll {c : SourceContext} {name : String} (hname : c.className = some name) :
    ∀ (ss : List Statement), (∀ slot ∈ comparedAll ss, ∃ type, c.slotTypes.lookup slot = some type) →
      ∃ lines, sourceAll c ss = .ok lines
  | [], _ => ⟨[], by rw [sourceAll]⟩
  | s :: rest, h => by
    simp only [comparedAll, List.mem_append] at h
    obtain ⟨lines, hlines⟩ := exists_source hname s fun slot hslot => h slot (Or.inl hslot)
    obtain ⟨more, hmore⟩ := exists_sourceAll hname rest fun slot hslot => h slot (Or.inr hslot)
    rw [sourceAll, hlines, hmore]
    exact ⟨_, rfl⟩

end

/-! ### The file of a class -/

namespace SourceDraft

variable {d : SourceDraft} {slots props : List String} {signature : MethodSignature} {body : List Statement}

/-- No error at all. -/
def Never (_ : CompileError) : Prop := False

/-- Between two members a class has begun, and no method; the types of some slots and some properties are known. -/
structure Idle (slots props : List String) (d : SourceDraft) : Prop where
  begun : d.header.isSome
  current : d.current = none
  typed : ∀ slot ∈ slots, ∃ type, d.slotTypes.lookup slot = some type
  declared : ∀ property ∈ props, ∃ block ∈ d.properties, block.signature.name = property

/-! #### Methods -/

theorem add_statements : ∀ (body : List Statement) {d : SourceDraft} {lines : List String}, d.header.isSome →
    (∀ slot ∈ Statement.comparedAll body, ∃ type, d.slotTypes.lookup slot = some type) →
    d.current = some (signature, lines) →
      ∃ lines', (body.map Fragment.statement).forM add d = .ok () { d with current := some (signature, lines') }
  | [], d, lines, _, _, hcur => ⟨lines, by rw [← hcur]; rfl⟩
  | s :: body, d, lines, hbegun, htyped, hcur => by
    simp only [Statement.comparedAll, List.mem_append] at htyped
    obtain ⟨header, hheader⟩ := Option.isSome_iff_exists.mp hbegun
    have hname : d.context.className = some header.displayName := by
      rw [context, hheader]
      rfl
    obtain ⟨more, hmore⟩ := Statement.exists_source hname s fun slot hslot => htyped slot (Or.inl hslot)
    have hadd : add (.statement s) d = .ok () { d with current := some (signature, lines ++ more) } := by
      unfold add
      rw [get_bind]
      dsimp only
      rw [hmore, hcur]
      rfl
    obtain ⟨lines', hrest⟩ := add_statements body (d := { d with current := some (signature, lines ++ more) })
      hbegun (fun slot hslot => htyped slot (Or.inr hslot)) rfl
    refine ⟨lines', ?_⟩
    show (add (.statement s) >>= fun _ => (body.map Fragment.statement).forM add) d = _
    rw [bind_of_ok hadd, hrest]

/-- A method whose statements are in order goes to its section with some lines. -/
theorem meets_method {P : PUnit → SourceDraft → Prop} (hd : d.Idle slots props)
    (hbody : ∀ slot ∈ Statement.comparedAll body, slot ∈ slots)
    (hend : ∀ lines, Meets Never (addMethod signature lines) d P) :
    Meets Never ((GeneratedMember.method signature body).fragments.forM add) d P := by
  have hbegin : add (.beginMethod signature) d = .ok () { d with current := some (signature, []) } := by
    unfold add
    rw [get_bind]
    dsimp only
    rw [hd.current]
    rfl
  obtain ⟨lines, hlines⟩ := add_statements body (d := { d with current := some (signature, []) })
    hd.begun (fun slot hslot => hd.typed slot (hbody slot hslot)) rfl
  refine meets_forM_cons hbegin (meets_forM_append (meets_of_ok hlines ?_))
  have hnone : { d with current := none } = d := by rw [← hd.current]
  show Meets _ (addMethod signature lines >>= fun _ => pure ()) { d with current := none } _
  rw [hnone]
  exact (hend lines).bind fun _ _ _ h => h

theorem exists_updateLast {name : String} {f : PropertyBlock → PropertyBlock} {blocks : List PropertyBlock}
    (h : ∃ block ∈ blocks, block.signature.name = name) : ∃ i, updateLast name f blocks = some (blocks.modify i f) := by
  obtain ⟨block, hblock, hname⟩ := h
  cases hfind : blocks.reverse.findIdx? (·.signature.name == name) with
  | some i => exact ⟨_, by rw [updateLast, hfind]; rfl⟩
  | none =>
    have := List.findIdx?_eq_none_iff.mp hfind block (List.mem_reverse.mpr hblock)
    simp [hname] at this

/-- An accessor of a property that is known goes there. -/
theorem meets_updateProperty {name : String} {f : PropertyBlock → PropertyBlock}
    (hf : ∀ b, (f b).signature = b.signature) (hd : d.Idle slots props) (hname : name ∈ props) :
    Meets Never (updateProperty name f) d fun _ d' => d'.Idle slots props := by
  obtain ⟨i, hupdate⟩ := exists_updateLast (f := f) (hd.declared name hname)
  unfold updateProperty
  refine meets_get_bind ?_
  rw [hupdate]
  refine ⟨hd.begun, hd.current, hd.typed, fun property hproperty => ?_⟩
  obtain ⟨block, hblock, hblockName⟩ := hd.declared property hproperty
  obtain ⟨j, hj⟩ := List.getElem?_of_mem hblock
  have hat : (d.properties.modify i f)[j]? = some (if i = j then f block else block) := by
    rw [List.getElem?_modify, hj]
    split <;> rfl
  refine ⟨_, List.mem_of_getElem? hat, ?_⟩
  split
  · rw [hf, hblockName]
  · exact hblockName

/-- The getter of a command takes its property out of the others. -/
theorem meets_finishCommand {name : String} {lines : List String} (hd : d.Idle slots props) (hname : name ∈ props) :
    Meets Never (finishCommand name lines) d fun _ d' => d'.Idle slots [] := by
  obtain ⟨block, hblock, hblockName⟩ := hd.declared name hname
  cases hfind : d.properties.find? (·.signature.name == name) with
  | none =>
    have := List.find?_eq_none.mp hfind block hblock
    simp [hblockName] at this
  | some found =>
    unfold finishCommand
    refine meets_get_bind ?_
    rw [hfind]
    exact ⟨hd.begun, hd.current, hd.typed, List.forall_mem_nil _⟩

/-! #### Members -/

theorem meets_field (decl : FieldDecl) (hd : d.Idle slots props) :
    Meets Never ((GeneratedMember.field decl).fragments.forM add) d fun _ d' => d'.Idle (decl.name :: slots) props := by
  have hidle : (d.addField decl).Idle (decl.name :: slots) props := by
    have htyped : ∀ slot ∈ decl.name :: slots,
        ∃ type, ((decl.name, decl.type) :: d.slotTypes).lookup slot = some type := by
      intro slot hslot
      rw [List.lookup_cons]
      rcases List.mem_cons.mp hslot with rfl | hslot
      · exact ⟨decl.type, by simp⟩
      · split
        · exact ⟨_, rfl⟩
        · exact hd.typed slot hslot
    unfold addField
    dsimp only
    split <;> exact ⟨hd.begun, hd.current, htyped, hd.declared⟩
  exact hidle

theorem meets_property (s : PropertySignature) (hd : d.Idle slots props) :
    Meets Never ((GeneratedMember.property s).fragments.forM add) d fun _ d' => d'.Idle slots (s.name :: props) := by
  refine ⟨hd.begun, hd.current, hd.typed, fun property hproperty => ?_⟩
  rcases List.mem_cons.mp hproperty with rfl | hproperty
  · exact ⟨⟨s, none, none⟩, List.mem_append_right _ (List.mem_singleton.mpr rfl), rfl⟩
  · obtain ⟨block, hblock, hname⟩ := hd.declared property hproperty
    exact ⟨block, List.mem_append_left _ hblock, hname⟩

theorem meets_accessor {property : String}
    (hkind : signature.kind = .getter property ∨ signature.kind = .setter property)
    (hbody : ∀ slot ∈ Statement.comparedAll body, slot ∈ slots) (hd : d.Idle slots props)
    (hproperty : property ∈ props) :
    Meets Never ((GeneratedMember.method signature body).fragments.forM add) d fun _ d' => d'.Idle slots props := by
  refine meets_method hd hbody fun lines => ?_
  unfold addMethod
  rcases hkind with hkind | hkind <;> rw [hkind] <;> exact meets_updateProperty (fun _ => rfl) hd hproperty

/-- A method that is no accessor. -/
theorem meets_plain (hkind : (∃ p, signature.kind = .raiseAndSet p) ∨ (∃ p, signature.kind = .recompute p) ∨
      ∃ isOverride, signature.kind = .init isOverride)
    (hbody : ∀ slot ∈ Statement.comparedAll body, slot ∈ slots) (hd : d.Idle slots props) :
    Meets Never ((GeneratedMember.method signature body).fragments.forM add) d fun _ d' => d'.Idle slots props := by
  refine meets_method hd hbody fun lines => ?_
  unfold addMethod
  rcases hkind with ⟨p, hkind⟩ | ⟨p, hkind⟩ | ⟨isOverride, hkind⟩ <;> rw [hkind] <;>
    exact ⟨hd.begun, hd.current, hd.typed, hd.declared⟩

/-! #### Lists of members -/

/-- Members that a file takes in their order, whatever else it has, and is between two members again. -/
def Serves (slots : List String) (members : List GeneratedMember) : Prop :=
  ∀ d : SourceDraft, d.Idle slots [] →
    Meets Never ((members.flatMap GeneratedMember.fragments).forM add) d fun _ d' => d'.Idle slots []

theorem serves_nil : Serves slots [] := fun _ hd => hd

theorem Serves.append {members more : List GeneratedMember} (h : Serves slots members) (h' : Serves slots more) :
    Serves slots (members ++ more) := by
  intro d hd
  rw [List.flatMap_append]
  exact meets_forM_append ((h d hd).imp fun _ d' _ hd' => h' d' hd')

theorem serves_cons {member : GeneratedMember} {more : List GeneratedMember} (h : Serves slots [member])
    (h' : Serves slots more) : Serves slots (member :: more) := h.append h'

theorem serves_flatMap {α : Type} {xs : List α} {members : α → List GeneratedMember}
    (h : ∀ x ∈ xs, Serves slots (members x)) : Serves slots (xs.flatMap members) := by
  induction xs with
  | nil => exact serves_nil
  | cons x xs ih =>
    rw [List.flatMap_cons]
    exact (h x List.mem_cons_self).append (ih fun y hy => h y (List.mem_cons_of_mem _ hy))

/-- Members each of which a file takes by itself. -/
theorem serves_of_forall {members : List GeneratedMember} (h : ∀ member ∈ members, Serves slots [member]) :
    Serves slots members := by
  have := serves_flatMap h
  rwa [List.flatMap_singleton'] at this

theorem meets_cons {member : GeneratedMember} {rest : List GeneratedMember} {P : PUnit → SourceDraft → Prop}
    (h : Meets Never (member.fragments.forM add) d fun _ d' =>
      Meets Never ((rest.flatMap GeneratedMember.fragments).forM add) d' P) :
    Meets Never (((member :: rest).flatMap GeneratedMember.fragments).forM add) d P := by
  rw [List.flatMap_cons]
  exact meets_forM_append h

theorem Idle.mono {slots' props' : List String} (h : d.Idle slots props) (hslots : slots' ⊆ slots)
    (hprops : props' ⊆ props) : d.Idle slots' props' :=
  ⟨h.begun, h.current, fun slot hslot => h.typed slot (hslots hslot), fun p hp => h.declared p (hprops hp)⟩

theorem serves_field (decl : FieldDecl) : Serves slots [.field decl] := by
  intro d hd
  exact meets_cons ((meets_field decl hd).imp fun _ _ _ hd' => hd'.mono (List.subset_cons_self _ _) nofun)

theorem serves_plain (hkind : (∃ p, signature.kind = .raiseAndSet p) ∨ (∃ p, signature.kind = .recompute p) ∨
      ∃ isOverride, signature.kind = .init isOverride)
    (hbody : ∀ slot ∈ Statement.comparedAll body, slot ∈ slots) : Serves slots [.method signature body] := by
  intro d hd
  exact meets_cons (meets_plain hkind hbody hd)

/-- A property and its accessors. -/
theorem serves_accessors (s : PropertySignature) (accessors : List (MethodSignature × List Statement))
    (haccessors : ∀ accessor ∈ accessors,
      (accessor.1.kind = .getter s.name ∨ accessor.1.kind = .setter s.name) ∧
        ∀ slot ∈ Statement.comparedAll accessor.2, slot ∈ slots) :
    Serves slots (.property s :: accessors.map fun accessor => .method accessor.1 accessor.2) := by
  intro d hd
  refine meets_cons ((meets_property s hd).imp fun _ d₁ _ hd₁ => ?_)
  rw [List.flatMap_map]
  refine (meets_forM_flatMap (I := Idle slots [s.name]) hd₁ fun accessor haccessor d₂ hd₂ => ?_).imp fun _ _ _ hd₃ =>
    hd₃.mono (fun _ => id) nofun
  obtain ⟨hkind, hbody⟩ := haccessors accessor haccessor
  exact meets_accessor hkind hbody hd₂ List.mem_cons_self

/-! #### The members of a class -/

variable {m : ClassModel}

/-- The slots whose types the statements of a class may ask for. -/
theorem meets_slotFields : ∀ {ps : List MutableProperty} {d : SourceDraft} {slots : List String}, d.Idle slots [] →
    Meets Never (((ps.map ClassModel.slotField).flatMap GeneratedMember.fragments).forM add) d
      fun _ d' => d'.Idle (ps.map (·.slot) ++ slots) []
  | [], _, _, hd => hd
  | p :: ps, d, slots, hd => by
    refine meets_cons ((meets_field _ hd).imp fun _ d₁ _ hd₁ => (meets_slotFields hd₁).imp fun _ d₂ _ hd₂ => ?_)
    refine hd₂.mono (fun slot hslot => ?_) nofun
    simp only [List.map_cons, List.cons_append, List.mem_cons, List.mem_append] at hslot ⊢
    tauto

theorem serves_cacheFields (dp : DerivedProperty) : Serves slots (ClassModel.cacheFields dp) := by
  unfold ClassModel.cacheFields
  split
  · exact serves_nil
  · rename_i slot
    refine serves_cons (serves_field _) (serves_of_forall fun member hmember => ?_)
    obtain ⟨flag, -, rfl⟩ := Option.map_eq_some_iff.mp (Option.mem_toList.mp hmember)
    exact serves_field _

theorem serves_function (decl : StaticFunction) : Serves slots [.function decl] := by
  intro d hd
  obtain ⟨header, hheader⟩ := Option.isSome_iff_exists.mp hd.begun
  have hname : d.context.declaredName = .ok header.displayName := by
    unfold SourceContext.declaredName context
    rw [hheader]
    rfl
  have hadd : add (.function decl) d = .ok () { d with statics := d.statics ++ [decl.source header.displayName] } := by
    unfold add
    rw [get_bind]
    dsimp only
    rw [hname]
    rfl
  exact meets_forM_cons hadd ⟨hd.begun, hd.current, hd.typed, hd.declared⟩

theorem serves_hook (decl : HookDecl) : Serves slots [.hook decl] :=
  fun _ hd => ⟨hd.begun, hd.current, hd.typed, hd.declared⟩

theorem serves_redirect (property setter : String) : Serves slots [.redirect property setter] := fun _ hd => hd

theorem serves_mutableAccessors {p : MutableProperty} (hp : p ∈ m.mutableProperties) :
    Serves (m.mutableProperties.map (·.slot)) (m.mutableAccessors p) := by
  refine Serves.append (serves_accessors _ [(.getter p.name p.type, [.ret (.slot p.slot)]),
    (.setter p.name p.type, [.callMethod (Naming.raiseAndSet p.name) true])] ?_) ?_
  · simp only [List.mem_cons, List.not_mem_nil, or_false]
    rintro accessor (rfl | rfl)
    · exact ⟨Or.inl rfl, (ClassModel.HasMethod.mutableGetter p hp).regular.compared⟩
    · exact ⟨Or.inr rfl, (ClassModel.HasMethod.mutableSetter p hp).regular.compared⟩
  · split
    · exact serves_redirect _ _
    · exact serves_nil

theorem serves_derivedAccessors {dp : DerivedProperty} (hdp : dp ∈ m.derived) :
    Serves (m.mutableProperties.map (·.slot)) (m.derivedAccessors dp) := by
  unfold ClassModel.derivedAccessors
  split
  · exact serves_nil
  · rename_i value hvalue
    refine serves_accessors _ [(.getter dp.name dp.type, ClassModel.getterBody dp value)] ?_
    rintro accessor haccessor
    obtain rfl := List.mem_singleton.mp haccessor
    exact ⟨Or.inl rfl, (ClassModel.HasMethod.derivedGetter dp hdp value hvalue).regular.compared⟩

theorem serves_commandMembers {c : CommandModel} (hc : c ∈ m.commands) :
    Serves (m.mutableProperties.map (·.slot)) (ClassModel.commandMembers c) := by
  refine serves_cons (serves_field _) fun d hd => ?_
  refine meets_cons ((meets_property _ hd).imp fun _ d₁ _ hd₁ => meets_cons ?_)
  refine meets_method hd₁ (ClassModel.HasMethod.commandGetter c hc).regular.compared fun lines => ?_
  exact meets_finishCommand hd₁ List.mem_cons_self

/-- The members of a class behind the fields of its reactive properties. -/
theorem serves_members (m : ClassModel) : Serves (m.mutableProperties.map (·.slot))
    (m.derived.flatMap ClassModel.cacheFields ++ m.statics.map (fun f => .function f.toStaticFunction)
      ++ m.mutableProperties.flatMap m.hooks ++ m.accessors) := by
  refine ((Serves.append (Serves.append ?_ ?_) ?_).append ?_)
  · exact serves_flatMap fun dp _ => serves_cacheFields dp
  · refine serves_of_forall fun member hmember => ?_
    obtain ⟨f, -, rfl⟩ := List.mem_map.mp hmember
    exact serves_function _
  · refine serves_flatMap fun p _ => serves_of_forall fun member hmember => ?_
    obtain ⟨hook, -, rfl⟩ := List.mem_map.mp hmember
    exact serves_hook _
  · unfold ClassModel.accessors
    refine (((((Serves.append ?_ ?_).append ?_).append ?_).append ?_).append ?_)
    · refine serves_of_forall fun member hmember => ?_
      obtain ⟨p, hp, rfl⟩ := List.mem_map.mp hmember
      exact serves_plain (Or.inl ⟨_, rfl⟩) (ClassModel.HasMethod.raiseAndSet p hp).regular.compared
    · exact serves_flatMap fun p hp => serves_mutableAccessors hp
    · exact serves_flatMap fun dp hdp => serves_derivedAccessors hdp
    · refine serves_of_forall fun member hmember => ?_
      obtain ⟨dp, hdp, hmember⟩ := List.mem_filterMap.mp hmember
      unfold ClassModel.recomputer? at hmember
      split at hmember
      · rename_i slot value hslot hvalue
        split at hmember
        · cases hmember
        · rename_i hown
          cases hmember
          exact serves_plain (Or.inr (Or.inl ⟨_, rfl⟩))
            (ClassModel.HasMethod.recompute dp hdp slot hslot value hvalue (by simpa using hown)).regular.compared
      · cases hmember
    · exact serves_flatMap fun c hc => serves_commandMembers hc
    · exact serves_plain (Or.inr (Or.inr ⟨_, rfl⟩)) ClassModel.HasMethod.init.regular.compared

end SourceDraft

/-- Every class has a file. -/
theorem SourceUnit.exists_ofModel (m : ClassModel) : ∃ unit, SourceUnit.ofModel m = .ok unit := by
  have hmembers : Meets SourceDraft.Never ((m.generatedMembers.flatMap GeneratedMember.fragments).forM SourceDraft.add)
      { SourceDraft.empty with header := some m.header } fun _ d => d.Idle (m.mutableProperties.map (·.slot)) [] := by
    have hgroups : m.generatedMembers = m.mutableProperties.map ClassModel.slotField ++
        (m.derived.flatMap ClassModel.cacheFields ++ m.statics.map (fun f => .function f.toStaticFunction)
          ++ m.mutableProperties.flatMap m.hooks ++ m.accessors) := by
      simp only [ClassModel.generatedMembers_eq, ClassModel.declarations, List.append_assoc]
    rw [hgroups, List.flatMap_append]
    have hbegun : SourceDraft.Idle [] [] { SourceDraft.empty with header := some m.header } :=
      ⟨rfl, rfl, List.forall_mem_nil _, List.forall_mem_nil _⟩
    refine meets_forM_append ((SourceDraft.meets_slotFields hbegun).imp ?_)
    intro _ d _ hd
    rw [List.append_nil] at hd
    exact SourceDraft.serves_members m d hd
  have hall : Meets SourceDraft.Never (m.fragments.forM SourceDraft.add) .empty
      fun _ d => d.Idle (m.mutableProperties.map (·.slot)) [] := by
    have hbegin : SourceDraft.add (.beginClass m.header) .empty =
        .ok () { SourceDraft.empty with header := some m.header } := rfl
    exact meets_forM_cons hbegin hmembers
  have hrun : Meets SourceDraft.Never (do m.fragments.forM SourceDraft.add; SourceDraft.finish) .empty
      fun _ _ => True := by
    refine hall.bind fun _ d _ hd => ?_
    obtain ⟨header, hheader⟩ := Option.isSome_iff_exists.mp hd.begun
    unfold SourceDraft.finish
    refine meets_get_bind ?_
    rw [hheader]
    trivial
  unfold SourceUnit.ofModel
  cases h : (do m.fragments.forM SourceDraft.add; SourceDraft.finish : SourceDrafting SourceUnit) .empty with
  | ok unit d => exact ⟨unit, rfl⟩
  | error e d => exact (hrun.of_error h).elim

/-- Whatever class it is, with or without findings, its file is made, and its module is made unless an expression has no
instructions: no piece of the class comes out of order, and no label stays without a place. -/
theorem internal_errors_unreachable (m : ClassModel) :
    (∃ unit, SourceUnit.ofModel m = .ok unit) ∧
      ((∃ module, PatchModule.ofModel m = .ok module) ∨
        ∃ member reason, PatchModule.ofModel m = .error (.unsupported member reason)) := by
  refine ⟨SourceUnit.exists_ofModel m, ?_⟩
  rcases PatchModule.ofModel_meets m with h | ⟨e, ⟨member, reason, rfl⟩, h⟩
  · exact Or.inl h
  · exact Or.inr ⟨member, reason, h⟩

end Reactive
