import Mathlib.Data.List.Forall2
import Reactive.Emission
import Reactive.Patch.Assembly
import Reactive.Proofs.Stateful

/-!
# Reactive.Proofs.Assembling — the edits of generated members

A module is put together piece by piece; here it is put together member by member.

* `CompiledMethod.ofStatements`: the method of a list of statements.
* `Assembly.addMember`: one more member, which is one edit or none; `PatchModule.ofModel` adds all members in turn
  (`ofModel_eq_ok`).
* `Assembly.EditsOf`: the edits of a member.  Hooks come before methods, so every method sees all hooks that the class
  implements.
-/

namespace Reactive

open Stateful

/-- The method of statements. -/
def CompiledMethod.ofStatements (hooks : List String) (signature : MethodSignature) (body : List Statement) :
    Except CompileError CompiledMethod :=
  match Build.statements hooks (signature.params.map Prod.fst) body
      (.start signature.name (UInt16.ofNat signature.params.length)) with
  | .ok _ b => (if b.endsInReturn then b else b.push .retVoid).build
  | .error e _ => .error e

/-- The method that an edit adds to the instance or replaces. -/
def PatchEdit.instanceMethod? : PatchEdit → Option CompiledMethod
  | .addMethod m | .replaceBody m => some m
  | _ => none

namespace GeneratedMember

/-- The head and the body of a method. -/
def method? : GeneratedMember → Option (MethodSignature × List Statement)
  | .method signature body => some (signature, body)
  | _ => none

/-- The name of a hook that the class implements. -/
def implementedHook? : GeneratedMember → Option String
  | .hook decl => if decl.isImplemented then some decl.name else none
  | _ => none

end GeneratedMember

namespace Assembly

/-- One more member. -/
def addMember (a : Assembly) : GeneratedMember → Except CompileError Assembly
  | .field decl => .ok { a with edits := a.edits ++ [.addField decl.name decl.type.text decl.role] }
  | .function decl =>
    match CompiledMethod.ofBody decl.name (.detached [decl.param]) decl.body with
    | .ok method => .ok { a with edits := a.edits ++ [.addStatic method] }
    | .error e => .error e
  | .hook decl => .ok { a with hooks := if decl.isImplemented then decl.name :: a.hooks else a.hooks }
  | .property signature => .ok { a with
      edits := a.edits ++ if signature.synthesized then
        [.addProperty signature.name signature.type.text (Naming.getter signature.name)] else []
      properties := signature :: a.properties }
  | .method signature body =>
    match CompiledMethod.ofStatements a.hooks signature body with
    | .ok method => .ok { a with edits := a.edits ++ [a.methodEdit signature.kind method] }
    | .error e => .error e
  | .redirect property setter => .ok { a with edits := a.edits ++ [.redirectInitializer property setter] }

/-- More members. -/
def addAll (a : Assembly) (members : List GeneratedMember) : Except CompileError Assembly := members.foldlM addMember a

variable {a a' : Assembly} {signature : MethodSignature} {b : MethodBuilder}

/-! ### Members from their pieces -/

theorem add_statements {u : PUnit} : ∀ (body : List Statement) {a : Assembly} {b : MethodBuilder},
    a.current = some ⟨signature, b⟩ → (body.map Fragment.statement).forM add a = .ok u a' →
      ∃ b', Build.statements a.hooks (signature.params.map Prod.fst) body b = .ok () b' ∧
        a' = { a with current := some ⟨signature, b'⟩ }
  | [], a, b, hcur, h => by
    cases h
    exact ⟨b, rfl, by rw [← hcur]⟩
  | s :: rest, a, b, hcur, h => by
    obtain ⟨_, a₁, h₁, h₂⟩ := bind_eq_ok.mp h
    obtain ⟨_, _, h₀, h₁⟩ := bind_eq_ok.mp (show (get >>= _ : Assembling Unit) a = _ from h₁)
    obtain ⟨rfl, rfl⟩ := get_eq_ok.mp h₀
    rw [hcur] at h₁
    dsimp only at h₁
    cases hs : Build.statement a.hooks (signature.params.map Prod.fst) s b with
    | error e b₁ =>
      rw [hs] at h₁
      cases h₁
    | ok _ b₁ =>
      rw [hs] at h₁
      cases h₁
      obtain ⟨b', hrest, rfl⟩ := add_statements rest (a := { a with current := some ⟨signature, b₁⟩ }) rfl h₂
      refine ⟨b', ?_, rfl⟩
      rw [Build.statements, bind_of_ok hs]
      exact hrest

theorem beginMethod_eq_ok {u : PUnit} (hcur : a.current = none) (h : beginMethod signature a = .ok u a') :
    a' = { a with current := some ⟨signature, .start signature.name (UInt16.ofNat signature.params.length)⟩ } := by
  obtain ⟨_, _, h₀, h⟩ := bind_eq_ok.mp (show (get >>= _ : Assembling Unit) a = _ from h)
  obtain ⟨rfl, rfl⟩ := get_eq_ok.mp h₀
  rw [hcur] at h
  cases h
  rfl

theorem endMethod_eq_ok {u : PUnit} (hcur : a.current = some ⟨signature, b⟩) (h : endMethod a = .ok u a') :
    ∃ method, (if b.endsInReturn then b else b.push .retVoid).build = .ok method ∧
      a' = { a with current := none, edits := a.edits ++ [a.methodEdit signature.kind method] } := by
  obtain ⟨_, _, h₀, h⟩ := bind_eq_ok.mp (show (get >>= _ : Assembling Unit) a = _ from h)
  obtain ⟨rfl, rfl⟩ := get_eq_ok.mp h₀
  rw [hcur] at h
  dsimp only at h
  cases hbuild : (if b.endsInReturn then b else b.push .retVoid).build with
  | error e =>
    rw [hbuild] at h
    cases h
  | ok method =>
    rw [hbuild] at h
    cases h
    exact ⟨method, rfl, rfl⟩

theorem add_method {body : List Statement} {u : PUnit} (hcur : a.current = none)
    (h : (GeneratedMember.method signature body).fragments.forM add a = .ok u a') :
    a.addMember (.method signature body) = .ok a' := by
  obtain ⟨_, a₁, h₁, h⟩ := bind_eq_ok.mp h
  obtain rfl := beginMethod_eq_ok hcur h₁
  obtain ⟨a₂, h₂, h⟩ := forM_append_eq_ok.mp (show (body.map Fragment.statement ++ [Fragment.endMethod]).forM add _ = _ from h)
  obtain ⟨b, hbody, rfl⟩ := add_statements body rfl h₂
  obtain ⟨_, a₃, h, hnil⟩ := bind_eq_ok.mp h
  cases hnil
  obtain ⟨method, hbuild, rfl⟩ := endMethod_eq_ok rfl h
  have hmethod : CompiledMethod.ofStatements a.hooks signature body = .ok method := by
    unfold CompiledMethod.ofStatements
    rw [hbody]
    exact hbuild
  show (match CompiledMethod.ofStatements a.hooks signature body with
    | .ok method => Except.ok { a with edits := a.edits ++ [a.methodEdit signature.kind method] }
    | .error e => .error e) = _
  rw [hmethod, ← hcur]
  rfl

/-- The pieces of a member make its edit. -/
theorem add_member {member : GeneratedMember} {u : PUnit} (hcur : a.current = none)
    (h : member.fragments.forM add a = .ok u a') : a.addMember member = .ok a' := by
  cases member with
  | method signature body => exact add_method hcur h
  | function decl =>
    obtain ⟨_, a₁, h, hnil⟩ := bind_eq_ok.mp h
    cases hnil
    dsimp only [add] at h
    unfold addMember
    dsimp only
    cases hbody : CompiledMethod.ofBody decl.name (.detached [decl.param]) decl.body with
    | error e =>
      rw [hbody] at h
      cases h
    | ok method =>
      rw [hbody] at h
      cases h
      rfl
  | hook decl =>
    obtain ⟨_, a₁, h, hnil⟩ := bind_eq_ok.mp h
    cases hnil
    dsimp only [add] at h
    unfold addMember
    dsimp only
    cases himpl : decl.isImplemented with
    | true =>
      rw [himpl] at h
      cases h
      rfl
    | false =>
      rw [himpl] at h
      cases h
      rfl
  | property signature =>
    obtain ⟨_, a₁, h, hnil⟩ := bind_eq_ok.mp h
    cases hnil
    dsimp only [add] at h
    unfold addMember
    dsimp only
    cases hsynth : signature.synthesized with
    | true =>
      rw [hsynth] at h
      cases h
      rfl
    | false =>
      rw [hsynth] at h
      cases h
      rw [if_neg Bool.false_ne_true, List.append_nil]
  | field decl | redirect property setter =>
    cases h
    rfl

/-! ### Many members -/

theorem addAll_cons_eq_ok {member : GeneratedMember} {rest : List GeneratedMember} :
    a.addAll (member :: rest) = .ok a' ↔ ∃ a₁, a.addMember member = .ok a₁ ∧ a₁.addAll rest = .ok a' := by
  unfold addAll
  rw [List.foldlM_cons]
  cases h : a.addMember member with
  | error e =>
    constructor
    · intro h'
      cases h'
    · rintro ⟨a₁, ⟨⟩, -⟩
  | ok a₁ =>
    constructor
    · intro h'
      exact ⟨a₁, rfl, h'⟩
    · rintro ⟨_, ⟨⟩, h'⟩
      exact h'

theorem addAll_append_eq_ok : ∀ {members rest : List GeneratedMember} {a a' : Assembly},
    a.addAll (members ++ rest) = .ok a' ↔ ∃ a₁, a.addAll members = .ok a₁ ∧ a₁.addAll rest = .ok a'
  | [], rest, a, a' => by
    constructor
    · intro h
      exact ⟨a, rfl, h⟩
    · rintro ⟨a₁, h, h'⟩
      cases h
      exact h'
  | member :: members, rest, a, a' => by
    rw [List.cons_append, addAll_cons_eq_ok]
    constructor
    · rintro ⟨a₁, h₁, h⟩
      obtain ⟨a₂, h₂, h₃⟩ := addAll_append_eq_ok.mp h
      exact ⟨a₂, addAll_cons_eq_ok.mpr ⟨a₁, h₁, h₂⟩, h₃⟩
    · rintro ⟨a₂, h, h₃⟩
      obtain ⟨a₁, h₁, h₂⟩ := addAll_cons_eq_ok.mp h
      exact ⟨a₁, h₁, addAll_append_eq_ok.mpr ⟨a₂, h₂, h₃⟩⟩

/-- The edits of a member, the class implementing the hooks that are named. -/
inductive EditsOf (hooks : List String) : GeneratedMember → List PatchEdit → Prop
  | field (decl : FieldDecl) : EditsOf hooks (.field decl) [.addField decl.name decl.type.text decl.role]
  | function {decl : StaticFunction} {m : CompiledMethod}
    (compiled : CompiledMethod.ofBody decl.name (.detached [decl.param]) decl.body = .ok m) :
    EditsOf hooks (.function decl) [.addStatic m]
  | hook (decl : HookDecl) : EditsOf hooks (.hook decl) []
  | property (signature : PropertySignature) : EditsOf hooks (.property signature)
    (if signature.synthesized then
      [.addProperty signature.name signature.type.text (Naming.getter signature.name)] else [])
  | added {signature : MethodSignature} {body : List Statement} {m : CompiledMethod}
    (compiled : CompiledMethod.ofStatements hooks signature body = .ok m) :
    EditsOf hooks (.method signature body) [.addMethod m]
  | replaced {signature : MethodSignature} {body : List Statement} {m : CompiledMethod}
    (compiled : CompiledMethod.ofStatements hooks signature body = .ok m)
    (accessor : ∃ p, signature.kind = .getter p ∨ signature.kind = .setter p) :
    EditsOf hooks (.method signature body) [.replaceBody m]
  | redirect (property setter : String) : EditsOf hooks (.redirect property setter) [.redirectInitializer property setter]

/-- Hooks matter for methods only. -/
theorem EditsOf.of_not_method {hooks hooks' : List String} {member : GeneratedMember} {es : List PatchEdit}
    (h : EditsOf hooks member es) (hmethod : member.method? = none) : EditsOf hooks' member es := by
  cases h with
  | field decl => exact .field decl
  | function compiled => exact .function compiled
  | hook decl => exact .hook decl
  | property signature => exact .property signature
  | added compiled => cases hmethod
  | replaced compiled accessor => cases hmethod
  | redirect property setter => exact .redirect property setter

/-- Of the edits of a member those that bring in a method of the instance are the ones of methods. -/
theorem EditsOf.methods {hooks : List String} {member : GeneratedMember} {es : List PatchEdit}
    (h : EditsOf hooks member es) :
    List.Forall₂ (fun method m => CompiledMethod.ofStatements hooks method.1 method.2 = .ok m)
      member.method?.toList (es.filterMap PatchEdit.instanceMethod?) := by
  cases h with
  | property signature => cases signature.synthesized <;> exact .nil
  | added compiled => exact .cons compiled .nil
  | replaced compiled accessor => exact .cons compiled .nil
  | field decl | function compiled | hook decl | redirect property setter => exact .nil

/-- A member adds edits and hooks, and begins no method and no class. -/
theorem addMember_cases {member : GeneratedMember} (h : a.addMember member = .ok a') :
    a'.current = a.current ∧ a'.className = a.className ∧
      a'.hooks = member.implementedHook?.toList ++ a.hooks ∧ ∃ es, a'.edits = a.edits ++ es ∧ EditsOf a.hooks member es := by
  cases member with
  | method signature body =>
    unfold addMember at h
    dsimp only at h
    cases hmethod : CompiledMethod.ofStatements a.hooks signature body with
    | error e =>
      rw [hmethod] at h
      cases h
    | ok m =>
      rw [hmethod] at h
      cases h
      refine ⟨rfl, rfl, rfl, [a.methodEdit signature.kind m], rfl, ?_⟩
      unfold methodEdit
      split
      · rename_i p hkind
        split
        · exact .replaced hmethod ⟨p, Or.inl hkind⟩
        · exact .added hmethod
      · rename_i p hkind
        split
        · exact .replaced hmethod ⟨p, Or.inr hkind⟩
        · exact .added hmethod
      · exact .added hmethod
  | function decl =>
    unfold addMember at h
    dsimp only at h
    cases hbody : CompiledMethod.ofBody decl.name (.detached [decl.param]) decl.body with
    | error e =>
      rw [hbody] at h
      cases h
    | ok m =>
      rw [hbody] at h
      cases h
      exact ⟨rfl, rfl, rfl, _, rfl, .function hbody⟩
  | hook decl =>
    cases h
    refine ⟨rfl, rfl, ?_, [], (List.append_nil _).symm, .hook decl⟩
    unfold GeneratedMember.implementedHook?
    dsimp only
    split <;> rfl
  | property signature =>
    cases h
    exact ⟨rfl, rfl, rfl, _, rfl, .property signature⟩
  | field decl =>
    cases h
    exact ⟨rfl, rfl, rfl, _, rfl, .field decl⟩
  | redirect property setter =>
    cases h
    exact ⟨rfl, rfl, rfl, _, rfl, .redirect property setter⟩

/-- The pieces of members make their edits. -/
theorem add_members {u : PUnit} : ∀ {members : List GeneratedMember} {a : Assembly}, a.current = none →
    (members.flatMap GeneratedMember.fragments).forM add a = .ok u a' → a.addAll members = .ok a'
  | [], a, _, h => by
    cases h
    rfl
  | member :: members, a, hcur, h => by
    rw [List.flatMap_cons] at h
    obtain ⟨a₁, h₁, h⟩ := forM_append_eq_ok.mp h
    have hmember := add_member hcur h₁
    have hcur₁ : a₁.current = none := (addMember_cases hmember).1.trans hcur
    exact addAll_cons_eq_ok.mpr ⟨a₁, hmember, add_members hcur₁ h⟩

theorem className_addAll : ∀ {members : List GeneratedMember} {a : Assembly},
    a.addAll members = .ok a' → a'.className = a.className
  | [], a, h => by
    cases h
    rfl
  | member :: members, a, h => by
    obtain ⟨a₁, h₁, h⟩ := addAll_cons_eq_ok.mp h
    exact (className_addAll h).trans (addMember_cases h₁).2.1

/-- An assembly of a class to which nothing has been added. -/
def begun (className : String) : Assembly := { empty with className := some className }

/-- A module has the edits of all members of its class. -/
theorem ofModel_eq_ok {m : ClassModel} {module : PatchModule} (h : PatchModule.ofModel m = .ok module) :
    ∃ a, (begun m.header.name).addAll m.generatedMembers = .ok a ∧ module = .ofEdits m.header.name a.edits := by
  unfold PatchModule.ofModel at h
  cases hrun : (do m.fragments.forM add; finish : Assembling PatchModule) .empty with
  | error e a =>
    rw [hrun] at h
    cases h
  | ok module' a' =>
    rw [hrun] at h
    cases h
    obtain ⟨_, a, hadd, hfinish⟩ := bind_eq_ok.mp hrun
    obtain ⟨_, a₁, h₁, hadd⟩ := bind_eq_ok.mp (show (add (.beginClass m.header) >>= _) empty = _ from hadd)
    cases h₁
    have hall := add_members rfl (show (m.generatedMembers.flatMap _).forM add (begun m.header.name) = _ from hadd)
    have hname : a.className = some m.header.name := className_addAll hall
    obtain ⟨_, _, h₀, hfinish⟩ := bind_eq_ok.mp (show (get >>= _ : Assembling PatchModule) a = _ from hfinish)
    obtain ⟨rfl, rfl⟩ := get_eq_ok.mp h₀
    rw [hname] at hfinish
    cases hfinish
    exact ⟨_, hall, rfl⟩

/-- The edits of members behind the last hook. -/
theorem editsOf_addAll : ∀ {members : List GeneratedMember} {a : Assembly},
    (∀ member ∈ members, member.implementedHook? = none) → a.addAll members = .ok a' →
      ∃ ess, a'.edits = a.edits ++ ess.flatten ∧ List.Forall₂ (EditsOf a.hooks) members ess
  | [], a, _, h => by
    cases h
    exact ⟨[], (List.append_nil _).symm, .nil⟩
  | member :: members, a, hhook, h => by
    obtain ⟨a₁, h₁, h⟩ := addAll_cons_eq_ok.mp h
    obtain ⟨-, -, hhooks, es, hes, hmember⟩ := addMember_cases h₁
    rw [hhook member List.mem_cons_self] at hhooks
    have hhooks : a₁.hooks = a.hooks := hhooks
    obtain ⟨ess, hess, hmembers⟩ := editsOf_addAll (fun x hx => hhook x (List.mem_cons_of_mem _ hx)) h
    rw [hhooks] at hmembers
    exact ⟨es :: ess, by rw [hess, hes, List.flatten_cons, List.append_assoc], .cons hmember hmembers⟩

/-- The edits of members that are no methods. -/
theorem editsOf_addAll_of_not_method (hooks : List String) : ∀ {members : List GeneratedMember} {a : Assembly},
    (∀ member ∈ members, member.method? = none) → a.addAll members = .ok a' →
      ∃ ess, a'.edits = a.edits ++ ess.flatten ∧ List.Forall₂ (EditsOf hooks) members ess
  | [], a, _, h => by
    cases h
    exact ⟨[], (List.append_nil _).symm, .nil⟩
  | member :: members, a, hmethod, h => by
    obtain ⟨a₁, h₁, h⟩ := addAll_cons_eq_ok.mp h
    obtain ⟨-, -, -, es, hes, hmember⟩ := addMember_cases h₁
    obtain ⟨ess, hess, hmembers⟩ := editsOf_addAll_of_not_method hooks (fun x hx => hmethod x (List.mem_cons_of_mem _ hx)) h
    exact ⟨es :: ess, by rw [hess, hes, List.flatten_cons, List.append_assoc],
      .cons (hmember.of_not_method (hmethod member List.mem_cons_self)) hmembers⟩

/-- The methods of members, one by one. -/
theorem forall₂_methods {hooks : List String} {members : List GeneratedMember} {ess : List (List PatchEdit)}
    (h : List.Forall₂ (EditsOf hooks) members ess) :
    List.Forall₂ (fun method m => CompiledMethod.ofStatements hooks method.1 method.2 = .ok m)
      (members.filterMap GeneratedMember.method?) (ess.flatten.filterMap PatchEdit.instanceMethod?) := by
  induction h with
  | nil => exact .nil
  | @cons member es members ess hmember _ ih =>
    have hcons : (member :: members).filterMap GeneratedMember.method? =
        member.method?.toList ++ members.filterMap GeneratedMember.method? := by
      rw [List.filterMap_cons]
      cases member.method? <;> rfl
    rw [hcons, List.flatten_cons, List.filterMap_append]
    exact List.rel_append hmember.methods ih

/-- The hooks that the class implements, the last one first. -/
theorem hooks_addAll : ∀ {members : List GeneratedMember} {a : Assembly}, a.addAll members = .ok a' →
    a'.hooks = (members.filterMap GeneratedMember.implementedHook?).reverse ++ a.hooks
  | [], a, h => by
    cases h
    rfl
  | member :: members, a, h => by
    obtain ⟨a₁, h₁, h⟩ := addAll_cons_eq_ok.mp h
    rw [hooks_addAll h, (addMember_cases h₁).2.2.1, List.filterMap_cons]
    cases member.implementedHook? <;> simp

end Assembly

end Reactive
