import Mathlib.Tactic.Common
import Reactive.Declaration.Parser
import Reactive.Proofs.Consuming

/-!
# Reactive.Proofs.Sites — where the spans of a file come from

Every span in a file, and the place of every error, is the span of a token or of the end, or joins two such spans.

* `Site I P`: what a cursor keeps while tokens are read (`I`), and what holds of the spans it gives and of their
  joins (`P`).
* `Sited I P V x`: however the rule `x` ends, the cursor has kept `I`; its value has `V`, or the place of its error `P`.
  A lemma for each rule of the grammar.
* `sited_file`: so it is for a whole file, in which reading goes on behind errors.
-/

namespace Reactive

open Stateful

/-! ### The spans of a file -/

namespace Expr

mutual

/-- An expression and all expressions inside it. -/
def nodes : Expr → List Expr
  | literal v s => [literal v s]
  | name n s => [name n s]
  | this s => [this s]
  | member o n s => member o n s :: nodes o
  | call c as s => call c as s :: (nodes c ++ nodesList as)
  | unary op e s => unary op e s :: nodes e
  | binary op l r s => binary op l r s :: (nodes l ++ nodes r)
  | conditional c t e s => conditional c t e s :: (nodes c ++ nodes t ++ nodes e)
  | lambda st p b s => lambda st p b s :: nodes b

/-- Expressions and all expressions inside them. -/
def nodesList : List Expr → List Expr
  | [] => []
  | e :: es => nodes e ++ nodesList es

end

theorem nodesList_eq_flatMap (es : List Expr) : nodesList es = es.flatMap nodes := by
  induction es with
  | nil => rfl
  | cons e es ih => rw [nodesList, ih, List.flatMap_cons]

/-- Every span in an expression has the property. -/
def Sited (P : Span → Prop) (e : Expr) : Prop := ∀ n ∈ e.nodes, P n.span

end Expr

/-- Every span of an attribute has the property. -/
structure Attribute.Sited (P : Span → Prop) (a : Attribute) : Prop where
  args : ∀ arg ∈ a.args, P arg.span
  span : P a.span

/-- Every span of an accessor has the property. -/
structure Accessor.Sited (P : Span → Prop) (a : Accessor) : Prop where
  body : ∀ e ∈ a.body, e.Sited P
  span : P a.span

/-- Every span of a property has the property `P`. -/
structure PropertyDecl.Sited (P : Span → Prop) (p : PropertyDecl) : Prop where
  getter : ∀ a ∈ p.getter, a.Sited P
  setter : ∀ a ∈ p.setter, a.Sited P
  initializer : ∀ e ∈ p.initializer, e.Sited P

/-- Every span of a method has the property. -/
structure MethodDecl.Sited (P : Span → Prop) (m : MethodDecl) : Prop where
  params : ∀ p ∈ m.params, P p.span
  body : ∀ e ∈ m.body, e.Sited P

/-- Every span of what kind of member it is has the property. -/
def MemberKind.Sited (P : Span → Prop) : MemberKind → Prop
  | .property p => p.Sited P
  | .method m => m.Sited P

/-- Every span of a member has the property. -/
structure MemberDecl.Sited (P : Span → Prop) (m : MemberDecl) : Prop where
  attributes : ∀ a ∈ m.attributes, a.Sited P
  kind : m.kind.Sited P
  nameSpan : P m.nameSpan
  span : P m.span

/-- Every span of a class has the property. -/
structure ClassDecl.Sited (P : Span → Prop) (c : ClassDecl) : Prop where
  members : ∀ m ∈ c.members, m.Sited P
  nameSpan : P c.nameSpan
  span : P c.span

namespace Expr

variable {P : Span → Prop} {s : Span}

theorem Sited.span {e : Expr} (h : e.Sited P) : P e.span := by
  refine h e ?_
  cases e <;> exact List.mem_cons_self

/-- A node with nothing inside. -/
theorem sited_leaf {e : Expr} (hs : P e.span) (h : e.nodes = [e]) : e.Sited P := by
  intro n hn
  rw [h] at hn
  exact List.mem_singleton.mp hn ▸ hs

/-- A node, and the nodes inside it. -/
theorem sited_of_nodes {e : Expr} {inner : List Expr} (h : e.nodes = e :: inner) (hs : P e.span)
    (hinner : ∀ n ∈ inner, P n.span) : e.Sited P := by
  intro n hn
  rw [h] at hn
  obtain rfl | hn := List.mem_cons.mp hn
  · exact hs
  · exact hinner n hn

/-- Nodes inside one part or another. -/
theorem nodes_append {xs ys : List Expr} (hx : ∀ n ∈ xs, P n.span) (hy : ∀ n ∈ ys, P n.span) :
    ∀ n ∈ xs ++ ys, P n.span := fun n hn => (List.mem_append.mp hn).elim (hx n) (hy n)

theorem nodes_flatMap {es : List Expr} (h : ∀ e ∈ es, e.Sited P) : ∀ n ∈ nodesList es, P n.span := by
  intro n hn
  rw [nodesList_eq_flatMap] at hn
  obtain ⟨e, he, hn⟩ := List.mem_flatMap.mp hn
  exact h e he n hn

/-- Parentheses around an expression. -/
theorem Sited.withSpan {e : Expr} (h : e.Sited P) (hs : P s) : (e.withSpan s).Sited P := by
  have hroot : P (e.withSpan s).span := by rwa [span_withSpan]
  have hinner (inner : List Expr) (he : e.nodes = e :: inner) : ∀ n ∈ inner, P n.span := fun n hn =>
    h n (he ▸ List.mem_cons_of_mem _ hn)
  cases e <;> exact sited_of_nodes rfl hroot (hinner _ rfl)

end Expr

/-! ### Cursors and their spans -/

/-- What a cursor keeps while tokens are read, and what holds of the spans it gives and of their joins. -/
structure Site (I : Cursor → Prop) (P : Span → Prop) : Prop where
  advance : ∀ {c}, I c → I c.advance
  currentSpan : ∀ {c}, I c → P c.currentSpan
  previousSpan : ∀ {c}, I c → P c.previousSpan
  through : ∀ {a b}, P a → P b → P (a.through b)

section

variable {α : Type} {V : α → Prop}

theorem forall_mem_none : ∀ a ∈ (none : Option α), V a := by
  rintro _ ⟨⟩

theorem forall_mem_some {a : α} (h : V a) : ∀ b ∈ some a, V b := by
  rintro _ ⟨⟩
  exact h

end

namespace Parse

/-- The clause of a namespace: its name, if it is well formed, and what has to follow. -/
theorem namespaceClause_eq {c : Cursor} (h : c.current = .keyword .namespace_) : ∃ name errors c',
    ((∃ n, qualifiedName c.advance = .ok n c' ∧ errors = []) ∨
      ∃ e, qualifiedName c.advance = .error e c' ∧ errors = [e]) ∧
      namespaceClause c =
        if c'.current = .symbol .leftBrace then (name, true, errors, c'.advance)
        else match expect (.symbol .semicolon) c' with
          | .ok _ c => (name, false, errors, c)
          | .error e c => (name, false, errors ++ [e], c) := by
  unfold namespaceClause
  rw [if_pos h]
  cases qualifiedName c.advance with
  | ok n c' => exact ⟨some n, [], c', .inl ⟨n, rfl, rfl⟩, rfl⟩
  | error e c' => exact ⟨none, [e], c', .inr ⟨e, rfl, rfl⟩, rfl⟩

/-- However a rule ends, the cursor has kept `I`; its value has `V`, or the place of its error has `P`. -/
def Sited {α : Type} (I : Cursor → Prop) (P : Span → Prop) (V : α → Prop) (x : Parse α) : Prop :=
  ∀ c, I c → match x c with
    | .ok a c' => V a ∧ I c'
    | .error e c' => P e.span ∧ I c'

variable {I : Cursor → Prop} {P : Span → Prop} {α β : Type} {V : α → Prop} {W : β → Prop} {x : Parse α}
  {f : α → Parse β} {c : Cursor}

/-- Anything may be the value. -/
abbrev Any (_ : α) : Prop := True

theorem Sited.bind (hx : Sited I P V x) (hf : ∀ a, V a → Sited I P W (f a)) : Sited I P W (x >>= f) := by
  intro c hc
  have hfirst := hx c hc
  rw [bind_apply]
  cases hrun : x c with
  | ok a c' =>
    rw [hrun] at hfirst
    exact hf a hfirst.1 c' hfirst.2
  | error e c' =>
    rw [hrun] at hfirst
    exact hfirst

theorem sited_pure {a : α} (ha : V a) : Sited I P V (pure a) := fun _ hc => ⟨ha, hc⟩

theorem sited_any (a : α) : Sited I P Any (pure a) := sited_pure trivial

theorem sited_get {f : Cursor → Parse β} (hf : ∀ c, I c → Sited I P W (f c)) : Sited I P W (get >>= f) :=
  fun c hc => hf c hc c hc

theorem sited_current : Sited I P Any current := fun _ hc => ⟨trivial, hc⟩

theorem sited_remaining : Sited I P Any remaining := fun _ hc => ⟨trivial, hc⟩

theorem sited_check (t : Token) : Sited I P Any (check t) := fun _ hc => ⟨trivial, hc⟩

theorem sited_ite {b : Prop} [Decidable b] {y : Parse α} (hx : Sited I P V x) (hy : Sited I P V y) :
    Sited I P V (if b then x else y) := by
  split
  · exact hx
  · exact hy

section

variable (site : Site I P)

include site

theorem sited_currentSpan : Sited I P P currentSpan := fun _ hc => ⟨site.currentSpan hc, hc⟩

theorem sited_previousSpan : Sited I P P previousSpan := fun _ hc => ⟨site.previousSpan hc, hc⟩

theorem sited_advance : Sited I P Any advance := fun _ hc => ⟨trivial, site.advance hc⟩

theorem sited_fail (fault : ParseFault) : Sited I P V (fail fault) := fun _ hc => ⟨site.currentSpan hc, hc⟩

theorem sited_unexpected (expected : List Token) : Sited I P V (unexpected expected) :=
  fun _ hc => ⟨site.currentSpan hc, hc⟩

/-! ### Single tokens -/

theorem sited_accept (t : Token) : Sited I P Any (accept t) := by
  refine (sited_check t).bind fun b _ => sited_ite ?_ (sited_any _)
  exact (sited_advance site).bind fun _ _ => sited_any _

theorem sited_expect (t : Token) : Sited I P Any (expect t) := by
  refine (sited_accept site t).bind fun b _ => ?_
  cases b with
  | true => exact sited_any _
  | false => exact sited_unexpected site [t]

theorem sited_identifier : Sited I P (fun found => P found.2) identifier := by
  refine (sited_currentSpan site).bind fun span hspan => sited_current.bind fun t _ => ?_
  cases t with
  | identifier name => exact (sited_advance site).bind fun _ _ => sited_pure hspan
  | _ => exact sited_unexpected site _

/-! ### Lists -/

theorem sited_separated (hx : Sited I P V x) : ∀ n : Nat, Sited I P (fun as => ∀ a ∈ as, V a) (separated x n)
  | 0 => hx.bind fun a ha => sited_pure (List.forall_mem_singleton.mpr ha)
  | n + 1 => by
    refine hx.bind fun a ha => (sited_accept site _).bind fun b _ => ?_
    refine sited_ite ?_ (sited_pure (List.forall_mem_singleton.mpr ha))
    exact (sited_separated hx n).bind fun as has => sited_pure (List.forall_mem_cons.mpr ⟨ha, has⟩)

theorem sited_listedBefore (hx : Sited I P V x) (close : Token) :
    ∀ n : Nat, Sited I P (fun as => ∀ a ∈ as, V a) (listedBefore close x n)
  | 0 => by
    refine (sited_check close).bind fun b _ => sited_ite (sited_pure (List.forall_mem_nil _)) ?_
    exact hx.bind fun a ha => sited_pure (List.forall_mem_singleton.mpr ha)
  | n + 1 => by
    rw [listedBefore_succ]
    refine (sited_check close).bind fun b _ => sited_ite (sited_pure (List.forall_mem_nil _)) ?_
    refine hx.bind fun a ha => (sited_accept site _).bind fun b _ => ?_
    refine sited_ite ?_ (sited_pure (List.forall_mem_singleton.mpr ha))
    exact (sited_listedBefore hx close n).bind fun as has => sited_pure (List.forall_mem_cons.mpr ⟨ha, has⟩)

theorem sited_dotted : ∀ (n : Nat) (name : String), Sited I P Any (dotted name n)
  | 0, _ => sited_any _
  | n + 1, name => by
    refine (sited_accept site _).bind fun b _ => sited_ite ?_ (sited_any _)
    exact (sited_identifier site).bind fun (segment, _) _ => sited_dotted n _

theorem sited_qualifiedName : Sited I P Any qualifiedName :=
  (sited_identifier site).bind fun (name, _) _ => sited_remaining.bind fun n _ => sited_dotted site n name

/-! ### Types -/

theorem sited_typeWithin : ∀ n : Nat, Sited I P Any (typeWithin n)
  | 0 => (sited_qualifiedName site).bind fun name _ => (sited_accept site _).bind fun b _ => sited_any _
  | n + 1 => by
    refine (sited_qualifiedName site).bind fun name _ => (sited_accept site _).bind fun b _ => ?_
    have hnullable (args : List TypeRef) :
        Sited I P Any (do return ⟨name, args, ← accept (.symbol .question)⟩ : Parse TypeRef) :=
      (sited_accept site _).bind fun b _ => sited_any _
    refine sited_ite (sited_remaining.bind fun k _ => ?_) ((sited_any _).bind fun args _ => hnullable args)
    refine (sited_separated site (sited_typeWithin n) k).bind fun args _ => (sited_expect site _).bind fun _ _ => ?_
    exact (sited_any _).bind fun args _ => hnullable args

theorem sited_type : Sited I P Any type := sited_remaining.bind fun n _ => sited_typeWithin site n

/-! ### Expressions -/

theorem sited_atom {build : Span → Expr} (hspan : ∀ s, (build s).span = s)
    (hnodes : ∀ s, (build s).nodes = [build s]) : Sited I P (Expr.Sited P) (atom build) := by
  refine (sited_currentSpan site).bind fun s hs => (sited_advance site).bind fun _ _ => sited_pure ?_
  exact Expr.sited_leaf ((hspan s).symm ▸ hs) (hnodes s)

section

variable {sub : Nat → Parse Expr} (hsub : ∀ least, Sited I P (Expr.Sited P) (sub least))

include hsub

theorem sited_lambda : Sited I P (Expr.Sited P) (lambda sub) := by
  refine (sited_currentSpan site).bind fun start hstart => (sited_accept site _).bind fun isStatic _ => ?_
  refine (sited_identifier site).bind fun (param, _) _ => (sited_expect site _).bind fun _ _ => ?_
  refine (hsub 0).bind fun body hbody => sited_pure ?_
  exact Expr.sited_of_nodes rfl (site.through hstart hbody.span) hbody

theorem sited_operand : Sited I P (Expr.Sited P) (operand sub) := by
  refine (sited_currentSpan site).bind fun span hspan => sited_current.bind fun t _ => ?_
  have hatom {build : Span → Expr} (h₁ : ∀ s, (build s).span = s) (h₂ : ∀ s, (build s).nodes = [build s]) :
      Sited I P (Expr.Sited P) (atom build) := sited_atom site h₁ h₂
  have hsign (op : UnaryOp) : Sited I P (Expr.Sited P) (do
      advance
      let e ← sub 9
      return .unary op e (span.through e.span)) := by
    refine (sited_advance site).bind fun _ _ => (hsub 9).bind fun e he => sited_pure ?_
    exact Expr.sited_of_nodes rfl (site.through hspan he.span) he
  cases t with
  | integer v => exact hatom (fun _ => rfl) fun _ => rfl
  | float v => exact hatom (fun _ => rfl) fun _ => rfl
  | string v => exact hatom (fun _ => rfl) fun _ => rfl
  | identifier name =>
    exact sited_get fun c _ => sited_ite (sited_lambda site hsub) (hatom (fun _ => rfl) fun _ => rfl)
  | keyword k =>
    cases k with
    | true_ | false_ | null | this => exact hatom (fun _ => rfl) fun _ => rfl
    | static => exact sited_lambda site hsub
    | _ => exact sited_fail site _
  | symbol y =>
    cases y with
    | bang => exact hsign .not
    | minus => exact hsign .negate
    | leftParen =>
      refine (sited_advance site).bind fun _ _ => (hsub 0).bind fun inner hinner => ?_
      refine (sited_expect site _).bind fun _ _ => (sited_previousSpan site).bind fun stop hstop => sited_pure ?_
      exact hinner.withSpan (site.through hspan hstop)
    | _ => exact sited_fail site _
  | endOfFile => exact sited_fail site _

theorem sited_extend {left : Expr} (hleft : left.Sited P) : Sited I P (Expr.Sited P) (extend sub left) := by
  unfold extend
  refine sited_current.bind fun t _ => ?_
  split
  · refine (sited_advance site).bind fun _ _ => (sited_identifier site).bind fun (name, span) hspan => sited_pure ?_
    exact Expr.sited_of_nodes rfl (site.through hleft.span hspan) hleft
  · refine (sited_advance site).bind fun _ _ => sited_remaining.bind fun n _ => ?_
    refine (sited_listedBefore site (hsub 0) _ n).bind fun args hargs => (sited_expect site _).bind fun _ _ => ?_
    refine (sited_previousSpan site).bind fun stop hstop => sited_pure ?_
    exact Expr.sited_of_nodes rfl (site.through hleft.span hstop) (Expr.nodes_append hleft (Expr.nodes_flatMap hargs))
  · refine (sited_advance site).bind fun _ _ => (hsub 0).bind fun thenBranch hthen => ?_
    refine (sited_expect site _).bind fun _ _ => (hsub 0).bind fun elseBranch helse => sited_pure ?_
    refine Expr.sited_of_nodes rfl (site.through hleft.span helse.span) ?_
    exact Expr.nodes_append (Expr.nodes_append hleft hthen) helse
  · split
    · refine (sited_advance site).bind fun _ _ => (hsub _).bind fun right hright => sited_pure ?_
      exact Expr.sited_of_nodes rfl (site.through hleft.span hright.span) (Expr.nodes_append hleft hright)
    · exact sited_pure hleft
  · exact sited_pure hleft

theorem sited_chain (least : Nat) :
    ∀ (n : Nat) {left : Expr}, left.Sited P → Sited I P (Expr.Sited P) (chain sub least n left)
  | 0, _, hleft => sited_pure hleft
  | n + 1, _, hleft => by
    refine sited_current.bind fun t _ => sited_ite ?_ (sited_pure hleft)
    exact (sited_extend site hsub hleft).bind fun e he => sited_chain least n he

end

theorem sited_expressionWithin : ∀ depth least : Nat, Sited I P (Expr.Sited P) (expressionWithin depth least)
  | 0, _ => sited_fail site .tooDeep
  | depth + 1, least =>
    (sited_operand site (sited_expressionWithin depth)).bind fun _ hleft =>
      sited_remaining.bind fun n _ => sited_chain site (sited_expressionWithin depth) least n hleft

theorem sited_expression : Sited I P (Expr.Sited P) expression := sited_expressionWithin site maxDepth 0

/-! ### Attributes and modifiers -/

theorem sited_constant : Sited I P Any constant := by
  have hadvance (k : Constant) : Sited I P Any (do advance; return k) :=
    (sited_advance site).bind fun _ _ => sited_any _
  refine sited_current.bind fun t _ => ?_
  cases t with
  | string s => exact hadvance _
  | integer i => exact hadvance _
  | float x => exact hadvance _
  | keyword k =>
    cases k with
    | true_ | false_ | null => exact hadvance _
    | _ => exact sited_fail site _
  | symbol y =>
    cases y with
    | minus =>
      refine (sited_advance site).bind fun _ _ => sited_current.bind fun t _ => ?_
      cases t with
      | integer i => exact hadvance _
      | float x => exact hadvance _
      | _ => exact sited_unexpected site _
    | _ => exact sited_fail site _
  | identifier word =>
    refine sited_get fun c _ => sited_ite ?_ ((sited_qualifiedName site).bind fun path _ => sited_any _)
    refine (sited_advance site).bind fun _ _ => (sited_advance site).bind fun _ _ => ?_
    exact (sited_qualifiedName site).bind fun path _ => (sited_expect site _).bind fun _ _ => sited_any _
  | endOfFile => exact sited_fail site _

theorem sited_attributeArg : Sited I P (fun arg => P arg.span) attributeArg := by
  refine (sited_currentSpan site).bind fun start hstart => sited_get fun c _ => ?_
  have hvalue (name : Option String) : Sited I P (fun arg => P arg.span) (do
      let value ← constant
      return ⟨name, value, start.through (← previousSpan)⟩ : Parse AttributeArg) :=
    (sited_constant site).bind fun value _ => (sited_previousSpan site).bind fun stop hstop =>
      sited_pure (site.through hstart hstop)
  refine sited_ite ?_ ((sited_any _).bind fun name _ => hvalue name)
  refine (sited_identifier site).bind fun (name, _) _ => (sited_expect site _).bind fun _ _ => ?_
  exact (sited_any _).bind fun name _ => hvalue name

theorem sited_attributeItem : Sited I P (Attribute.Sited P) attributeItem := by
  refine (sited_currentSpan site).bind fun start hstart => (sited_qualifiedName site).bind fun name _ => ?_
  have hargs (args : List AttributeArg) (h : ∀ arg ∈ args, P arg.span) : Sited I P (Attribute.Sited P)
      (do return ⟨attributeName name, args, start.through (← previousSpan)⟩ : Parse Attribute) :=
    (sited_previousSpan site).bind fun stop hstop => sited_pure ⟨h, site.through hstart hstop⟩
  refine (sited_accept site _).bind fun b _ => sited_ite (sited_remaining.bind fun n _ => ?_) ?_
  · refine (sited_listedBefore site (sited_attributeArg site) _ n).bind fun args h => ?_
    exact (sited_expect site _).bind fun _ _ => (sited_pure h).bind hargs
  · exact (sited_pure (List.forall_mem_nil _)).bind hargs

theorem sited_attributesWithin : ∀ n : Nat, Sited I P (fun as => ∀ a ∈ as, Attribute.Sited P a) (attributesWithin n)
  | 0 => sited_pure (List.forall_mem_nil _)
  | n + 1 => by
    refine (sited_accept site _).bind fun b _ => sited_ite ?_ (sited_pure (List.forall_mem_nil _))
    refine sited_remaining.bind fun k _ => ?_
    refine (sited_separated site (sited_attributeItem site) k).bind fun group hgroup => ?_
    refine (sited_expect site _).bind fun _ _ => (sited_attributesWithin n).bind fun rest hrest => sited_pure ?_
    exact List.forall_mem_append.mpr ⟨hgroup, hrest⟩

theorem sited_attributes : Sited I P (fun as => ∀ a ∈ as, Attribute.Sited P a) attributes :=
  sited_remaining.bind fun n _ => sited_attributesWithin site n

theorem sited_modifiersWithin : ∀ n : Nat, Sited I P Any (modifiersWithin n)
  | 0 => sited_any _
  | n + 1 => by
    have hrest (m : Modifier) : Sited I P Any (do return m :: (← modifiersWithin n)) :=
      (sited_modifiersWithin n).bind fun rest _ => sited_any _
    refine (sited_accept site _).bind fun b _ => sited_ite (hrest _) (sited_get fun c _ => ?_)
    split
    · exact sited_ite ((sited_advance site).bind fun _ _ => hrest _) (sited_any _)
    · exact sited_any _

theorem sited_modifiers : Sited I P Any modifiers := sited_remaining.bind fun n _ => sited_modifiersWithin site n

/-! ### Members -/

theorem sited_body? : Sited I P (fun body => ∀ e ∈ body, Expr.Sited P e) body? := by
  refine (sited_accept site _).bind fun b _ => sited_ite ?_ (sited_pure forall_mem_none)
  exact (sited_expression site).bind fun e he => sited_pure (forall_mem_some he)

theorem sited_param : Sited I P (fun p => P p.span) param := by
  refine (sited_currentSpan site).bind fun start hstart => (sited_type site).bind fun type _ => ?_
  refine (sited_identifier site).bind fun (name, _) _ => (sited_previousSpan site).bind fun stop hstop => ?_
  exact sited_pure (site.through hstart hstop)

theorem sited_methodRest (returnType : TypeRef) : Sited I P (MethodDecl.Sited P) (methodRest returnType) := by
  refine (sited_expect site _).bind fun _ _ => sited_remaining.bind fun n _ => ?_
  refine (sited_listedBefore site (sited_param site) _ n).bind fun params hparams => ?_
  refine (sited_expect site _).bind fun _ _ => (sited_body? site).bind fun body hbody => ?_
  exact (sited_expect site _).bind fun _ _ => sited_pure ⟨hparams, hbody⟩

theorem sited_skipAccessibility : ∀ n : Nat, Sited I P Any (skipAccessibility n)
  | 0 => sited_any _
  | n + 1 => by
    refine sited_current.bind fun t _ => ?_
    split
    · exact sited_ite ((sited_advance site).bind fun _ _ => sited_skipAccessibility n) (sited_any _)
    · exact sited_any _

theorem sited_accessorRest : Sited I P (Accessor.Sited P) accessorRest := by
  refine (sited_currentSpan site).bind fun span hspan => (sited_advance site).bind fun _ _ => ?_
  refine (sited_body? site).bind fun body hbody => (sited_expect site _).bind fun _ _ => ?_
  exact (sited_previousSpan site).bind fun stop hstop => sited_pure ⟨hbody, site.through hspan hstop⟩

/-- The accessors that may have been read. -/
abbrev SitedPair (P : Span → Prop) (pair : Option Accessor × Option Accessor) : Prop :=
  (∀ a ∈ pair.1, Accessor.Sited P a) ∧ ∀ a ∈ pair.2, Accessor.Sited P a

theorem sited_accessors : ∀ (n : Nat) {getter setter : Option Accessor}, SitedPair P (getter, setter) →
    Sited I P (SitedPair P) (accessors n getter setter)
  | 0, _, _, _ => sited_current.bind fun t _ => sited_fail site _
  | n + 1, getter, setter, h => by
    refine (sited_check _).bind fun b _ => sited_ite (sited_pure h) (sited_remaining.bind fun k _ => ?_)
    refine (sited_skipAccessibility site k).bind fun _ _ => sited_current.bind fun t _ => ?_
    have hget : Sited I P (SitedPair P) (do accessors n (some (← accessorRest)) setter) :=
      (sited_accessorRest site).bind fun a ha => sited_accessors n ⟨forall_mem_some ha, h.2⟩
    have hset : Sited I P (SitedPair P) (do accessors n getter (some (← accessorRest))) :=
      (sited_accessorRest site).bind fun a ha => sited_accessors n ⟨h.1, forall_mem_some ha⟩
    cases t with
    | identifier word =>
      dsimp only
      split
      · exact sited_ite (sited_fail site _) hget
      · split
        · exact sited_ite (sited_fail site _) hset
        · exact sited_fail site _
    | _ => exact sited_fail site _

theorem sited_propertyRest (type : TypeRef) : Sited I P (PropertyDecl.Sited P) (propertyRest type) := by
  refine (sited_expect site _).bind fun _ _ => sited_remaining.bind fun n _ => ?_
  refine (sited_accessors site n ⟨forall_mem_none, forall_mem_none⟩).bind ?_
  rintro ⟨getter, setter⟩ ⟨hgetter, hsetter⟩
  refine (sited_expect site _).bind fun _ _ => (sited_accept site _).bind fun b _ => sited_ite ?_ ?_
  · refine (sited_expression site).bind fun value hvalue => (sited_expect site _).bind fun _ _ => ?_
    exact (sited_pure (forall_mem_some hvalue)).bind fun _ h => sited_pure ⟨hgetter, hsetter, h⟩
  · exact (sited_pure forall_mem_none).bind fun _ h => sited_pure ⟨hgetter, hsetter, h⟩

theorem sited_arrowProperty (type : TypeRef) : Sited I P (PropertyDecl.Sited P) (arrowProperty type) := by
  refine (sited_currentSpan site).bind fun arrow harrow => (sited_advance site).bind fun _ _ => ?_
  refine (sited_expression site).bind fun body hbody => (sited_expect site _).bind fun _ _ => ?_
  refine (sited_previousSpan site).bind fun stop hstop => sited_pure ?_
  exact ⟨forall_mem_some ⟨forall_mem_some hbody, site.through harrow hstop⟩, forall_mem_none, forall_mem_none⟩

theorem sited_memberRest (type : TypeRef) : Sited I P (MemberKind.Sited P) (memberRest type) := by
  refine sited_current.bind fun t _ => ?_
  cases t with
  | symbol y =>
    cases y with
    | leftParen => exact (sited_methodRest site type).bind fun m hm => sited_pure hm
    | arrow => exact (sited_arrowProperty site type).bind fun p hp => sited_pure hp
    | leftBrace => exact (sited_propertyRest site type).bind fun p hp => sited_pure hp
    | _ => exact sited_unexpected site _
  | _ => exact sited_unexpected site _

theorem sited_member : Sited I P (MemberDecl.Sited P) member := by
  refine (sited_currentSpan site).bind fun start hstart => (sited_attributes site).bind fun attributes hattributes => ?_
  refine (sited_modifiers site).bind fun modifiers _ => (sited_type site).bind fun type _ => ?_
  refine (sited_identifier site).bind fun (name, nameSpan) hname => ?_
  refine (sited_memberRest site type).bind fun kind hkind => ?_
  refine (sited_previousSpan site).bind fun stop hstop => sited_pure ?_
  exact ⟨hattributes, hkind, hname, site.through hstart hstop⟩

/-! ### Classes -/

theorem sited_classHeader : Sited I P (ClassDecl.Sited P) classHeader := by
  refine (sited_currentSpan site).bind fun start hstart => (sited_attributes site).bind fun attributes _ => ?_
  refine (sited_modifiers site).bind fun modifiers _ => (sited_expect site _).bind fun _ _ => ?_
  refine (sited_identifier site).bind fun (name, nameSpan) hname => ?_
  have hbrace (typeParams : List String) (bases : List TypeRef) : Sited I P (ClassDecl.Sited P) (do
      expect (.symbol .leftBrace)
      return ⟨name, typeParams, modifiers, bases, [], nameSpan, start⟩ : Parse ClassDecl) :=
    (sited_expect site _).bind fun _ _ => sited_pure ⟨List.forall_mem_nil _, hname, hstart⟩
  have hbases (typeParams : List String) : Sited I P (ClassDecl.Sited P) (do
      let bases ← if ← accept (.symbol .colon) then separated type (← remaining) else pure []
      expect (.symbol .leftBrace)
      return ⟨name, typeParams, modifiers, bases, [], nameSpan, start⟩ : Parse ClassDecl) := by
    refine (sited_accept site _).bind fun b _ => sited_ite (sited_remaining.bind fun n _ => ?_) ?_
    · exact (sited_separated site (sited_type site) n).bind fun bases _ => hbrace typeParams bases
    · exact (sited_any _).bind fun bases _ => hbrace typeParams bases
  have hname : Sited I P Any (Prod.fst <$> identifier) := by
    rw [map_eq_pure_bind]
    exact (sited_identifier site).bind fun name _ => sited_any _
  refine (sited_accept site _).bind fun b _ => sited_ite (sited_remaining.bind fun n _ => ?_) ?_
  · refine (sited_separated site hname n).bind fun params _ => (sited_expect site _).bind fun _ _ => ?_
    exact (sited_any _).bind fun params _ => hbases params
  · exact (sited_any _).bind fun params _ => hbases params

/-! ### Behind errors -/

theorem kept_skipTo (p : Token → Bool) {stop : Span} : ∀ {ts : Tokens} {previous : Option Span},
    I ⟨previous, ts, stop⟩ → I (Cursor.skipTo p previous stop ts)
  | [], _, h => h
  | t :: ts, previous, h => by
    unfold Cursor.skipTo
    split
    · exact h
    · exact kept_skipTo p (site.advance h)

theorem kept_pastSemicolon (h : I c) : I c.pastSemicolon := site.advance (kept_skipTo site _ h)

theorem kept_classStart (h : I c) : I c.classStart := kept_skipTo site _ (site.advance h)

theorem kept_skipMember {stop : Span} : ∀ {ts : Tokens} {depth : Nat} {previous : Option Span},
    I ⟨previous, ts, stop⟩ → I (Cursor.skipMember previous stop depth ts)
  | [], _, _, h => h
  | (t, s) :: ts, depth, previous, h => by
    have hnext : I ⟨some s, ts, stop⟩ := site.advance h
    unfold Cursor.skipMember
    split
    · exact kept_skipMember hnext
    · split
      · split
        · exact h
        · dsimp only
          split
          · exact site.advance hnext
          · exact hnext
        · exact kept_skipMember hnext
      · split
        · exact hnext
        · exact kept_skipMember hnext

theorem kept_memberEnd (h : I c) : I c.memberEnd := kept_skipMember site h

/-- What is read behind errors. -/
structure SitedRun (I : Cursor → Prop) (P : Span → Prop) (errors : List ParseError) (c : Cursor) : Prop where
  errors : ∀ e ∈ errors, P e.span
  kept : I c

theorem sited_members : ∀ (n : Nat) {c : Cursor}, I c →
    (∀ m ∈ (members n c).1, m.Sited P) ∧ SitedRun I P (members n c).2.1 (members n c).2.2
  | 0, _, h => ⟨List.forall_mem_nil _, List.forall_mem_nil _, h⟩
  | n + 1, c, h => by
    unfold members
    split
    · exact ⟨List.forall_mem_nil _, List.forall_mem_nil _, h⟩
    · have hmember := sited_member site c h
      cases hrun : member c with
      | ok m c' =>
        rw [hrun] at hmember
        obtain ⟨hms, herrors, hkept⟩ := sited_members n hmember.2
        exact ⟨List.forall_mem_cons.mpr ⟨hmember.1, hms⟩, herrors, hkept⟩
      | error e c' =>
        rw [hrun] at hmember
        obtain ⟨hms, herrors, hkept⟩ := sited_members n (kept_memberEnd site hmember.2)
        exact ⟨hms, List.forall_mem_cons.mpr ⟨hmember.1, herrors⟩, hkept⟩

theorem sited_classDecl (h : I c) :
    (∀ d ∈ (classDecl c).1, d.Sited P) ∧ SitedRun I P (classDecl c).2.1 (classDecl c).2.2 := by
  have hheader := sited_classHeader site c h
  unfold classDecl
  cases hrun : classHeader c with
  | error e c' =>
    rw [hrun] at hheader
    exact ⟨forall_mem_none, List.forall_mem_singleton.mpr hheader.1, hheader.2⟩
  | ok header c' =>
    rw [hrun] at hheader
    obtain ⟨hms, herrors, hkept⟩ := sited_members site c'.tokens.length hheader.2
    rcases hmembers : members c'.tokens.length c' with ⟨ms, errors, c''⟩
    rw [hmembers] at hms herrors hkept
    have hend := sited_expect site (.symbol .rightBrace) c'' hkept
    simp only [hmembers]
    cases hbrace : expect (.symbol .rightBrace) c'' with
    | error e c₃ =>
      rw [hbrace] at hend
      exact ⟨forall_mem_none, List.forall_mem_append.mpr ⟨herrors, List.forall_mem_singleton.mpr hend.1⟩, hend.2⟩
    | ok u c₃ =>
      rw [hbrace] at hend
      refine ⟨forall_mem_some ?_, herrors, hend.2⟩
      exact ⟨hms, hheader.1.nameSpan, site.through hheader.1.span (site.previousSpan hend.2)⟩

theorem sited_classes (braced : Bool) : ∀ (n : Nat) {c : Cursor}, I c →
    (∀ d ∈ (classes braced n c).1, d.Sited P) ∧ SitedRun I P (classes braced n c).2.1 (classes braced n c).2.2
  | 0, _, h => ⟨List.forall_mem_nil _, List.forall_mem_nil _, h⟩
  | n + 1, c, h => by
    unfold classes
    split
    · exact ⟨List.forall_mem_nil _, List.forall_mem_nil _, h⟩
    · have hclass := sited_classDecl site h
      rcases hrun : classDecl c with ⟨d | d, errors, c'⟩
      · rw [hrun] at hclass
        obtain ⟨hds, hmore, hkept⟩ := sited_classes braced n (kept_classStart site hclass.2.kept)
        exact ⟨hds, List.forall_mem_append.mpr ⟨hclass.2.errors, hmore⟩, hkept⟩
      · rw [hrun] at hclass
        obtain ⟨hds, hmore, hkept⟩ := sited_classes braced n hclass.2.kept
        exact ⟨List.forall_mem_cons.mpr ⟨hclass.1 d rfl, hds⟩,
          List.forall_mem_append.mpr ⟨hclass.2.errors, hmore⟩, hkept⟩

/-! ### Files -/

theorem sited_usingDirective : Sited I P Any usingDirective :=
  (sited_expect site _).bind fun _ _ => (sited_qualifiedName site).bind fun path _ =>
    (sited_expect site _).bind fun _ _ => sited_any path

theorem sited_usings : ∀ (n : Nat) {c : Cursor}, I c → SitedRun I P (usings n c).2.1 (usings n c).2.2
  | 0, _, h => ⟨List.forall_mem_nil _, h⟩
  | n + 1, c, h => by
    unfold usings
    split
    · have hdirective := sited_usingDirective site c h
      cases hrun : usingDirective c with
      | ok path c' =>
        rw [hrun] at hdirective
        exact sited_usings n hdirective.2
      | error e c' =>
        rw [hrun] at hdirective
        have hrest := sited_usings n (kept_pastSemicolon site hdirective.2)
        exact ⟨List.forall_mem_cons.mpr ⟨hdirective.1, hrest.errors⟩, hrest.kept⟩
    · exact ⟨List.forall_mem_nil _, h⟩

theorem sited_namespaceClause (h : I c) : SitedRun I P (namespaceClause c).2.2.1 (namespaceClause c).2.2.2 := by
  by_cases hword : c.current = .keyword .namespace_
  · have hname := sited_qualifiedName site c.advance (site.advance h)
    obtain ⟨name, errors, c', hrun, hclause⟩ := namespaceClause_eq hword
    obtain ⟨herrors, hkept⟩ : (∀ e ∈ errors, P e.span) ∧ I c' := by
      obtain ⟨n, hrun, rfl⟩ | ⟨e, hrun, rfl⟩ := hrun <;> rw [hrun] at hname
      · exact ⟨List.forall_mem_nil _, hname.2⟩
      · exact ⟨List.forall_mem_singleton.mpr hname.1, hname.2⟩
    rw [hclause]
    split
    · exact ⟨herrors, site.advance hkept⟩
    · have hmark := sited_expect site (.symbol .semicolon) c' hkept
      cases hrun : expect (.symbol .semicolon) c' with
      | ok u c₂ =>
        rw [hrun] at hmark
        exact ⟨herrors, hmark.2⟩
      | error e c₂ =>
        rw [hrun] at hmark
        exact ⟨List.forall_mem_append.mpr ⟨herrors, List.forall_mem_singleton.mpr hmark.1⟩, hmark.2⟩
  · unfold namespaceClause
    rw [if_neg hword]
    exact ⟨List.forall_mem_nil _, h⟩

/-- The spans of a file and the places of all errors in it. -/
theorem sited_file (h : I c) : (∀ d ∈ (file c).1.classes, d.Sited P) ∧ ∀ e ∈ (file c).2, P e.span := by
  have husings := sited_usings site c.tokens.length h
  rcases hrun₁ : usings c.tokens.length c with ⟨paths, errors₁, c₁⟩
  rw [hrun₁] at husings
  have hclause := sited_namespaceClause site husings.kept
  rcases hrun₂ : namespaceClause c₁ with ⟨name, braced, errors₂, c₂⟩
  rw [hrun₂] at hclause
  have hclasses := sited_classes site braced c₂.tokens.length hclause.kept
  rcases hrun₃ : classes braced c₂.tokens.length c₂ with ⟨ds, errors₃, c₃⟩
  rw [hrun₃] at hclasses
  have hend := sited_expect site (.symbol .rightBrace) c₃ hclasses.2.kept
  unfold file
  simp only [hrun₁, hrun₂, hrun₃]
  refine ⟨hclasses.1, List.forall_mem_append.mpr ⟨List.forall_mem_append.mpr ⟨List.forall_mem_append.mpr
    ⟨husings.errors, hclause.errors⟩, hclasses.2.errors⟩, ?_⟩⟩
  split
  · cases hbrace : expect (.symbol .rightBrace) c₃ with
    | ok u c₄ => exact List.forall_mem_nil _
    | error e c₄ =>
      rw [hbrace] at hend
      exact List.forall_mem_singleton.mpr hend.1
  · exact List.forall_mem_nil _

end

end Parse

end Reactive
