import Mathlib.Tactic.Common
import Reactive.Declaration.Parser
import Reactive.Proofs.Grouping

/-!
# Reactive.Proofs.Consuming — every token of a file is read by some rule

* `Parse.Takes n x c`: a rule that ends well leaves what is behind the tokens it has read, among which the word `class`
  stands `n` times; a lemma for each rule of the grammar.
* `every_token_read`: the tokens of an accepted file are those of its directives, of the clause of its namespace, and of
  its classes, one word `class` in each; behind the closing brace of a namespace any others may stand.
-/

namespace Reactive

open Stateful

/-- Tokens with their places. -/
abbrev Tokens := List (Token × Span)

/-- How often the word `class` stands among tokens. -/
def classWords (ts : Tokens) : Nat := ts.countP fun t => t.1 = .keyword .class_

theorem classWords_append (ts us : Tokens) : classWords (ts ++ us) = classWords ts + classWords us := List.countP_append

theorem Cursor.current_advance (c : Cursor) : c.advance.current = c.peek := by
  obtain ⟨previous, tokens, stop⟩ := c
  match tokens with
  | [] | [_] | _ :: _ :: _ => rfl

namespace Parse

variable {α β : Type} {n m : Nat} {x : Parse α} {f : α → Parse β} {c : Cursor} {t : Token}

/-- A rule that ends well leaves what is behind some tokens, among which the word `class` stands `n` times. -/
def Takes (n : Nat) (x : Parse α) (c : Cursor) : Prop :=
  Stateful.Ends x c fun _ c' => ∃ part : Tokens, c.tokens = part ++ c'.tokens ∧ classWords part = n

/-! ### One after the other -/

theorem Takes.add (hx : Takes n x c) (hf : ∀ a c', Takes m (f a) c') : Takes (n + m) (x >>= f) c := by
  refine Stateful.Ends.bind hx fun a c' hpart => ?_
  obtain ⟨part, htokens, hn⟩ := hpart
  refine (hf a c').imp fun b c'' hrest => ?_
  obtain ⟨rest, htokens', hm⟩ := hrest
  exact ⟨part ++ rest, by rw [htokens, htokens', List.append_assoc], by rw [classWords_append, hn, hm]⟩

/-- A rule without the word first. -/
theorem Takes.bind (hx : Takes 0 x c) (hf : ∀ a c', Takes n (f a) c') : Takes n (x >>= f) c :=
  Nat.zero_add n ▸ hx.add hf

theorem takes_pure (a : α) (c : Cursor) : Takes 0 (pure a) c := ends_pure ⟨[], rfl, rfl⟩

theorem takes_fail (fault : ParseFault) (c : Cursor) : Takes n (fail fault : Parse α) c := nofun

theorem takes_unexpected (expected : List Token) (c : Cursor) : Takes n (unexpected expected : Parse α) c := nofun

theorem takes_ite {b : Prop} [Decidable b] {y : Parse α} (hx : Takes n x c) (hy : Takes n y c) :
    Takes n (if b then x else y) c := by
  split
  · exact hx
  · exact hy

/-- What is asked of the cursor takes nothing. -/
theorem takes_get {f : Cursor → Parse β} (h : Takes n (f c) c) : Takes n (get >>= f) c := h

theorem takes_currentSpan {f : Span → Parse β} (h : Takes n (f c.currentSpan) c) : Takes n (currentSpan >>= f) c := h

theorem takes_previousSpan {f : Span → Parse β} (h : Takes n (f c.previousSpan) c) : Takes n (previousSpan >>= f) c := h

theorem takes_remaining {f : Nat → Parse β} (h : Takes n (f c.tokens.length) c) : Takes n (remaining >>= f) c := h

theorem takes_current {f : Token → Parse β} (h : Takes n (f c.current) c) : Takes n (current >>= f) c := h

theorem takes_check {f : Bool → Parse β} (h : Takes n (f (decide (c.current = t))) c) : Takes n (check t >>= f) c := h

/-! ### Single tokens -/

theorem takes_advance (h : c.current ≠ .keyword .class_) : Takes 0 advance c := by
  rintro _ _ ⟨⟩
  obtain ⟨previous, tokens, stop⟩ := c
  cases tokens with
  | nil => exact ⟨[], rfl, rfl⟩
  | cons t ts =>
    refine ⟨[t], rfl, List.countP_eq_zero.mpr fun u hu => ?_⟩
    rw [List.mem_singleton.mp hu, decide_eq_true_eq]
    exact h

/-- A token that is read, and what is read where it leads. -/
theorem takes_advance_bind {f : Unit → Parse β} (h : c.current ≠ .keyword .class_) (hf : Takes n (f ()) c.advance) :
    Takes n (advance >>= f) c := by
  intro b c' hrun
  obtain ⟨one, hone, hzero⟩ := takes_advance h () c.advance rfl
  obtain ⟨part, htokens, hn⟩ := hf b c' hrun
  exact ⟨one ++ part, by rw [hone, htokens, List.append_assoc], by rw [classWords_append, hzero, hn, Nat.zero_add]⟩

theorem takes_accept (ht : t ≠ .keyword .class_) (c : Cursor) : Takes 0 (accept t) c := by
  refine takes_check ?_
  by_cases h : c.current = t
  · rw [decide_eq_true h]
    exact (takes_advance (h ▸ ht)).bind fun _ c => takes_pure true c
  · rw [decide_eq_false h]
    exact takes_pure false c

theorem takes_expect (ht : t ≠ .keyword .class_) (c : Cursor) : Takes 0 (expect t) c := by
  refine (takes_accept ht c).bind fun b c => ?_
  cases b with
  | true => exact takes_pure () c
  | false => exact takes_unexpected [t] c

theorem takes_acceptSymbol (y : Symbol) (c : Cursor) : Takes 0 (accept (.symbol y)) c := by
  apply takes_accept
  nofun

theorem takes_acceptStatic (c : Cursor) : Takes 0 (accept (.keyword .static)) c := by
  apply takes_accept
  nofun

theorem takes_expectSymbol (y : Symbol) (c : Cursor) : Takes 0 (expect (.symbol y)) c := by
  apply takes_expect
  nofun

theorem expect_apply (t : Token) (c : Cursor) :
    expect t c = if c.current = t then .ok () c.advance else .error ⟨.unexpected c.current [t], c.currentSpan⟩ c := by
  unfold expect
  rw [bind_apply, accept_apply]
  by_cases h : c.current = t
  · rw [if_pos h, if_pos h]
    rfl
  · rw [if_neg h, if_neg h]
    rfl

/-- The word itself. -/
theorem takes_class (c : Cursor) : Takes 1 (expect (.keyword .class_)) c := by
  intro u c' h
  rw [expect_apply] at h
  obtain ⟨previous, tokens, stop⟩ := c
  split at h
  · rename_i hcurrent
    cases h
    cases tokens with
    | nil => cases hcurrent
    | cons t ts =>
      refine ⟨[t], rfl, ?_⟩
      have ht : t.1 = .keyword .class_ := hcurrent
      simp [classWords, ht]
  · cases h

theorem takes_identifier (c : Cursor) : Takes 0 identifier c := by
  refine takes_currentSpan (takes_current ?_)
  cases h : c.current with
  | identifier name => exact (takes_advance (by rw [h]; nofun)).bind fun _ c => takes_pure _ c
  | _ => exact takes_unexpected _ c

/-! ### Lists -/

section

variable (hx : ∀ c, Takes 0 x c)

include hx

theorem takes_separated : ∀ (k : Nat) (c : Cursor), Takes 0 (separated x k) c
  | 0, c => (hx c).bind fun a c => takes_pure _ c
  | k + 1, c => by
    refine (hx c).bind fun a c => (takes_acceptSymbol _ c).bind fun b c => takes_ite ?_ (takes_pure _ c)
    exact (takes_separated k c).bind fun as c => takes_pure _ c

theorem takes_listedBefore (close : Token) : ∀ (k : Nat) (c : Cursor), Takes 0 (listedBefore close x k) c
  | 0, c => by
    refine takes_check (takes_ite (takes_pure _ c) ?_)
    exact (hx c).bind fun a c => takes_pure _ c
  | k + 1, c => by
    rw [listedBefore_succ]
    refine takes_check (takes_ite (takes_pure _ c) ((hx c).bind fun a c => (takes_acceptSymbol _ c).bind fun b c => ?_))
    exact takes_ite ((takes_listedBefore close k c).bind fun as c => takes_pure _ c) (takes_pure _ c)

end

theorem takes_dotted : ∀ (k : Nat) (name : String) (c : Cursor), Takes 0 (dotted name k) c
  | 0, name, c => takes_pure name c
  | k + 1, name, c => by
    refine (takes_acceptSymbol _ c).bind fun b c => takes_ite ?_ (takes_pure name c)
    exact (takes_identifier c).bind fun (segment, _) c => takes_dotted k _ c

theorem takes_qualifiedName (c : Cursor) : Takes 0 qualifiedName c :=
  (takes_identifier c).bind fun (name, _) c => takes_remaining (takes_dotted _ name c)

/-! ### Types -/

theorem takes_typeWithin : ∀ (k : Nat) (c : Cursor), Takes 0 (typeWithin k) c
  | 0, c => (takes_qualifiedName c).bind fun name c => (takes_acceptSymbol _ c).bind fun b c => takes_pure _ c
  | k + 1, c => by
    refine (takes_qualifiedName c).bind fun name c => (takes_acceptSymbol _ c).bind fun b c => ?_
    have hnullable (args : List TypeRef) (c : Cursor) :
        Takes 0 (do return ⟨name, args, ← accept (.symbol .question)⟩ : Parse TypeRef) c :=
      (takes_acceptSymbol _ c).bind fun b c => takes_pure _ c
    refine takes_ite (takes_remaining ?_) ((takes_pure _ c).bind hnullable)
    refine (takes_separated (takes_typeWithin k) _ c).bind fun args c => (takes_expectSymbol _ c).bind fun _ c => ?_
    exact (takes_pure args c).bind hnullable

theorem takes_type (c : Cursor) : Takes 0 type c := takes_remaining (takes_typeWithin _ c)

/-! ### Expressions -/

section

variable {sub : Nat → Parse Expr} (hsub : ∀ least c, Takes 0 (sub least) c)

theorem takes_atom {build : Span → Expr} (h : c.current ≠ .keyword .class_) : Takes 0 (atom build) c :=
  takes_currentSpan ((takes_advance h).bind fun _ c => takes_pure _ c)

include hsub

theorem takes_lambda (c : Cursor) : Takes 0 (lambda sub) c := by
  refine takes_currentSpan ((takes_acceptStatic c).bind fun isStatic c => ?_)
  refine (takes_identifier c).bind fun (param, _) c => ?_
  exact (takes_expectSymbol _ c).bind fun _ c => (hsub 0 c).bind fun body c => takes_pure _ c

theorem takes_operand (c : Cursor) : Takes 0 (operand sub) c := by
  refine takes_currentSpan (takes_current ?_)
  cases h : c.current with
  | integer v => exact takes_atom (by rw [h]; nofun)
  | float v => exact takes_atom (by rw [h]; nofun)
  | string v => exact takes_atom (by rw [h]; nofun)
  | identifier name => exact takes_get (takes_ite (takes_lambda hsub c) (takes_atom (by rw [h]; nofun)))
  | keyword k =>
    cases k with
    | true_ | false_ | null | this => exact takes_atom (by rw [h]; nofun)
    | static => exact takes_lambda hsub c
    | _ => exact takes_fail _ c
  | symbol y =>
    have hadvance : Takes 0 advance c := takes_advance (by rw [h]; nofun)
    cases y with
    | bang | minus => exact hadvance.bind fun _ c => (hsub 9 c).bind fun e c => takes_pure _ c
    | leftParen =>
      refine hadvance.bind fun _ c => (hsub 0 c).bind fun inner c => (takes_expectSymbol _ c).bind fun _ c => ?_
      exact takes_previousSpan (takes_pure _ c)
    | _ => exact takes_fail _ c
  | endOfFile => exact takes_fail _ c

theorem takes_extend (left : Expr) (c : Cursor) : Takes 0 (extend sub left) c := by
  unfold extend
  refine takes_current ?_
  have hadvance {y : Symbol} (h : c.current = .symbol y) : Takes 0 advance c := takes_advance (by rw [h]; nofun)
  split
  · rename_i h
    exact (hadvance h).bind fun _ c => (takes_identifier c).bind fun name c => takes_pure _ c
  · rename_i h
    refine (hadvance h).bind fun _ c => takes_remaining ((takes_listedBefore (hsub 0) _ _ c).bind fun args c => ?_)
    exact (takes_expectSymbol _ c).bind fun _ c => takes_previousSpan (takes_pure _ c)
  · rename_i h
    refine (hadvance h).bind fun _ c => (hsub 0 c).bind fun thenBranch c => (takes_expectSymbol _ c).bind fun _ c => ?_
    exact (hsub 0 c).bind fun elseBranch c => takes_pure _ c
  · rename_i h
    split
    · exact (hadvance h).bind fun _ c => (hsub _ c).bind fun right c => takes_pure _ c
    · exact takes_pure left c
  · exact takes_pure left c

theorem takes_chain (least : Nat) : ∀ (k : Nat) (left : Expr) (c : Cursor), Takes 0 (chain sub least k left) c
  | 0, left, c => takes_pure left c
  | k + 1, left, c => by
    refine takes_current (takes_ite ?_ (takes_pure left c))
    exact (takes_extend hsub left c).bind fun e c => takes_chain least k e c

end

theorem takes_expressionWithin : ∀ (depth least : Nat) (c : Cursor), Takes 0 (expressionWithin depth least) c
  | 0, _, c => takes_fail .tooDeep c
  | depth + 1, least, c =>
    (takes_operand (takes_expressionWithin depth) c).bind fun left c =>
      takes_remaining (takes_chain (takes_expressionWithin depth) least _ left c)

theorem takes_expression (c : Cursor) : Takes 0 expression c := takes_expressionWithin maxDepth 0 c

/-! ### Attributes and modifiers -/

theorem takes_constant (c : Cursor) : Takes 0 constant c := by
  refine takes_current ?_
  have hadvance (h : c.current ≠ .keyword .class_) {k : Constant} : Takes 0 (do advance; return k) c :=
    (takes_advance h).bind fun _ c => takes_pure k c
  cases h : c.current with
  | string s => exact hadvance (by rw [h]; nofun)
  | integer i => exact hadvance (by rw [h]; nofun)
  | float x => exact hadvance (by rw [h]; nofun)
  | keyword k =>
    cases k with
    | true_ | false_ | null => exact hadvance (by rw [h]; nofun)
    | _ => exact takes_fail _ c
  | symbol y =>
    cases y with
    | minus =>
      refine (takes_advance (by rw [h]; nofun)).bind fun _ c => takes_current ?_
      cases h : c.current with
      | integer i => exact (takes_advance (by rw [h]; nofun)).bind fun _ c => takes_pure _ c
      | float x => exact (takes_advance (by rw [h]; nofun)).bind fun _ c => takes_pure _ c
      | _ => exact takes_fail _ c
    | _ => exact takes_fail _ c
  | identifier word =>
    have hpath : Takes 0 (do return Constant.path (segments (← qualifiedName))) c :=
      (takes_qualifiedName c).bind fun path c => takes_pure _ c
    refine takes_get ?_
    split
    · rename_i hnameof
      simp only [Bool.and_eq_true, decide_eq_true_eq] at hnameof
      refine takes_advance_bind (by rw [h]; nofun) (takes_advance_bind ?_ ?_)
      · rw [Cursor.current_advance, hnameof.2]
        nofun
      · refine (takes_qualifiedName _).bind fun path c => (takes_expectSymbol _ c).bind fun _ c => takes_pure _ c
    · exact hpath
  | endOfFile => exact takes_fail _ c

theorem takes_attributeArg (c : Cursor) : Takes 0 attributeArg c := by
  have hvalue (name : Option String) (start : Span) (c : Cursor) : Takes 0 (do
      let value ← constant
      return ⟨name, value, start.through (← previousSpan)⟩ : Parse AttributeArg) c :=
    (takes_constant c).bind fun value c => takes_previousSpan (takes_pure _ c)
  refine takes_currentSpan (takes_get (takes_ite ?_ ((takes_pure _ c).bind fun name c => hvalue name _ c)))
  refine (takes_identifier c).bind fun (name, _) c => (takes_expectSymbol _ c).bind fun _ c => ?_
  exact (takes_pure _ c).bind fun name c => hvalue name _ c

theorem takes_attributeItem (c : Cursor) : Takes 0 attributeItem c := by
  refine takes_currentSpan ((takes_qualifiedName c).bind fun name c => (takes_acceptSymbol _ c).bind fun b c => ?_)
  refine takes_ite (takes_remaining ?_) ((takes_pure _ c).bind fun args c => takes_previousSpan (takes_pure _ c))
  refine (takes_listedBefore takes_attributeArg _ _ c).bind fun args c => (takes_expectSymbol _ c).bind fun _ c => ?_
  exact (takes_pure _ c).bind fun args c => takes_previousSpan (takes_pure _ c)

theorem takes_attributesWithin : ∀ (k : Nat) (c : Cursor), Takes 0 (attributesWithin k) c
  | 0, c => takes_pure _ c
  | k + 1, c => by
    refine (takes_acceptSymbol _ c).bind fun b c => takes_ite (takes_remaining ?_) (takes_pure _ c)
    refine (takes_separated takes_attributeItem _ c).bind fun group c => (takes_expectSymbol _ c).bind fun _ c => ?_
    exact (takes_attributesWithin k c).bind fun rest c => takes_pure _ c

theorem takes_attributes (c : Cursor) : Takes 0 attributes c := takes_remaining (takes_attributesWithin _ c)

theorem takes_modifiersWithin : ∀ (k : Nat) (c : Cursor), Takes 0 (modifiersWithin k) c
  | 0, c => takes_pure _ c
  | k + 1, c => by
    refine (takes_acceptStatic c).bind fun b c => takes_ite ?_ (takes_get ?_)
    · exact (takes_modifiersWithin k c).bind fun rest c => takes_pure _ c
    · cases h : c.current with
      | identifier word =>
        split
        · refine takes_ite ((takes_advance (by rw [h]; nofun)).bind fun _ c => ?_) (takes_pure _ c)
          exact (takes_modifiersWithin k c).bind fun rest c => takes_pure _ c
        · exact takes_pure _ c
      | _ => exact takes_pure _ c

theorem takes_modifiers (c : Cursor) : Takes 0 modifiers c := takes_remaining (takes_modifiersWithin _ c)

/-! ### Members -/

theorem takes_body? (c : Cursor) : Takes 0 body? c := by
  refine (takes_acceptSymbol _ c).bind fun b c => takes_ite ?_ (takes_pure _ c)
  exact (takes_expression c).bind fun e c => takes_pure _ c

theorem takes_param (c : Cursor) : Takes 0 param c := by
  refine takes_currentSpan ((takes_type c).bind fun type c => (takes_identifier c).bind fun (name, _) c => ?_)
  exact takes_previousSpan (takes_pure _ c)

theorem takes_methodRest (returnType : TypeRef) (c : Cursor) : Takes 0 (methodRest returnType) c := by
  refine (takes_expectSymbol _ c).bind fun _ c => takes_remaining ?_
  refine (takes_listedBefore takes_param _ _ c).bind fun params c => (takes_expectSymbol _ c).bind fun _ c => ?_
  exact (takes_body? c).bind fun body c => (takes_expectSymbol _ c).bind fun _ c => takes_pure _ c

theorem takes_skipAccessibility : ∀ (k : Nat) (c : Cursor), Takes 0 (skipAccessibility k) c
  | 0, c => takes_pure () c
  | k + 1, c => by
    refine takes_current ?_
    cases h : c.current with
    | identifier word =>
      split
      · refine takes_ite ?_ (takes_pure () c)
        exact (takes_advance (by rw [h]; nofun)).bind fun _ c => takes_skipAccessibility k c
      · exact takes_pure () c
    | _ => exact takes_pure () c

theorem takes_accessorRest (h : c.current ≠ .keyword .class_) : Takes 0 accessorRest c := by
  refine takes_currentSpan ((takes_advance h).bind fun _ c => (takes_body? c).bind fun body c => ?_)
  exact (takes_expectSymbol _ c).bind fun _ c => takes_previousSpan (takes_pure _ c)

theorem takes_accessors : ∀ (k : Nat) (getter setter : Option Accessor) (c : Cursor),
    Takes 0 (accessors k getter setter) c
  | 0, _, _, c => takes_current (takes_fail _ c)
  | k + 1, getter, setter, c => by
    refine takes_check (takes_ite (takes_pure _ c) (takes_remaining ((takes_skipAccessibility _ c).bind fun _ c => ?_)))
    refine takes_current ?_
    cases h : c.current with
    | identifier word =>
      have hrest : Takes 0 accessorRest c := takes_accessorRest (by rw [h]; nofun)
      dsimp only
      split
      · exact takes_ite nofun (hrest.bind fun a c => takes_accessors k (some a) setter c)
      · split
        · exact takes_ite nofun (hrest.bind fun a c => takes_accessors k getter (some a) c)
        · exact takes_fail _ c
    | _ => exact takes_fail _ c

theorem takes_propertyRest (type : TypeRef) (c : Cursor) : Takes 0 (propertyRest type) c := by
  refine (takes_expectSymbol _ c).bind fun _ c => takes_remaining ?_
  refine (takes_accessors _ none none c).bind fun (getter, setter) c => ?_
  refine (takes_expectSymbol _ c).bind fun _ c => (takes_acceptSymbol _ c).bind fun b c => ?_
  refine takes_ite ?_ ((takes_pure _ c).bind fun initializer c => takes_pure _ c)
  refine (takes_expression c).bind fun value c => (takes_expectSymbol _ c).bind fun _ c => ?_
  exact (takes_pure _ c).bind fun initializer c => takes_pure _ c

theorem takes_arrowProperty (type : TypeRef) (h : c.current ≠ .keyword .class_) : Takes 0 (arrowProperty type) c := by
  refine takes_currentSpan ((takes_advance h).bind fun _ c => (takes_expression c).bind fun body c => ?_)
  exact (takes_expectSymbol _ c).bind fun _ c => takes_previousSpan (takes_pure _ c)

theorem takes_memberRest (type : TypeRef) (c : Cursor) : Takes 0 (memberRest type) c := by
  refine takes_current ?_
  cases h : c.current with
  | symbol y =>
    cases y with
    | leftParen => exact (takes_methodRest type c).bind fun m c => takes_pure _ c
    | arrow => exact (takes_arrowProperty type (by rw [h]; nofun)).bind fun p c => takes_pure _ c
    | leftBrace => exact (takes_propertyRest type c).bind fun p c => takes_pure _ c
    | _ => exact takes_unexpected _ c
  | _ => exact takes_unexpected _ c

theorem takes_member (c : Cursor) : Takes 0 member c := by
  refine takes_currentSpan ((takes_attributes c).bind fun attributes c => ?_)
  refine (takes_modifiers c).bind fun modifiers c => ?_
  refine (takes_type c).bind fun type c => (takes_identifier c).bind fun (name, nameSpan) c => ?_
  exact (takes_memberRest type c).bind fun kind c => takes_previousSpan (takes_pure _ c)

/-! ### Classes -/

/-- A header has the word once. -/
theorem takes_classHeader (c : Cursor) : Takes 1 classHeader c := by
  refine takes_currentSpan ((takes_attributes c).bind fun attributes c => ?_)
  refine (takes_modifiers c).bind fun modifiers c => ?_
  refine Takes.add (m := 0) (takes_class c) fun _ c => (takes_identifier c).bind fun (name, nameSpan) c => ?_
  have hbases (typeParams : List String) (start : Span) (c : Cursor) : Takes 0 (do
      let bases ← if ← accept (.symbol .colon) then separated type (← remaining) else pure []
      expect (.symbol .leftBrace)
      return ⟨name, typeParams, modifiers, bases, [], nameSpan, start⟩ : Parse ClassDecl) c := by
    have hbrace (bases : List TypeRef) (c : Cursor) : Takes 0 (do
        expect (.symbol .leftBrace)
        return ⟨name, typeParams, modifiers, bases, [], nameSpan, start⟩ : Parse ClassDecl) c :=
      (takes_expectSymbol _ c).bind fun _ c => takes_pure _ c
    refine (takes_acceptSymbol _ c).bind fun b c => takes_ite (takes_remaining ?_) ((takes_pure _ c).bind hbrace)
    exact (takes_separated takes_type _ c).bind hbrace
  have hname (c : Cursor) : Takes 0 (Prod.fst <$> identifier) c := by
    rw [map_eq_pure_bind]
    exact (takes_identifier c).bind fun name c => takes_pure _ c
  refine (takes_acceptSymbol _ c).bind fun b c => takes_ite (takes_remaining ?_) ((takes_pure _ c).bind (hbases · _ ·))
  refine (takes_separated hname _ c).bind fun params c => (takes_expectSymbol _ c).bind fun _ c => ?_
  exact (takes_pure params c).bind (hbases · _ ·)

/-- Members that are all well formed. -/
theorem tokens_of_members : ∀ (k : Nat) {c c' : Cursor} {ms : List MemberDecl}, members k c = (ms, [], c') →
    ∃ part : Tokens, c.tokens = part ++ c'.tokens ∧ classWords part = 0
  | 0, c, c', ms, h => by
    cases h
    exact ⟨[], rfl, rfl⟩
  | k + 1, c, c', ms, h => by
    unfold members at h
    split at h
    · cases h
      exact ⟨[], rfl, rfl⟩
    · cases hmember : member c with
      | error e c₁ =>
        rw [hmember] at h
        cases h
      | ok m c₁ =>
        rw [hmember] at h
        rcases hrest : members k c₁ with ⟨rest, errors, c₂⟩
        dsimp only at h
        rw [hrest] at h
        cases h
        obtain ⟨first, hfirst, hzero⟩ := takes_member c m c₁ hmember
        obtain ⟨part, hpart, hzero'⟩ := tokens_of_members k hrest
        exact ⟨first ++ part, by rw [hfirst, hpart, List.append_assoc], by rw [classWords_append, hzero, hzero']⟩

/-- The tokens of a class: the rule for classes reads them, and nothing else, and finds no error. -/
structure IsClass (part : Tokens) (d : ClassDecl) : Prop where
  classWords : classWords part = 1
  read : ∃ c c', classDecl c = (some d, [], c') ∧ c.tokens = part ++ c'.tokens

theorem tokens_of_classDecl {c c' : Cursor} {d : ClassDecl} (h : classDecl c = (some d, [], c')) :
    ∃ part : Tokens, c.tokens = part ++ c'.tokens ∧ IsClass part d := by
  have hclass := h
  unfold classDecl at h
  cases hheader : classHeader c with
  | error e c₁ =>
    rw [hheader] at h
    cases h
  | ok header c₁ =>
    rw [hheader] at h
    rcases hmembers : members c₁.tokens.length c₁ with ⟨ms, errors, c₂⟩
    dsimp only at h
    rw [hmembers] at h
    dsimp only at h
    cases hend : expect (.symbol .rightBrace) c₂ with
    | error e c₃ =>
      rw [hend] at h
      cases h
    | ok u c₃ =>
      rw [hend] at h
      cases h
      obtain ⟨head, hhead, hone⟩ := takes_classHeader c header c₁ hheader
      obtain ⟨body, hbody, hzero⟩ := tokens_of_members _ hmembers
      obtain ⟨brace, hbrace, hzero'⟩ := takes_expectSymbol _ c₂ u c' hend
      have htokens : c.tokens = head ++ body ++ brace ++ c'.tokens := by
        rw [hhead, hbody, hbrace, List.append_assoc, List.append_assoc]
      refine ⟨head ++ body ++ brace, htokens, ?_, c, c', hclass, htokens⟩
      rw [classWords_append, classWords_append, hone, hzero, hzero']

/-! ### Files -/

/-- The tokens of something that is read by a rule, which reads nothing else. -/
structure ReadBy (x : Parse α) (part : Tokens) (a : α) : Prop where
  classWords : classWords part = 0
  read : ∃ c c', x c = .ok a c' ∧ c.tokens = part ++ c'.tokens

theorem Takes.readBy (hx : Takes 0 x c) {a : α} {c' : Cursor} (h : x c = .ok a c') :
    ∃ part : Tokens, c.tokens = part ++ c'.tokens ∧ ReadBy x part a := by
  obtain ⟨part, htokens, hzero⟩ := hx a c' h
  exact ⟨part, htokens, hzero, c, c', h, htokens⟩

theorem takes_usingDirective (c : Cursor) : Takes 0 usingDirective c := by
  have husing : Takes 0 (expect (.keyword .using_)) c := by
    apply takes_expect
    nofun
  exact husing.bind fun _ c => (takes_qualifiedName c).bind fun path c => (takes_expectSymbol _ c).bind fun _ c =>
    takes_pure path c

/-- Directives that are all well formed. -/
theorem tokens_of_usings : ∀ (k : Nat) {c c' : Cursor} {paths : List String}, usings k c = (paths, [], c') →
    ∃ parts : List Tokens, c.tokens = parts.flatten ++ c'.tokens ∧ List.Forall₂ (ReadBy usingDirective) parts paths
  | 0, c, c', paths, h => by
    cases h
    exact ⟨[], rfl, .nil⟩
  | k + 1, c, c', paths, h => by
    unfold usings at h
    split at h
    · cases hdirective : usingDirective c with
      | error e c₁ =>
        rw [hdirective] at h
        cases h
      | ok path c₁ =>
        rw [hdirective] at h
        rcases hrest : usings k c₁ with ⟨rest, errors, c₂⟩
        dsimp only at h
        rw [hrest] at h
        cases h
        obtain ⟨first, hfirst, hread⟩ := (takes_usingDirective c).readBy hdirective
        obtain ⟨parts, hparts, hreads⟩ := tokens_of_usings k hrest
        exact ⟨first :: parts, by rw [hfirst, hparts, List.flatten_cons, List.append_assoc], .cons hread hreads⟩
    · cases h
      exact ⟨[], rfl, .nil⟩

/-- A token that comes next. -/
theorem tokens_of_current (h : c.current = t) (ht : t ≠ .endOfFile) :
    ∃ u, c.tokens = u :: c.advance.tokens ∧ u.1 = t := by
  obtain ⟨previous, tokens, stop⟩ := c
  cases tokens with
  | nil => exact absurd h.symm ht
  | cons u us => exact ⟨u, rfl, h⟩

theorem tokens_of_expect {u : Unit} {c' : Cursor} (h : expect t c = .ok u c') (ht : t ≠ .endOfFile) :
    ∃ w, c.tokens = w :: c'.tokens ∧ w.1 = t := by
  rw [expect_apply] at h
  split at h
  · rename_i hcurrent
    cases h
    exact tokens_of_current hcurrent ht
  · cases h

/-- The tokens that say which namespace a file is in, and whether braces follow. -/
inductive IsClause : Tokens → Option String → Bool → Prop
  | none : IsClause [] none false
  | named {word mark : Token × Span} {path : Tokens} {name : String} (braced : Bool)
    (word_eq : word.1 = .keyword .namespace_) (path_read : ReadBy qualifiedName path name)
    (mark_eq : mark.1 = .symbol (if braced then .leftBrace else .semicolon)) :
    IsClause (word :: path ++ [mark]) (some name) braced

theorem IsClause.classWords {part : Tokens} {name : Option String} {braced : Bool} (h : IsClause part name braced) :
    classWords part = 0 := by
  cases h with
  | none => rfl
  | named braced hword hpath hmark =>
    have hone (t : Token × Span) (ht : t.1 ≠ .keyword .class_) : Reactive.classWords [t] = 0 :=
      List.countP_eq_zero.mpr fun u hu => by rw [List.mem_singleton.mp hu, decide_eq_true_eq]; exact ht
    rw [List.cons_append, ← List.singleton_append, classWords_append, classWords_append, hpath.classWords, hone,
      hone]
    · rw [hmark]
      nofun
    · rw [hword]
      nofun

theorem tokens_of_namespaceClause {c' : Cursor} {name : Option String} {braced : Bool}
    (h : namespaceClause c = (name, braced, [], c')) :
    ∃ part : Tokens, c.tokens = part ++ c'.tokens ∧ IsClause part name braced := by
  unfold namespaceClause at h
  split at h
  · rename_i hcurrent
    obtain ⟨word, htokens, hword⟩ := tokens_of_current hcurrent nofun
    cases hname : qualifiedName c.advance with
    | error e c₁ =>
      rw [hname] at h
      dsimp only at h
      split at h
      · cases h
      · split at h
        · cases h
        · simp at h
    | ok n c₁ =>
      rw [hname] at h
      dsimp only at h
      obtain ⟨path, hpath, hread⟩ := (takes_qualifiedName c.advance).readBy hname
      split at h
      · rename_i hbrace
        cases h
        obtain ⟨mark, hmarks, hmark⟩ := tokens_of_current hbrace nofun
        refine ⟨word :: path ++ [mark], ?_, .named true hword hread hmark⟩
        rw [htokens, hpath, hmarks]
        simp
      · cases hend : expect (.symbol .semicolon) c₁ with
        | error e c₂ =>
          rw [hend] at h
          cases h
        | ok u c₂ =>
          rw [hend] at h
          cases h
          obtain ⟨mark, hmarks, hmark⟩ := tokens_of_expect hend nofun
          refine ⟨word :: path ++ [mark], ?_, .named false hword hread hmark⟩
          rw [htokens, hpath, hmarks]
          simp
  · cases h
    exact ⟨[], rfl, .none⟩

/-- A class that is left out has an error. -/
theorem errors_of_classDecl {errors : List ParseError} {c' : Cursor} (h : classDecl c = (none, errors, c')) :
    errors ≠ [] := by
  unfold classDecl at h
  split at h
  · cases h
    exact List.cons_ne_nil _ _
  · dsimp only at h
    split at h
    · cases h
      simp
    · cases h

/-- Classes that are all well formed; behind them the file ends, or a brace closes the namespace. -/
theorem tokens_of_classes (braced : Bool) : ∀ (k : Nat) {c c' : Cursor} {ds : List ClassDecl}, c.tokens.length ≤ k →
    classes braced k c = (ds, [], c') →
    ∃ parts : List Tokens, c.tokens = parts.flatten ++ c'.tokens ∧ List.Forall₂ IsClass parts ds ∧
      (c'.tokens = [] ∨ braced = true)
  | 0, c, c', ds, hk, h => by
    cases h
    exact ⟨[], rfl, .nil, .inl (List.eq_nil_of_length_eq_zero (Nat.le_zero.mp hk))⟩
  | k + 1, c, c', ds, hk, h => by
    unfold classes at h
    split at h
    · rename_i hend
      cases h
      refine ⟨[], rfl, .nil, ?_⟩
      rw [Bool.or_eq_true, Bool.and_eq_true] at hend
      exact hend.imp List.isEmpty_iff.mp And.left
    · rcases hclass : classDecl c with ⟨d | d, errors, c₁⟩
      · rw [hclass] at h
        rcases hrest : classes braced k c₁.classStart with ⟨rest, more, c₂⟩
        dsimp only at h
        rw [hrest] at h
        have hnil : errors = [] ∧ more = [] := List.append_eq_nil_iff.mp (congrArg (·.2.1) h)
        exact absurd hnil.1 (errors_of_classDecl hclass)
      · rw [hclass] at h
        dsimp only at h
        rcases hrest : classes braced k c₁ with ⟨rest, more, c₂⟩
        rw [hrest] at h
        dsimp only at h
        obtain ⟨rfl, rfl⟩ : errors = [] ∧ more = [] := List.append_eq_nil_iff.mp (congrArg (·.2.1) h)
        cases h
        obtain ⟨first, hfirst, hread⟩ := tokens_of_classDecl hclass
        have hpos : 0 < first.length := by
          have hone := hread.classWords
          have hle : classWords first ≤ first.length := List.countP_le_length
          omega
        have hlength : c₁.tokens.length ≤ k := by
          rw [hfirst, List.length_append] at hk
          omega
        obtain ⟨parts, hparts, hreads, hend⟩ := tokens_of_classes braced k hlength hrest
        exact ⟨first :: parts, by rw [hfirst, hparts, List.flatten_cons, List.append_assoc], .cons hread hreads, hend⟩

theorem classWords_directives {parts : List Tokens} {paths : List String}
    (h : List.Forall₂ (ReadBy usingDirective) parts paths) : classWords parts.flatten = 0 := by
  induction h with
  | nil => rfl
  | cons hread _ ih => rw [List.flatten_cons, classWords_append, hread.classWords, ih]

theorem classWords_classes {parts : List Tokens} {ds : List ClassDecl} (h : List.Forall₂ IsClass parts ds) :
    classWords parts.flatten = ds.length := by
  induction h with
  | nil => rfl
  | cons hclass _ ih => rw [List.flatten_cons, classWords_append, hclass.classWords, ih, List.length_cons, Nat.add_comm]

/-- The closing brace of a namespace that has braces. -/
def closingError (braced : Bool) (c : Cursor) : List ParseError :=
  if braced then
    match expect (.symbol .rightBrace) c with
    | .ok _ _ => []
    | .error e _ => [e]
  else []

theorem tokens_of_closing {braced : Bool} (h : closingError braced c = []) (hend : c.tokens = [] ∨ braced = true) :
    ∃ closing rest : Tokens, c.tokens = closing ++ rest ∧
      closing.map Prod.fst = (if braced then [.symbol .rightBrace] else []) ∧ (braced = false → rest = []) := by
  unfold closingError at h
  cases braced with
  | false => exact ⟨[], [], hend.resolve_right nofun, rfl, fun _ => rfl⟩
  | true =>
    rw [if_pos rfl] at h
    cases hbrace : expect (.symbol .rightBrace) c with
    | error e c' =>
      rw [hbrace] at h
      cases h
    | ok u c' =>
      obtain ⟨w, htokens, hw⟩ := tokens_of_expect hbrace nofun
      exact ⟨[w], c'.tokens, htokens, by simp [hw], nofun⟩

/-- A file without errors: no part of it has any. -/
theorem file_eq_ok {file : SourceFile} (h : Parse.file c = (file, [])) : ∃ c₁ braced c₂ c₃,
    usings c.tokens.length c = (file.usings, [], c₁) ∧ namespaceClause c₁ = (file.namespaceName, braced, [], c₂) ∧
      classes braced c₂.tokens.length c₂ = (file.classes, [], c₃) ∧ closingError braced c₃ = [] := by
  unfold Parse.file at h
  rcases husings : usings c.tokens.length c with ⟨paths, errors₁, c₁⟩
  rcases hclause : namespaceClause c₁ with ⟨name, braced, errors₂, c₂⟩
  rcases hclasses : classes braced c₂.tokens.length c₂ with ⟨ds, errors₃, c₃⟩
  rw [husings] at h
  dsimp only at h
  rw [hclause] at h
  dsimp only at h
  rw [hclasses] at h
  obtain ⟨rfl, herrors⟩ := Prod.mk.inj h
  simp only [List.append_eq_nil_iff] at herrors
  obtain ⟨⟨⟨rfl, rfl⟩, rfl⟩, hclosing⟩ := herrors
  exact ⟨c₁, braced, c₂, c₃, rfl, hclause, hclasses, hclosing⟩

end Parse

/-- A text is accepted if it has tokens and they make a file without errors. -/
theorem SourceFile.parse_eq_ok {text : String} {file : SourceFile} (h : SourceFile.parse text = .ok file) :
    ∃ stream, tokenize text = .ok stream ∧ Parse.file stream.cursor = (file, []) := by
  unfold SourceFile.parse at h
  cases hlex : tokenize text with
  | error errors =>
    rw [hlex] at h
    cases h
  | ok stream =>
    rw [hlex] at h
    dsimp only at h
    split at h
    · rename_i file' hfile
      cases h
      exact ⟨stream, rfl, hfile⟩
    · cases h

open Parse in
/-- **Every token is read by some rule.**  The tokens of an accepted text are those of its directives, one after
another, then those of the clause of its namespace, and then those of its classes, each with the word `class` once,
which stands nowhere else before.  Nothing is behind that, unless braces stand around the classes: then the closing one
is, and any other tokens, which are not read. -/
theorem every_token_read {text : String} {stream : TokenStream} {file : SourceFile} (hlex : tokenize text = .ok stream)
    (hparse : SourceFile.parse text = .ok file) :
    ∃ (directives : List Tokens) (clause : Tokens) (declarations : List Tokens) (braced : Bool) (closing rest : Tokens),
      stream.tokens = directives.flatten ++ clause ++ declarations.flatten ++ closing ++ rest ∧
        List.Forall₂ (ReadBy usingDirective) directives file.usings ∧
        IsClause clause file.namespaceName braced ∧
        List.Forall₂ IsClass declarations file.classes ∧
        closing.map Prod.fst = (if braced then [.symbol .rightBrace] else []) ∧
        (braced = false → rest = []) ∧
        classWords stream.tokens = file.classes.length + classWords rest := by
  obtain ⟨stream', hstream, hfile⟩ := SourceFile.parse_eq_ok hparse
  obtain rfl : stream = stream' := Except.ok.inj (hlex.symm.trans hstream)
  obtain ⟨c₁, braced, c₂, c₃, husings, hclause, hclasses, hclosing⟩ := file_eq_ok hfile
  obtain ⟨directives, hdirectives, hreads⟩ := tokens_of_usings _ husings
  obtain ⟨clause, hclauses, hclause⟩ := tokens_of_namespaceClause hclause
  obtain ⟨declarations, hdeclarations, hclasses, hend⟩ := tokens_of_classes braced _ (Nat.le_refl _) hclasses
  obtain ⟨closing, rest, hrest, hclosing, hnothing⟩ := tokens_of_closing hclosing hend
  have htokens : stream.tokens = directives.flatten ++ clause ++ declarations.flatten ++ closing ++ rest := by
    rw [show stream.tokens = stream.cursor.tokens from rfl, hdirectives, hclauses, hdeclarations, hrest]
    simp
  refine ⟨directives, clause, declarations, braced, closing, rest, htokens, hreads, hclause, hclasses, hclosing,
    hnothing, ?_⟩
  have hzero : classWords closing = 0 := by
    refine List.countP_eq_zero.mpr fun t ht => ?_
    have hmem : t.1 ∈ closing.map Prod.fst := List.mem_map_of_mem ht
    rw [hclosing] at hmem
    split at hmem
    · rw [List.mem_singleton.mp hmem]
      nofun
    · cases hmem
  rw [htokens, classWords_append, classWords_append, classWords_append, classWords_append,
    classWords_directives hreads, hclause.classWords, classWords_classes hclasses, hzero, Nat.zero_add, Nat.add_zero]

/-- A class behind the closing brace of the namespace is not read. -/
example : (SourceFile.parse "namespace N \x7b \x7d class A \x7b \x7d").toOption.map (·.classes.length) = some 0 := by
  decide +kernel

end Reactive
