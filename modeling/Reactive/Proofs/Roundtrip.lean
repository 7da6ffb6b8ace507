import Mathlib.Tactic.Common
import Reactive.Expr.Parser
import Reactive.Proofs.Grouping
import Reactive.Proofs.Stateful

/-!
# Reactive.Proofs.Roundtrip — printed expressions are read back

* `Expr.Shallow d e`: the words of `e` are words that texts may have, and fewer than `d` expressions are open inside
  each other in it besides parentheses.  Each form of expression is shallow if its parts are.
* `Parse.Gives P x`: from tokens that texts may have, a rule gives only what has the property `P`, and leaves tokens
  that texts may have.  Each rule gives what is shallow, so what is read from a text is (`shallow_of_parse`).
* `expression_reads_back`: the text of an expression that was read is read as that expression, or else its parentheses
  open more expressions inside each other than may be.
-/

namespace Reactive

open Stateful

namespace Expr

variable {d d' : Nat} {e l r : Expr} {n : String} {s : Span}

/-! ### What a text may say -/

/-- Parentheses that count for nothing. -/
theorem deepened_zero (needed : Bool) (depth : Nat) : deepened 0 needed depth = depth := by
  cases needed <;> rfl

/-- Where parentheses count for nothing, the level does not matter. -/
theorem nestingAt_zero (p : Nat) (e : Expr) : nestingAt 0 p e = nestingAt 0 0 e := by
  cases e <;> simp only [nestingAt, deepened_zero]

theorem nestingList_le : ∀ {es : List Expr}, (∀ e ∈ es, nestingAt 0 0 e < d) → nestingList 0 es ≤ d
  | [], _ => by
    rw [nestingList]
    exact Nat.zero_le d
  | e :: es, h => by
    rw [nestingList, Nat.max_le]
    exact ⟨h e List.mem_cons_self, nestingList_le fun e' he' => h e' (List.mem_cons_of_mem _ he')⟩

/-- The words are words of texts, and fewer than `d` expressions are open inside each other. -/
structure Shallow (d : Nat) (e : Expr) : Prop where
  words : ∀ t ∈ e.words, t.Lexed
  nesting : nestingAt 0 0 e < d

theorem Shallow.mono (h : Shallow d e) (hd : d ≤ d') : Shallow d' e := ⟨h.words, Nat.lt_of_lt_of_le h.nesting hd⟩

theorem shallow_literal {v : Literal} (hv : v.token.Lexed) : Shallow (d + 1) (literal v s) := by
  refine ⟨fun t ht => ?_, by rw [nestingAt]; exact Nat.succ_pos d⟩
  rw [Expr.words, List.mem_singleton] at ht
  exact ht ▸ hv

theorem shallow_name (hn : Lexer.IsName n) : Shallow (d + 1) (name n s) := by
  refine ⟨fun t ht => ?_, by rw [nestingAt]; exact Nat.succ_pos d⟩
  rw [Expr.words, List.mem_singleton] at ht
  exact ht ▸ hn

theorem shallow_this : Shallow (d + 1) (this s) := by
  refine ⟨fun t ht => ?_, by rw [nestingAt]; exact Nat.succ_pos d⟩
  rw [Expr.words] at ht
  cases ht

theorem shallow_member (h : Shallow d e) (hn : Lexer.IsName n) : Shallow d (member e n s) := by
  refine ⟨fun t ht => ?_, by rw [nestingAt, nestingAt_zero]; exact h.nesting⟩
  rw [Expr.words, List.mem_append, List.mem_singleton] at ht
  rcases ht with ht | rfl
  · exact h.words t ht
  · exact hn

theorem shallow_call {args : List Expr} (h : Shallow (d + 1) e) (hargs : ∀ arg ∈ args, Shallow d arg) :
    Shallow (d + 1) (call e args s) := by
  have hlist : nestingList 0 args ≤ d := nestingList_le fun arg harg => (hargs arg harg).nesting
  refine ⟨fun t ht => ?_, by rw [nestingAt, nestingAt_zero]; exact Nat.max_lt.mpr ⟨h.nesting, Nat.lt_succ_of_le hlist⟩⟩
  rw [Expr.words, List.mem_append] at ht
  rcases ht with ht | ht
  · exact h.words t ht
  · obtain ⟨arg, harg, ht⟩ := mem_wordsAll.mp ht
    exact (hargs arg harg).words t ht

theorem shallow_unary {op : UnaryOp} (h : Shallow d e) : Shallow (d + 1) (unary op e s) := by
  refine ⟨h.words, ?_⟩
  rw [nestingAt, deepened_zero, deepened_zero, nestingAt_zero 9, ite_self]
  exact Nat.succ_lt_succ h.nesting

theorem shallow_binary {op : BinaryOp} (hl : Shallow (d + 1) l) (hr : Shallow d r) :
    Shallow (d + 1) (binary op l r s) := by
  refine ⟨fun t ht => ?_, ?_⟩
  · rw [Expr.words, List.mem_append] at ht
    exact ht.elim (hl.words t) (hr.words t)
  · rw [nestingAt, deepened_zero, nestingAt_zero _ l, nestingAt_zero _ r]
    exact Nat.max_lt.mpr ⟨hl.nesting, Nat.succ_lt_succ hr.nesting⟩

theorem shallow_conditional (h : Shallow (d + 1) e) (hl : Shallow d l) (hr : Shallow d r) :
    Shallow (d + 1) (conditional e l r s) := by
  refine ⟨fun t ht => ?_, ?_⟩
  · rw [Expr.words, List.mem_append, List.mem_append] at ht
    rcases ht with (ht | ht) | ht
    · exact h.words t ht
    · exact hl.words t ht
    · exact hr.words t ht
  · rw [nestingAt, deepened_zero, nestingAt_zero 2, nestingAt_zero 1 l, nestingAt_zero 1 r]
    exact Nat.max_lt.mpr ⟨h.nesting, Nat.max_lt.mpr ⟨Nat.succ_lt_succ hl.nesting, Nat.succ_lt_succ hr.nesting⟩⟩

theorem shallow_lambda {isStatic : Bool} (hn : Lexer.IsName n) (h : Shallow d e) :
    Shallow (d + 1) (lambda isStatic n e s) := by
  refine ⟨fun t ht => ?_, ?_⟩
  · rw [Expr.words, List.mem_cons] at ht
    rcases ht with rfl | ht
    · exact hn
    · exact h.words t ht
  · rw [nestingAt, deepened_zero]
    exact Nat.succ_lt_succ h.nesting

/-- A span that is set says nothing about the expression. -/
theorem Shallow.withSpan (h : Shallow d e) : Shallow d (e.withSpan s) := by
  cases e <;> exact ⟨h.words, h.nesting⟩

end Expr

/-! ### What is read from a text -/

/-- The tokens left are tokens that texts may have. -/
def Cursor.Lexed (c : Cursor) : Prop := ∀ t ∈ c.kinds, t.Lexed

theorem Cursor.lexed_of_tokenize {text : String} {stream : TokenStream} (h : tokenize text = .ok stream) :
    stream.cursor.Lexed := by
  intro t ht
  obtain ⟨token, htoken, rfl⟩ := List.mem_map.mp ht
  exact Lexer.lexed_of_tokenize h token htoken

theorem Cursor.Lexed.current {c : Cursor} (h : c.Lexed) : c.current.Lexed := by
  rw [c.current_eq]
  cases hc : c.kinds with
  | nil => exact trivial
  | cons t ts => exact h t (hc ▸ List.mem_cons_self)

theorem Cursor.Lexed.advance {c : Cursor} (h : c.Lexed) : c.advance.Lexed := by
  obtain ⟨previous, tokens, stop⟩ := c
  cases tokens with
  | nil => exact h
  | cons t ts => exact fun u hu => h u (List.mem_cons_of_mem _ hu)

namespace Parse

variable {α β : Type} {P : α → Prop} {Q : β → Prop} {x : Parse α} {f : α → Parse β} {d : Nat} {sub : Nat → Parse Expr}

/-- From tokens of texts, a rule gives what has a property if it ends well, and leaves tokens of texts. -/
def Gives (P : α → Prop) (x : Parse α) : Prop := ∀ c : Cursor, c.Lexed → Stateful.Ends x c fun a c' => P a ∧ c'.Lexed

theorem Gives.bind (h : Gives P x) (hf : ∀ a, P a → Gives Q (f a)) : Gives Q (x >>= f) :=
  fun c hc => (h c hc).bind fun a c' ha => hf a ha.1 c' ha.2

theorem gives_pure {a : α} (h : P a) : Gives P (pure a) := fun _ hc => ends_pure ⟨h, hc⟩

theorem gives_fail (fault : ParseFault) : Gives P (fail fault) := nofun

theorem gives_ite {b : Prop} [Decidable b] {y : Parse α} (hx : Gives P x) (hy : Gives P y) :
    Gives P (if b then x else y) := by
  split
  · exact hx
  · exact hy

theorem gives_get : Gives (fun _ => True) (get : Parse Cursor) := fun _ hc => ends_pure ⟨trivial, hc⟩

theorem gives_currentSpan : Gives (fun _ => True) currentSpan := gives_get.bind fun _ _ => gives_pure trivial

theorem gives_previousSpan : Gives (fun _ => True) previousSpan := gives_get.bind fun _ _ => gives_pure trivial

theorem gives_remaining : Gives (fun _ => True) remaining := gives_get.bind fun _ _ => gives_pure trivial

theorem gives_current : Gives Token.Lexed current := fun _ hc => ends_pure ⟨hc.current, hc⟩

theorem gives_advance : Gives (fun _ => True) advance := by
  rintro c hc _ _ ⟨⟩
  exact ⟨trivial, hc.advance⟩

theorem gives_check (t : Token) : Gives (fun _ => True) (check t) := gives_current.bind fun _ _ => gives_pure trivial

theorem gives_accept (t : Token) : Gives (fun _ => True) (accept t) := by
  refine (gives_check t).bind fun b _ => gives_ite ?_ (gives_pure trivial)
  exact gives_advance.bind fun _ _ => gives_pure trivial

theorem gives_unexpected (expected : List Token) : Gives P (unexpected expected) :=
  gives_current.bind fun found _ => gives_fail (.unexpected found expected)

theorem gives_expect (t : Token) : Gives (fun _ => True) (expect t) :=
  (gives_accept t).bind fun _ _ => gives_ite (gives_pure trivial) (gives_unexpected [t])

theorem gives_identifier : Gives (fun n => Lexer.IsName n.1) identifier := by
  unfold identifier
  refine gives_currentSpan.bind fun span _ => gives_current.bind fun t ht => ?_
  cases t with
  | identifier n => exact gives_advance.bind fun _ _ => gives_pure ht
  | _ => exact gives_unexpected _

theorem gives_listedBefore (close : Token) (h : Gives P x) :
    ∀ n, Gives (fun as => ∀ a ∈ as, P a) (listedBefore close x n)
  | 0 => by
    refine (gives_check close).bind fun _ _ => gives_ite (gives_pure nofun) ?_
    exact h.bind fun a ha => gives_pure (by simpa using ha)
  | n + 1 => by
    rw [listedBefore_succ]
    refine (gives_check close).bind fun _ _ => gives_ite (gives_pure nofun) ?_
    refine h.bind fun a ha => (gives_accept _).bind fun _ _ => gives_ite ?_ (gives_pure (by simpa using ha))
    refine (gives_listedBefore close h n).bind fun as has => gives_pure ?_
    exact List.forall_mem_cons.mpr ⟨ha, has⟩

open Reactive.Expr

theorem gives_atom {build : Span → Expr} (h : ∀ s, Shallow d (build s)) : Gives (Shallow d) (atom build) :=
  gives_currentSpan.bind fun span _ => gives_advance.bind fun _ _ => gives_pure (h span)

theorem gives_lambda (hsub : ∀ least, Gives (Shallow d) (sub least)) : Gives (Shallow (d + 1)) (lambda sub) := by
  refine gives_currentSpan.bind fun start _ => (gives_accept _).bind fun isStatic _ => ?_
  refine gives_identifier.bind fun n hn => (gives_expect _).bind fun _ _ => ?_
  exact (hsub 0).bind fun body hbody => gives_pure (shallow_lambda hn hbody)

theorem gives_operand (hsub : ∀ least, Gives (Shallow d) (sub least)) : Gives (Shallow (d + 1)) (operand sub) := by
  unfold operand
  refine gives_currentSpan.bind fun span _ => gives_current.bind fun t ht => ?_
  have hsigned (op : UnaryOp) : Gives (Shallow (d + 1)) (advance >>= fun _ => sub 9 >>= fun e =>
      pure (Expr.unary op e (span.through e.span))) :=
    gives_advance.bind fun _ _ => (hsub 9).bind fun e he => gives_pure (shallow_unary he)
  cases t with
  | integer i => exact gives_atom fun _ => shallow_literal ht
  | float x => exact gives_atom fun _ => shallow_literal ht
  | string s => exact gives_atom fun _ => shallow_literal trivial
  | identifier n =>
    exact gives_get.bind fun c _ => gives_ite (gives_lambda hsub) (gives_atom fun _ => shallow_name ht)
  | keyword k =>
    cases k with
    | true_ => exact gives_atom fun _ => shallow_literal trivial
    | false_ => exact gives_atom fun _ => shallow_literal trivial
    | null => exact gives_atom fun _ => shallow_literal trivial
    | this => exact gives_atom fun _ => shallow_this
    | static => exact gives_lambda hsub
    | _ => exact gives_fail _
  | symbol y =>
    cases y with
    | bang => exact hsigned .not
    | minus => exact hsigned .negate
    | leftParen =>
      refine gives_advance.bind fun _ _ => (hsub 0).bind fun e he => (gives_expect _).bind fun _ _ => ?_
      exact gives_previousSpan.bind fun span' _ => gives_pure (he.mono (Nat.le_succ d)).withSpan
    | _ => exact gives_fail _
  | _ => exact gives_fail _

theorem gives_extend {left : Expr} (hsub : ∀ least, Gives (Shallow d) (sub least)) (hleft : Shallow (d + 1) left) :
    Gives (Shallow (d + 1)) (extend sub left) := by
  unfold extend
  refine gives_current.bind fun t _ => ?_
  split
  · refine gives_advance.bind fun _ _ => gives_identifier.bind fun n hn => ?_
    exact gives_pure (shallow_member hleft hn)
  · refine gives_advance.bind fun _ _ => gives_remaining.bind fun k _ => ?_
    refine (gives_listedBefore _ (hsub 0) k).bind fun args hargs => (gives_expect _).bind fun _ _ => ?_
    exact gives_previousSpan.bind fun span _ => gives_pure (shallow_call hleft hargs)
  · refine gives_advance.bind fun _ _ => (hsub 0).bind fun l hl => (gives_expect _).bind fun _ _ => ?_
    exact (hsub 0).bind fun r hr => gives_pure (shallow_conditional hleft hl hr)
  · split
    · exact gives_advance.bind fun _ _ => (hsub _).bind fun r hr => gives_pure (shallow_binary hleft hr)
    · exact gives_pure hleft
  · exact gives_pure hleft

theorem gives_chain (hsub : ∀ least, Gives (Shallow d) (sub least)) (least : Nat) :
    ∀ (n : Nat) {left : Expr}, Shallow (d + 1) left → Gives (Shallow (d + 1)) (chain sub least n left)
  | 0, _, hleft => gives_pure hleft
  | n + 1, _, hleft => by
    unfold chain
    refine gives_current.bind fun t _ => gives_ite ?_ (gives_pure hleft)
    exact (gives_extend hsub hleft).bind fun e he => gives_chain hsub least n he

theorem gives_expressionWithin : ∀ d least, Gives (Shallow d) (expressionWithin d least)
  | 0, _ => gives_fail .tooDeep
  | d + 1, least => by
    have hsub := gives_expressionWithin d
    unfold expressionWithin
    refine (gives_operand hsub).bind fun left hleft => gives_remaining.bind fun n _ => ?_
    exact gives_chain hsub least n hleft

end Parse

namespace Expr

open Parse

variable {text : String} {e : Expr}

/-- What a text says has words of the text, and is nested no more deeply than may be. -/
theorem shallow_of_parse (h : Expr.parse text = .ok e) : Shallow maxDepth e := by
  unfold Expr.parse at h
  cases hstream : tokenize text with
  | error errors =>
    rw [hstream] at h
    cases h
  | ok stream =>
    rw [hstream] at h
    dsimp only at h
    have hlexed := Cursor.lexed_of_tokenize hstream
    cases hread : Parse.expression stream.cursor with
    | error err c =>
      rw [hread] at h
      cases h
    | ok e' c =>
      rw [hread] at h
      dsimp only at h
      split at h
      · cases h
        exact (gives_expressionWithin maxDepth 0 _ hlexed _ _ hread).1
      · cases h

/-- Words of texts are printed as they are read, if that holds of their doubles. -/
theorem Shallow.printed {d : Nat} (h : Shallow d e) (hplain : ∀ x ∈ e.doubles, x.IsPlain)
    (hread : ∀ x ∈ e.doubles, Double.ofText? x.sourceText = some x) : e.Printed := by
  intro t ht
  have hlexed := h.words t ht
  cases t with
  | float x => exact ⟨hlexed, hplain x (mem_doubles ht), hread x (mem_doubles ht)⟩
  | _ => exact hlexed

/-- Reading the text of an expression whose words are printed as they are read: the depth of its parentheses alone
decides whether it is read. -/
theorem parse_text (h : e.Printed) :
    (nestingAt 1 0 e < maxDepth ∧ ∃ e', Expr.parse e.text = .ok e' ∧ e'.bare = e.bare) ∨
      (maxDepth ≤ nestingAt 1 0 e ∧ ∃ span, Expr.parse e.text = .error (.parse [⟨.tooDeep, span⟩])) := by
  obtain ⟨stream, hstream, htokens⟩ := tokenize_text h
  have hkinds : stream.cursor.kinds = tokensAt 0 e ++ [] := by rw [List.append_nil]; exact htokens
  have hends : Ends 0 [] := ⟨rfl, nofun⟩
  unfold Expr.parse
  rw [hstream]
  rcases (reads_tokensAt e (Nat.zero_le 10)).whole (d := maxDepth) fits_zero hends rfl hkinds with
    ⟨hdepth, e', c, hread, hbare, hc⟩ | ⟨hdepth, span, c, hread⟩
  · have hatEnd : c.atEnd = true := List.isEmpty_iff.mpr (List.map_eq_nil_iff.mp hc)
    refine Or.inl ⟨hdepth, e', ?_, hbare⟩
    dsimp only
    rw [show Parse.expression stream.cursor = .ok e' c from hread]
    dsimp only
    rw [if_pos hatEnd]
  · refine Or.inr ⟨Nat.le_of_not_lt hdepth, span, ?_⟩
    dsimp only
    rw [show Parse.expression stream.cursor = .error ⟨.tooDeep, span⟩ c from hread]

/-- Two hundred signs in a row are not too many, but the parentheses between them are. -/
example : nestingAt 0 0 (Nat.repeat (unary .negate · .none) 200 (this .none)) = 200 ∧
    nestingAt 1 0 (Nat.repeat (unary .negate · .none) 200 (this .none)) = 399 := by decide +kernel

/-- The text of an expression that was read, the doubles in which have plain texts that are read back, is read as the
same expression; or else it stops because expressions are nested too deeply, which the parentheses alone bring about. -/
theorem expression_reads_back (h : Expr.parse text = .ok e) (hplain : ∀ x ∈ e.doubles, x.IsPlain)
    (hread : ∀ x ∈ e.doubles, Double.ofText? x.sourceText = some x) :
    (nestingAt 1 0 e < maxDepth ∧ ∃ e', Expr.parse e.text = .ok e' ∧ e'.bare = e.bare) ∨
      (nestingAt 0 0 e < maxDepth ∧ maxDepth ≤ nestingAt 1 0 e ∧
        ∃ span, Expr.parse e.text = .error (.parse [⟨.tooDeep, span⟩])) := by
  have hshallow := shallow_of_parse h
  rcases parse_text (hshallow.printed hplain hread) with hfits | ⟨hdeep, htoo⟩
  · exact Or.inl hfits
  · exact Or.inr ⟨hshallow.nesting, hdeep, htoo⟩

theorem grouped_operands_read_back : ∃ e e',
    Expr.parse "((a ?? b) ?? -(-1.5)) * (static x => ok ? \"\\\"\\n\" : c)(!f.g((2), null))" = .ok e ∧
      Expr.parse e.text = .ok e' ∧ e'.bare = e.bare := by
  have hchecked :
      (Expr.parse "((a ?? b) ?? -(-1.5)) * (static x => ok ? \"\\\"\\n\" : c)(!f.g((2), null))").toOption.any (fun e =>
        nestingAt 1 0 e < maxDepth && e.doubles.all fun x =>
          x.IsPlain && Double.ofText? x.sourceText = some x) = true := by
    decide +kernel
  obtain ⟨e, hparse, hchecked⟩ := exists_of_toOption_any hchecked
  simp only [Bool.and_eq_true, decide_eq_true_eq, List.all_eq_true] at hchecked
  obtain ⟨hdepth, hdoubles⟩ := hchecked
  rcases expression_reads_back hparse (fun x hx => (hdoubles x hx).1) (fun x hx => (hdoubles x hx).2) with
    ⟨-, e', hagain, hbare⟩ | ⟨-, hdeep, -⟩
  · exact ⟨e, e', hparse, hagain, hbare⟩
  · exact absurd hdepth (Nat.not_lt.mpr hdeep)

end Expr

end Reactive
