import Mathlib.Data.List.Basic
import Mathlib.Tactic.Common
import Reactive.Proofs.Positions
import Reactive.Proofs.Rereading

/-!
# Reactive.Proofs.Delimiting — every node of an expression has tokens of its own

* `InOrder ts`: tokens come one behind the other, and none is empty.
* `Span.Covers`: a span from the start of the first to the end of the last of some tokens.  Two such spans are joined to
  the span of all tokens from the first to the last (`Span.Covers.through`).
* `Among part es`: expressions one behind the other among tokens.
* `Expr.Parted ts n`: some of the tokens are those of the node `n`: its span covers them, the inner expressions stand
  among them, and by themselves they are read as that node.
* `Parse.Shapes`: what stands between two cursors, with a lemma for each rule of expressions; from these and from
  `Builds.alone` it follows that every node is parted (`Parse.parted_expression`).
-/

namespace Reactive

open Stateful

/-! ### Spans of tokens -/

/-- Tokens come one behind the other, and none is empty. -/
structure InOrder (ts : Tokens) : Prop where
  ordered : ts.Pairwise fun a b => a.2.stop ≤ b.2.start
  proper : ∀ t ∈ ts, t.2.start < t.2.stop

namespace InOrder

variable {ts us part : Tokens} {t first last : Token × Span}

theorem of_infix (h : InOrder ts) (hpart : part <:+: ts) : InOrder part :=
  ⟨h.ordered.sublist hpart.sublist, fun t ht => h.proper t (hpart.subset ht)⟩

theorem start_le (h : InOrder ts) (hfirst : first ∈ ts.head?) (ht : t ∈ ts) : first.2.start ≤ t.2.start := by
  obtain ⟨us, rfl⟩ := List.head?_eq_some_iff.mp hfirst
  obtain rfl | ht := List.mem_cons.mp ht
  · exact Nat.le_refl _
  · have hproper := h.proper first List.mem_cons_self
    have hordered := List.rel_of_pairwise_cons h.ordered ht
    omega

theorem stop_le (h : InOrder ts) (hlast : last ∈ ts.getLast?) (ht : t ∈ ts) : t.2.stop ≤ last.2.stop := by
  obtain ⟨us, rfl⟩ := List.getLast?_eq_some_iff.mp hlast
  obtain ht | ht := List.mem_append.mp ht
  · have hproper := h.proper last (by simp)
    have hordered := (List.pairwise_append.mp h.ordered).2.2 t ht last (by simp)
    omega
  · rw [List.mem_singleton.mp ht]

theorem stop_le_start (h : InOrder (ts ++ us)) {u : Token × Span} (ht : t ∈ ts) (hu : u ∈ us) : t.2.stop ≤ u.2.start :=
  (List.pairwise_append.mp h.ordered).2.2 t ht u hu

end InOrder

namespace Span

variable {a b s : Span} {before part between part' behind : Tokens}

/-- The span from the start of the first to the end of the last of some tokens. -/
def Covers (s : Span) (part : Tokens) : Prop :=
  ∃ first ∈ part.head?, ∃ last ∈ part.getLast?, s = ⟨first.2.start, last.2.stop, first.2.line, first.2.column⟩

theorem covers_singleton (w : Token × Span) : w.2.Covers [w] := ⟨w, rfl, w, rfl, rfl⟩

/-- From the start of some tokens to the end of others behind them. -/
theorem Covers.through (ha : a.Covers part) (hb : b.Covers part') (h : InOrder (part ++ (between ++ part'))) :
    (a.through b).Covers (part ++ (between ++ part')) := by
  obtain ⟨first, hfirst, last, hlast, rfl⟩ := ha
  obtain ⟨first', hfirst', last', hlast', rfl⟩ := hb
  have hmem := List.mem_of_mem_head? hfirst
  have hmem' := List.mem_append_right between (List.mem_of_mem_getLast? hlast')
  have hbehind := h.stop_le_start hmem hmem'
  have hproper := h.proper first (List.mem_append_left _ hmem)
  have hproper' := h.proper last' (List.mem_append_right _ hmem')
  refine ⟨first, List.mem_head?_append_of_mem_head? hfirst, last', List.mem_getLast?_append_of_mem_getLast?
    (List.mem_getLast?_append_of_mem_getLast? hlast'), ?_⟩
  unfold through
  rw [if_neg]
  show ¬ last'.2.stop ≤ first.2.start
  omega

theorem Covers.proper (hs : s.Covers part) (h : InOrder part) : s.start < s.stop := by
  obtain ⟨first, hfirst, last, hlast, rfl⟩ := hs
  exact Nat.lt_of_lt_of_le (h.proper first (List.mem_of_mem_head? hfirst))
    (h.stop_le hlast (List.mem_of_mem_head? hfirst))

theorem Covers.within (ha : a.Covers part') (hs : s.Covers part) (h : InOrder part) (hpart : part' <:+: part) :
    s.start ≤ a.start ∧ a.stop ≤ s.stop := by
  obtain ⟨first', hfirst', last', hlast', rfl⟩ := ha
  obtain ⟨first, hfirst, last, hlast, rfl⟩ := hs
  exact ⟨h.start_le hfirst (hpart.subset (List.mem_of_mem_head? hfirst')),
    h.stop_le hlast (hpart.subset (List.mem_of_mem_getLast? hlast'))⟩

theorem Covers.stop_le_start (ha : a.Covers part) (hb : b.Covers part') (h : InOrder (part ++ behind))
    (hpart : part' <:+: behind) : a.stop ≤ b.start := by
  obtain ⟨first, hfirst, last, hlast, rfl⟩ := ha
  obtain ⟨first', hfirst', last', hlast', rfl⟩ := hb
  exact h.stop_le_start (List.mem_of_mem_getLast? hlast) (hpart.subset (List.mem_of_mem_head? hfirst'))

end Span

/-! ### Inner expressions -/

/-- Expressions stand one behind the other among tokens. -/
def Among : Tokens → List Expr → Prop
  | _, [] => True
  | part, e :: es => ∃ before own behind, part = before ++ (own ++ behind) ∧ e.span.Covers own ∧ Among behind es

namespace Among

variable {part : Tokens} {es : List Expr} {s : Span}

/-- Tokens in front of the expressions and behind them. -/
theorem extend (before : Tokens) : ∀ {es : List Expr} {part : Tokens} (behind : Tokens), Among part es →
    Among (before ++ (part ++ behind)) es
  | [], _, _, _ => trivial
  | e :: es, part, behind, h => by
    obtain ⟨before', own, behind', rfl, hcovers, hes⟩ := h
    refine ⟨before ++ before', own, behind' ++ behind, by simp only [List.append_assoc], hcovers, ?_⟩
    exact extend [] behind hes

theorem covers : ∀ {es : List Expr} {part : Tokens}, Among part es → ∀ e ∈ es, ∃ own, own <:+: part ∧ e.span.Covers own
  | [], _, _ => nofun
  | e :: es, part, h => by
    obtain ⟨before, own, behind, rfl, hcovers, hes⟩ := h
    refine List.forall_mem_cons.mpr ⟨⟨own, ⟨before, behind, List.append_assoc _ _ _⟩, hcovers⟩, fun e' he' => ?_⟩
    obtain ⟨own', hown', hcovers'⟩ := covers hes e' he'
    refine ⟨own', hown'.trans ?_, hcovers'⟩
    exact ((List.suffix_append own behind).trans (List.suffix_append before _)).isInfix

theorem within (h : Among part es) (hs : s.Covers part) (hpart : InOrder part) :
    ∀ e ∈ es, s.start ≤ e.span.start ∧ e.span.stop ≤ s.stop := by
  intro e he
  obtain ⟨own, hown, hcovers⟩ := h.covers e he
  exact hcovers.within hs hpart hown

theorem pairwise : ∀ {es : List Expr} {part : Tokens}, Among part es → InOrder part →
    es.Pairwise fun a b => a.span.stop ≤ b.span.start
  | [], _, _, _ => .nil
  | e :: es, part, h, hpart => by
    obtain ⟨before, own, behind, rfl, hcovers, hes⟩ := h
    have hbehind : InOrder (own ++ behind) := hpart.of_infix (List.suffix_append _ _).isInfix
    refine .cons (fun e' he' => ?_) (pairwise hes (hbehind.of_infix (List.suffix_append _ _).isInfix))
    obtain ⟨own', hown', hcovers'⟩ := hes.covers e' he'
    exact hcovers.stop_le_start hcovers' hbehind hown'

end Among

namespace Expr

/-- The expressions right inside an expression, from left to right. -/
def children : Expr → List Expr
  | literal _ _ | name _ _ | this _ => []
  | member o _ _ => [o]
  | call c as _ => c :: as
  | unary _ e _ => [e]
  | binary _ l r _ => [l, r]
  | conditional c t e _ => [c, t, e]
  | lambda _ _ b _ => [b]

theorem nodes_eq (e : Expr) : e.nodes = e :: e.children.flatMap nodes := by
  cases e <;> simp [nodes, children, nodesList_eq_flatMap]

theorem children_withSpan (s : Span) (e : Expr) : (e.withSpan s).children = e.children := by
  cases e <;> rfl

theorem forall_nodes {I : Expr → Prop} {e : Expr} (he : I e) (hchildren : ∀ k ∈ e.children, ∀ n ∈ k.nodes, I n) :
    ∀ n ∈ e.nodes, I n := by
  rw [nodes_eq, List.forall_mem_cons]
  refine ⟨he, fun n hn => ?_⟩
  obtain ⟨k, hk, hn⟩ := List.mem_flatMap.mp hn
  exact hchildren k hk n hn

end Expr

namespace Parse

variable {words : Tokens} {I : Expr → Prop} {c c₀ c' : Cursor} {t : Token} {e left : Expr}

/-! ### Tokens that are read -/

theorem ends_read (h : c.current = t) (ht : t ≠ .endOfFile) :
    Stateful.Ends advance c fun _ c' => ∃ w, c.tokens = w :: c'.tokens := by
  rintro _ _ ⟨⟩
  obtain ⟨w, hw, -⟩ := tokens_of_current h ht
  exact ⟨w, hw⟩

theorem previousSpan_advance {w : Token × Span} {ts : Tokens} (h : c.tokens = w :: ts) :
    c.advance.previousSpan = w.2 := by
  obtain ⟨previous, tokens, stop⟩ := c
  cases h
  rfl

theorem currentSpan_of_tokens {w : Token × Span} {ts : Tokens} (h : c.tokens = w :: ts) : c.currentSpan = w.2 := by
  obtain ⟨previous, tokens, stop⟩ := c
  cases h
  rfl

theorem ends_readExpected (ht : t ≠ .endOfFile) (c : Cursor) :
    Stateful.Ends (expect t) c fun _ c' => ∃ w, c.tokens = w :: c'.tokens ∧ c'.previousSpan = w.2 := by
  intro _ c' h
  rw [expect_apply] at h
  split at h
  · rename_i hcurrent
    cases h
    obtain ⟨w, hw, -⟩ := tokens_of_current hcurrent ht
    exact ⟨w, hw, previousSpan_advance hw⟩
  · cases h

theorem ends_readName (c : Cursor) :
    Stateful.Ends identifier c fun name c' => ∃ w, c.tokens = w :: c'.tokens ∧ name.2 = w.2 := by
  refine ends_currentSpan (ends_current ?_)
  cases h : c.current with
  | identifier name =>
    refine (ends_read h nofun).bind fun _ c' hread => ends_pure ?_
    obtain ⟨w, hw⟩ := hread
    exact ⟨w, hw, currentSpan_of_tokens hw⟩
  | _ => exact nofun

/-! ### What rules read -/

/-- An expression with these tokens: its span covers them, the inner expressions stand among them, and the nodes inside
have the property. -/
structure Shape (I : Expr → Prop) (part : Tokens) (e : Expr) : Prop where
  covers : e.span.Covers part
  among : Among part e.children
  inner : ∀ k ∈ e.children, ∀ n ∈ k.nodes, I n

/-- Between two cursors stands an expression of such a shape. -/
def Shapes (I : Expr → Prop) (c : Cursor) (e : Expr) (c' : Cursor) : Prop :=
  ∃ part, c.tokens = part ++ c'.tokens ∧ Shape I part e

/-- All nodes have the property, the whole expression too. -/
def Spans (I : Expr → Prop) (c : Cursor) (e : Expr) (c' : Cursor) : Prop := Shapes I c e c' ∧ I e

theorem Shape.nodes {part : Tokens} (h : Shape I part e) (he : I e) : ∀ n ∈ e.nodes, I n :=
  Expr.forall_nodes he h.inner

theorem suffix_behind (hc : c.tokens <:+ words) {part : Tokens} (h : c.tokens = part ++ c'.tokens) :
    c'.tokens <:+ words := List.IsSuffix.trans ⟨part, h.symm⟩ hc

theorem suffix_advance (hc : c.tokens <:+ words) {w : Token × Span} (h : c.tokens = w :: c'.tokens) :
    c'.tokens <:+ words := List.IsSuffix.trans ⟨[w], h.symm⟩ hc

theorem inOrder_part (hwords : InOrder words) (hc : c.tokens <:+ words) {part : Tokens}
    (h : c.tokens = part ++ c'.tokens) : InOrder part :=
  hwords.of_infix (List.IsInfix.trans ⟨[], c'.tokens, h.symm⟩ hc.isInfix)

theorem shapes_atom {build : Span → Expr} (h : c.current = t) (ht : t ≠ .endOfFile)
    (hbuild : ∀ s, (build s).span = s ∧ (build s).children = []) : Stateful.Ends (atom build) c (Shapes I c) := by
  refine ends_currentSpan ((ends_read h ht).bind fun _ c' hread => ends_pure ?_)
  obtain ⟨w, hw⟩ := hread
  obtain ⟨hspan, hchildren⟩ := hbuild c.currentSpan
  refine ⟨[w], hw, ?_, ?_, ?_⟩
  · rw [hspan, currentSpan_of_tokens hw]
    exact Span.covers_singleton w
  · rw [hchildren]
    trivial
  · rw [hchildren]
    exact nofun

section

variable {sub : Nat → Parse Expr} (hwords : InOrder words)
  (hsub : ∀ least c, c.tokens <:+ words → Stateful.Ends (sub least) c (Spans I c))

include hwords hsub

theorem shapes_unary (hc : c.tokens <:+ words) (op : UnaryOp) (h : c.current = t) (ht : t ≠ .endOfFile) :
    Stateful.Ends (advance >>= fun _ => sub 9 >>= fun e => pure (Expr.unary op e (c.currentSpan.through e.span))) c
      (Shapes I c) := by
  refine (ends_read h ht).bind fun _ c₁ hread => ?_
  obtain ⟨w, hw⟩ := hread
  refine (hsub 9 c₁ (suffix_advance hc hw)).bind fun e c₂ hspans => ends_pure ?_
  obtain ⟨⟨part, htokens, hshape⟩, he⟩ := hspans
  have hall : c.tokens = [w] ++ ([] ++ part) ++ c₂.tokens := by rw [hw, htokens]; rfl
  refine ⟨_, hall, ?_, ⟨[w], part, [], by simp, hshape.covers, trivial⟩,
    List.forall_mem_singleton.mpr (hshape.nodes he)⟩
  rw [currentSpan_of_tokens hw]
  exact (Span.covers_singleton w).through hshape.covers (inOrder_part hwords hc hall)

theorem shapes_group (hc : c.tokens <:+ words) (h : c.current = t) (ht : t ≠ .endOfFile) :
    Stateful.Ends (advance >>= fun _ => sub 0 >>= fun inner => expect (.symbol .rightParen) >>= fun _ =>
      previousSpan >>= fun stop => pure (inner.withSpan (c.currentSpan.through stop))) c (Shapes I c) := by
  refine (ends_read h ht).bind fun _ c₁ hread => ?_
  obtain ⟨w, hw⟩ := hread
  refine (hsub 0 c₁ (suffix_advance hc hw)).bind fun e c₂ hspans => ?_
  refine (ends_readExpected (by nofun) c₂).bind fun _ c₃ hread => ends_previousSpan (ends_pure ?_)
  obtain ⟨⟨part, htokens, hshape⟩, he⟩ := hspans
  obtain ⟨w', hw', hspan⟩ := hread
  have hall : c.tokens = [w] ++ (part ++ [w']) ++ c₃.tokens := by rw [hw, htokens, hw']; simp
  refine ⟨_, hall, ?_, ?_, ?_⟩
  · rw [Expr.span_withSpan, currentSpan_of_tokens hw, hspan]
    exact (Span.covers_singleton w).through (Span.covers_singleton w') (inOrder_part hwords hc hall)
  · rw [Expr.children_withSpan]
    exact hshape.among.extend [w] [w']
  · rw [Expr.children_withSpan]
    exact hshape.inner

theorem shapes_lambda (hc : c.tokens <:+ words) : Stateful.Ends (lambda sub) c (Shapes I c) := by
  refine ends_currentSpan ?_
  have hbody (isStatic : Bool) (front : Tokens) {c₁ : Cursor} (hfront : c.tokens = front ++ c₁.tokens) :
      Stateful.Ends (identifier >>= fun name => expect (.symbol .arrow) >>= fun _ => sub 0 >>= fun body =>
        pure (Expr.lambda isStatic name.1 body (c.currentSpan.through body.span))) c₁ (Shapes I c) := by
    refine (ends_readName c₁).bind fun name c₂ hname => (ends_readExpected (by nofun) c₂).bind fun _ c₃ harrow => ?_
    obtain ⟨w, hw, -⟩ := hname
    obtain ⟨w', hw', -⟩ := harrow
    have hbefore : c.tokens = front ++ [w, w'] ++ c₃.tokens := by rw [hfront, hw, hw', List.append_assoc]; rfl
    refine (hsub 0 c₃ (suffix_behind hc hbefore)).bind fun body c₄ hspans => ends_pure ?_
    obtain ⟨⟨part, htokens, hshape⟩, he⟩ := hspans
    obtain ⟨first, front', hfirst⟩ : ∃ first front', front ++ [w, w'] = first :: front' := by
      cases front with
      | nil => exact ⟨w, [w'], rfl⟩
      | cons f front => exact ⟨f, front ++ [w, w'], rfl⟩
    have hall : c.tokens = [first] ++ (front' ++ part) ++ c₄.tokens := by
      rw [hbefore, htokens, hfirst]
      simp
    refine ⟨_, hall, ?_, ⟨first :: front', part, [], by simp, hshape.covers, trivial⟩,
      List.forall_mem_singleton.mpr (hshape.nodes he)⟩
    rw [currentSpan_of_tokens hall]
    exact (Span.covers_singleton first).through hshape.covers (inOrder_part hwords hc hall)
  refine Stateful.Ends.bind (P := fun _ c₁ => ∃ front, c.tokens = front ++ c₁.tokens) ?_
    fun isStatic c₁ hfront => hbody isStatic hfront.choose hfront.choose_spec
  intro b c₁ hrun
  rw [accept_apply] at hrun
  split at hrun
  · rename_i hcurrent
    cases hrun
    obtain ⟨w, hw, -⟩ := tokens_of_current hcurrent nofun
    exact ⟨[w], hw⟩
  · cases hrun
    exact ⟨[], rfl⟩

theorem shapes_operand (hc : c.tokens <:+ words) : Stateful.Ends (operand sub) c (Shapes I c) := by
  refine ends_currentSpan (ends_current ?_)
  cases h : c.current with
  | integer v => exact shapes_atom h nofun fun _ => ⟨rfl, rfl⟩
  | float v => exact shapes_atom h nofun fun _ => ⟨rfl, rfl⟩
  | string v => exact shapes_atom h nofun fun _ => ⟨rfl, rfl⟩
  | identifier name =>
    show Stateful.Ends (if c.peek = .symbol .arrow then lambda sub else atom (.name name)) c _
    split
    · exact shapes_lambda hwords hsub hc
    · exact shapes_atom h nofun fun _ => ⟨rfl, rfl⟩
  | keyword k =>
    cases k with
    | true_ | false_ | null | this => exact shapes_atom h nofun fun _ => ⟨rfl, rfl⟩
    | static => exact shapes_lambda hwords hsub hc
    | _ => exact nofun
  | symbol y =>
    cases y with
    | bang => exact shapes_unary hwords hsub hc .not h nofun
    | minus => exact shapes_unary hwords hsub hc .negate h nofun
    | leftParen => exact shapes_group hwords hsub hc h nofun
    | _ => exact nofun
  | endOfFile => exact nofun

omit hwords in
/-- Arguments stand one behind the other. -/
theorem among_listed {k : Nat} {args : List Expr} (h : Listed (sub 0) k c args c') (hc : c.tokens <:+ words) :
    ∃ part, c.tokens = part ++ c'.tokens ∧ Among part args ∧ ∀ e ∈ args, ∀ n ∈ e.nodes, I n := by
  induction h with
  | closed => exact ⟨[], rfl, trivial, nofun⟩
  | last hopen hitem =>
    obtain ⟨⟨part, htokens, hshape⟩, he⟩ := hsub 0 _ hc _ _ hitem
    exact ⟨part, htokens, ⟨[], part, [], by simp, hshape.covers, trivial⟩,
      List.forall_mem_singleton.mpr (hshape.nodes he)⟩
  | more hopen hitem hcomma hrest ih =>
    obtain ⟨⟨part, htokens, hshape⟩, he⟩ := hsub 0 _ hc _ _ hitem
    obtain ⟨w, hw, -⟩ := tokens_of_current hcomma nofun
    obtain ⟨rest, htokens', hamong, hnodes⟩ := ih (suffix_advance (suffix_behind hc htokens) hw)
    refine ⟨part ++ w :: rest, ?_, ⟨[], part, w :: rest, rfl, hshape.covers, ?_⟩,
      List.forall_mem_cons.mpr ⟨hshape.nodes he, hnodes⟩⟩
    · rw [htokens, hw, htokens', List.append_assoc, List.cons_append]
    · simpa using hamong.extend [w] []

/-! ### Operators and their operands -/

omit hsub in
theorem shapes_member (hc : c₀.tokens <:+ words) (hleft : Spans I c₀ left c) (h : c.current = t) (ht : t ≠ .endOfFile) :
    Stateful.Ends (advance >>= fun _ => identifier >>= fun name =>
      pure (Expr.member left name.1 (left.span.through name.2))) c (Shapes I c₀) := by
  obtain ⟨⟨part, htokens, hshape⟩, he⟩ := hleft
  refine (ends_read h ht).bind fun _ c₁ hdot => (ends_readName c₁).bind fun name c₂ hname => ends_pure ?_
  obtain ⟨w, hw⟩ := hdot
  obtain ⟨w', hw', hspan⟩ := hname
  have hall : c₀.tokens = part ++ ([w] ++ [w']) ++ c₂.tokens := by rw [htokens, hw, hw']; simp
  refine ⟨_, hall, ?_, ⟨[], part, [w, w'], rfl, hshape.covers, trivial⟩,
    List.forall_mem_singleton.mpr (hshape.nodes he)⟩
  rw [hspan]
  exact hshape.covers.through (Span.covers_singleton w') (inOrder_part hwords hc hall)

theorem shapes_call (hc : c₀.tokens <:+ words) (hleft : Spans I c₀ left c) (h : c.current = t) (ht : t ≠ .endOfFile) :
    Stateful.Ends (advance >>= fun _ => remaining >>= fun n =>
      listedBefore (.symbol .rightParen) (sub 0) n >>= fun args => expect (.symbol .rightParen) >>= fun _ =>
        previousSpan >>= fun stop => pure (Expr.call left args (left.span.through stop))) c (Shapes I c₀) := by
  obtain ⟨⟨part, htokens, hshape⟩, he⟩ := hleft
  refine (ends_read h ht).bind fun _ c₁ hread => ?_
  obtain ⟨w, hw⟩ := hread
  have hbefore : c₀.tokens = part ++ [w] ++ c₁.tokens := by rw [htokens, hw]; simp
  rw [bind_listed]
  intro e c₃ hrun
  obtain ⟨args, c₂, hargs, hrun⟩ := bind_eq_ok.mp hrun
  obtain ⟨k, c', hlisted, rfl⟩ := listed_eq_ok hargs
  cases hrun
  obtain ⟨w', hw', -⟩ := tokens_of_current hlisted.current nofun
  obtain ⟨rest, hrest, hamong, hnodes⟩ := among_listed hsub hlisted (suffix_behind hc hbefore)
  have hall : c₀.tokens = part ++ (w :: rest ++ [w']) ++ c'.advance.tokens := by rw [hbefore, hrest, hw']; simp
  refine ⟨_, hall, ?_, ⟨[], part, w :: rest ++ [w'], rfl, hshape.covers, hamong.extend [w] [w']⟩,
    List.forall_mem_cons.mpr ⟨hshape.nodes he, hnodes⟩⟩
  show (left.span.through c'.advance.previousSpan).Covers _
  rw [previousSpan_advance hw']
  exact hshape.covers.through (Span.covers_singleton w') (inOrder_part hwords hc hall)

theorem shapes_conditional (hc : c₀.tokens <:+ words) (hleft : Spans I c₀ left c) (h : c.current = t)
    (ht : t ≠ .endOfFile) :
    Stateful.Ends (advance >>= fun _ => sub 0 >>= fun thenBranch => expect (.symbol .colon) >>= fun _ =>
      sub 0 >>= fun elseBranch =>
        pure (Expr.conditional left thenBranch elseBranch (left.span.through elseBranch.span))) c (Shapes I c₀) := by
  obtain ⟨⟨part, htokens, hshape⟩, he⟩ := hleft
  refine (ends_read h ht).bind fun _ c₁ hread => ?_
  obtain ⟨w, hw⟩ := hread
  have hquestion : c₀.tokens = part ++ [w] ++ c₁.tokens := by rw [htokens, hw]; simp
  refine (hsub 0 c₁ (suffix_behind hc hquestion)).bind fun thenBranch c₂ hthen => ?_
  obtain ⟨⟨part₁, htokens₁, hshape₁⟩, he₁⟩ := hthen
  refine (ends_readExpected (by nofun) c₂).bind fun _ c₃ hread => ?_
  obtain ⟨w', hw', -⟩ := hread
  have hcolon : c₀.tokens = part ++ [w] ++ part₁ ++ [w'] ++ c₃.tokens := by rw [hquestion, htokens₁, hw']; simp
  refine (hsub 0 c₃ (suffix_behind hc hcolon)).bind fun elseBranch c₄ helse => ends_pure ?_
  obtain ⟨⟨part₂, htokens₂, hshape₂⟩, he₂⟩ := helse
  have hall : c₀.tokens = part ++ (([w] ++ (part₁ ++ [w'])) ++ part₂) ++ c₄.tokens := by rw [hcolon, htokens₂]; simp
  refine ⟨_, hall, hshape.covers.through hshape₂.covers (inOrder_part hwords hc hall),
    ⟨[], part, _, rfl, hshape.covers, [w], part₁, w' :: part₂, by simp, hshape₁.covers, [w'], part₂, [], by simp,
      hshape₂.covers, trivial⟩, ?_⟩
  exact List.forall_mem_cons.mpr ⟨hshape.nodes he, List.forall_mem_cons.mpr ⟨hshape₁.nodes he₁,
    List.forall_mem_singleton.mpr (hshape₂.nodes he₂)⟩⟩

theorem shapes_binary (hc : c₀.tokens <:+ words) (hleft : Spans I c₀ left c) (op : BinaryOp) (h : c.current = t)
    (ht : t ≠ .endOfFile) :
    Stateful.Ends (advance >>= fun _ => sub op.precedence >>= fun right =>
      pure (Expr.binary op left right (left.span.through right.span))) c (Shapes I c₀) := by
  obtain ⟨⟨part, htokens, hshape⟩, he⟩ := hleft
  refine (ends_read h ht).bind fun _ c₁ hread => ?_
  obtain ⟨w, hw⟩ := hread
  have hbefore : c₀.tokens = part ++ [w] ++ c₁.tokens := by rw [htokens, hw]; simp
  refine (hsub op.precedence c₁ (suffix_behind hc hbefore)).bind fun right c₂ hright => ends_pure ?_
  obtain ⟨⟨part₁, htokens₁, hshape₁⟩, he₁⟩ := hright
  have hall : c₀.tokens = part ++ ([w] ++ part₁) ++ c₂.tokens := by rw [hbefore, htokens₁]; simp
  refine ⟨_, hall, hshape.covers.through hshape₁.covers (inOrder_part hwords hc hall),
    ⟨[], part, _, rfl, hshape.covers, [w], part₁, [], by simp, hshape₁.covers, trivial⟩, ?_⟩
  exact List.forall_mem_cons.mpr ⟨hshape.nodes he, List.forall_mem_singleton.mpr (hshape₁.nodes he₁)⟩

theorem shapes_extend (hc : c₀.tokens <:+ words) (hleft : Spans I c₀ left c) (h : strength c.current ≠ 0) :
    Stateful.Ends (extend sub left) c (Shapes I c₀) := by
  refine ends_current ?_
  obtain hcurrent | hcurrent | hcurrent | ⟨op, hcurrent⟩ := operator_cases h
  · rw [hcurrent]
    exact shapes_member hwords hc hleft hcurrent nofun
  · rw [hcurrent]
    exact shapes_call hwords hsub hc hleft hcurrent nofun
  · rw [hcurrent]
    exact shapes_conditional hwords hsub hc hleft hcurrent nofun
  · rw [hcurrent]
    have hbinary := shapes_binary hwords hsub hc hleft op hcurrent nofun
    cases op <;> exact hbinary

end

end Parse

/-! ### Every node -/

/-- Some of the tokens are those of the node: its span covers them, the inner expressions stand among them, and where
they stand alone they are read as that node. -/
def Expr.Parted (words : Tokens) (n : Expr) : Prop :=
  ∃ part, part <:+: words ∧ n.span.Covers part ∧ Among part n.children ∧
    ∀ c : Cursor, c.kinds = part.map Prod.fst → ∃ e c', Parse.expression c = .ok e c' ∧ e.bare = n.bare ∧ c'.kinds = []

namespace Parse

variable {words : Tokens} {k least : Nat} {c c' : Cursor} {e : Expr}

/-- What has been built is a node with tokens of its own. -/
theorem Builds.parted (h : Builds (expressionWithin k) least c e c') (hk : k < maxDepth) (hc : c.tokens <:+ words)
    (hshapes : Shapes (Expr.Parted words) c e c') : e.Parted words := by
  obtain ⟨part, htokens, hshape⟩ := hshapes
  obtain ⟨ts, -, hts, halone⟩ := h.alone hk
  refine ⟨part, List.IsInfix.trans ⟨[], c'.tokens, htokens.symm⟩ hc.isInfix, hshape.covers, hshape.among, ?_⟩
  have hkinds : part.map Prod.fst = ts := by
    unfold Cursor.kinds at hts
    rw [htokens, List.map_append] at hts
    exact List.append_cancel_right hts
  rw [hkinds]
  exact halone

theorem Builds.spans (hwords : InOrder words) (hk : k < maxDepth) (hc : c.tokens <:+ words)
    (hsub : ∀ least c, c.tokens <:+ words →
      Stateful.Ends (expressionWithin k least) c (Spans (Expr.Parted words) c))
    (h : Builds (expressionWithin k) least c e c') : Spans (Expr.Parted words) c e c' := by
  induction h with
  | @operand e c' hoperand =>
    have hbuilds : Builds (expressionWithin k) least c e c' := .operand hoperand
    have hshapes := shapes_operand hwords hsub hc e c' hoperand
    exact ⟨hshapes, hbuilds.parted hk hc hshapes⟩
  | @extend left e c₁ c' hleft hgoes hextend ih =>
    have hbuilds : Builds (expressionWithin k) least c e c' := .extend hleft hgoes hextend
    have hshapes := shapes_extend hwords hsub hc ih (continues_iff.mp hgoes).1 e c' hextend
    exact ⟨hshapes, hbuilds.parted hk hc hshapes⟩

theorem spans_expressionWithin (hwords : InOrder words) : ∀ {k : Nat}, k ≤ maxDepth → ∀ (least : Nat) (c : Cursor),
    c.tokens <:+ words → Stateful.Ends (expressionWithin k least) c (Spans (Expr.Parted words) c)
  | 0, _, _, _, _ => nofun
  | _ + 1, hk, _, _, hc => fun _ _ hrun =>
    (expressionWithin_eq_ok.mp hrun).1.spans hwords hk hc (spans_expressionWithin hwords (Nat.le_of_succ_le hk))

/-- Every node of an expression has tokens of its own. -/
theorem parted_expression (hwords : InOrder c.tokens) (h : expression c = .ok e c') :
    ∀ n ∈ e.nodes, n.Parted c.tokens := by
  obtain ⟨⟨part, -, hshape⟩, he⟩ :=
    spans_expressionWithin hwords (Nat.le_refl maxDepth) 0 c List.suffix_rfl e c' h
  exact hshape.nodes he

end Parse

end Reactive
