import Mathlib.Tactic.Common
import Reactive.Expr.Parser
import Reactive.Proofs.Printing
import Reactive.Proofs.Stateful

/-!
# Reactive.Proofs.Grouping — the parser groups as the printer does

The printer puts parentheses by the precedence of an operator, the parser goes on with an operator by its strength;
here these agree, and the tokens of a printed expression are read as that expression.

* `Parse.Within`: reading ends well, or stops only because expressions are nested too deeply, and says when.
* `Parse.Fits least p`: whoever goes on with operators that bind more strongly than `least` goes on with everything that
  is printed bare at level `p`.  `Parse.Ends p rest`: what follows an expression printed at level `p` does not go on
  with the last operand of it.
* `Parse.Reads`: tokens at a level are read as an expression, and then reading goes on with the operators behind it; one
  lemma for each form that an expression is printed in, and `reads_tokensAt` for all expressions.
-/

namespace Reactive

open Stateful

/-- The tokens left, without their places. -/
def Cursor.kinds (c : Cursor) : List Token := c.tokens.map Prod.fst

/-- The first token; behind the last one comes the end of the file. -/
def headToken (ts : List Token) : Token := ts.head?.getD .endOfFile

namespace Expr

/-- The depth of what may stand in parentheses that count for `cost`. -/
def deepened (cost : Nat) (needed : Bool) (depth : Nat) : Nat := if needed then depth + cost else depth

mutual

/-- How many expressions are open inside each other where an expression is deepest, besides itself, if it is printed at
a level and each pair of parentheses counts for `cost`. -/
def nestingAt (cost least : Nat) : Expr → Nat
  | literal _ _ | name _ _ | this _ => 0
  | member o _ _ => nestingAt cost 10 o
  | call c args _ => max (nestingAt cost 10 c) (nestingList cost args)
  | unary op e _ =>
    deepened cost (least > 9) <|
      (if op = .negate && e.isNegation then deepened cost true (nestingAt cost 0 e) else nestingAt cost 9 e) + 1
  | binary op l r _ =>
    deepened cost (op.precedence < least) <|
      max (nestingAt cost (operandStrengths op).1 l) (nestingAt cost (operandStrengths op).2 r + 1)
  | conditional c t e _ =>
    deepened cost (least > 1) <| max (nestingAt cost 2 c) (max (nestingAt cost 1 t + 1) (nestingAt cost 1 e + 1))
  | lambda _ _ b _ => deepened cost (least > 0) (nestingAt cost 0 b + 1)

/-- The greatest depth of arguments, each of them being open inside the call. -/
def nestingList (cost : Nat) : List Expr → Nat
  | [] => 0
  | e :: es => max (nestingAt cost 0 e + 1) (nestingList cost es)

end

end Expr

namespace Cursor

variable {c : Cursor} {t u : Token} {ts : List Token}

theorem current_eq (c : Cursor) : c.current = headToken c.kinds := by
  unfold current kinds headToken
  cases c.tokens <;> rfl

theorem current_of_kinds (h : c.kinds = t :: ts) : c.current = t := by
  rw [current_eq, h]
  rfl

theorem peek_of_kinds (h : c.kinds = t :: ts) : c.peek = headToken ts := by
  obtain ⟨previous, tokens, stop⟩ := c
  obtain ⟨a, as, rfl, rfl, rfl⟩ := List.map_eq_cons_iff.mp h
  cases as <;> rfl

theorem kinds_advance (h : c.kinds = t :: ts) : c.advance.kinds = ts := by
  obtain ⟨previous, tokens, stop⟩ := c
  obtain ⟨a, as, rfl, rfl, rfl⟩ := List.map_eq_cons_iff.mp h
  rfl

theorem length_kinds (c : Cursor) : c.kinds.length = c.tokens.length := List.length_map _

end Cursor

namespace Parse

variable {α β : Type} {fits fits' : Prop} {x : Parse α} {f : α → Parse β} {c : Cursor} {P : α → Cursor → Prop}
  {Q : β → Cursor → Prop} {t : Token} {ts rest : List Token}

/-! ### Reading that may be too deep -/

/-- If `fits` holds, reading ends with a property; otherwise it stops because expressions are nested too deeply. -/
def Within (fits : Prop) (x : Parse α) (c : Cursor) (P : α → Cursor → Prop) : Prop :=
  (fits ∧ ∃ a c', x c = .ok a c' ∧ P a c') ∨ (¬fits ∧ ∃ span c', x c = .error ⟨.tooDeep, span⟩ c')

theorem within_of_ok {a : α} {c' : Cursor} (h : x c = .ok a c') (hP : P a c') : Within True x c P :=
  Or.inl ⟨trivial, a, c', h, hP⟩

theorem Within.congr (h : Within fits x c P) (hfits : fits ↔ fits') : Within fits' x c P := by
  rcases h with ⟨h, hx⟩ | ⟨h, hx⟩
  · exact Or.inl ⟨hfits.mp h, hx⟩
  · exact Or.inr ⟨fun h' => h (hfits.mpr h'), hx⟩

/-- Of two parts one after another the first may be too deep, or else the second. -/
theorem Within.bind (h : Within fits x c P) (hf : ∀ a c', P a c' → Within fits' (f a) c' Q) :
    Within (fits ∧ fits') (x >>= f) c Q := by
  rcases h with ⟨h, a, c', hx, hP⟩ | ⟨h, span, c', hx⟩
  · rcases hf a c' hP with ⟨h', b, c'', hfa, hQ⟩ | ⟨h', span, c'', hfa⟩
    · exact Or.inl ⟨⟨h, h'⟩, b, c'', by rw [bind_of_ok hx, hfa], hQ⟩
    · exact Or.inr ⟨fun hboth => h' hboth.2, span, c'', by rw [bind_of_ok hx, hfa]⟩
  · exact Or.inr ⟨fun hboth => h hboth.1, span, c', bind_of_error hx⟩

/-- A step that ends well. -/
theorem within_bind_of_ok {a : α} {c' : Cursor} (h : x c = .ok a c') (hf : Within fits (f a) c' Q) :
    Within fits (x >>= f) c Q := by
  unfold Within at hf ⊢
  rw [bind_of_ok h]
  exact hf

/-- Nothing follows that may be too deep. -/
theorem Within.bind_true (h : Within fits x c P) (hf : ∀ a c', P a c' → Within True (f a) c' Q) :
    Within fits (x >>= f) c Q :=
  (h.bind hf).congr ⟨And.left, fun h => ⟨h, trivial⟩⟩

/-! ### Single steps -/

theorem within_currentSpan {f : Span → Parse β} (hf : ∀ span, Within fits (f span) c Q) :
    Within fits (currentSpan >>= f) c Q := hf c.currentSpan

theorem within_previousSpan {f : Span → Parse β} (hf : ∀ span, Within fits (f span) c Q) :
    Within fits (previousSpan >>= f) c Q := hf c.previousSpan

theorem within_current {f : Token → Parse β} (hc : c.kinds = t :: ts) (hf : Within fits (f t) c Q) :
    Within fits (current >>= f) c Q := by
  rw [← c.current_of_kinds hc] at hf
  exact hf

theorem within_advance {f : Unit → Parse β} (hc : c.kinds = t :: ts)
    (hf : ∀ c', c'.kinds = ts → Within fits (f ()) c' Q) : Within fits (advance >>= f) c Q :=
  hf c.advance (c.kinds_advance hc)

theorem check_apply (t : Token) (c : Cursor) : check t c = .ok (decide (c.current = t)) c := rfl

theorem accept_apply (t : Token) (c : Cursor) :
    accept t c = if c.current = t then .ok true c.advance else .ok false c := by
  unfold accept
  rw [bind_of_ok (check_apply t c)]
  by_cases h : c.current = t
  · rw [if_pos h, decide_eq_true h]
    rfl
  · rw [if_neg h, decide_eq_false h]
    rfl

theorem within_accept {f : Bool → Parse β} (hc : c.kinds = t :: ts)
    (hf : ∀ c', c'.kinds = ts → Within fits (f true) c' Q) : Within fits (accept t >>= f) c Q := by
  have haccept : accept t c = .ok true c.advance := by rw [accept_apply, if_pos (c.current_of_kinds hc)]
  exact within_bind_of_ok haccept (hf c.advance (c.kinds_advance hc))

theorem within_accept_of_ne {f : Bool → Parse β} (hc : headToken c.kinds ≠ t) (hf : Within fits (f false) c Q) :
    Within fits (accept t >>= f) c Q := by
  have haccept : accept t c = .ok false c := by rw [accept_apply, if_neg (by rwa [c.current_eq])]
  exact within_bind_of_ok haccept hf

theorem within_expect {f : Unit → Parse β} (hc : c.kinds = t :: ts)
    (hf : ∀ c', c'.kinds = ts → Within fits (f ()) c' Q) : Within fits (expect t >>= f) c Q := by
  have hexpect : expect t c = .ok () c.advance := by
    unfold expect
    rw [bind_of_ok (show accept t c = .ok true c.advance by rw [accept_apply, if_pos (c.current_of_kinds hc)])]
    rfl
  exact within_bind_of_ok hexpect (hf c.advance (c.kinds_advance hc))

theorem within_identifier {n : String} {f : String × Span → Parse β} (hc : c.kinds = .identifier n :: ts)
    (hf : ∀ span c', c'.kinds = ts → Within fits (f (n, span)) c' Q) : Within fits (identifier >>= f) c Q := by
  have hidentifier : identifier c = .ok (n, c.currentSpan) c.advance := by
    have hcurrent : current c = .ok (.identifier n) c := by
      rw [← c.current_of_kinds hc]
      rfl
    unfold identifier
    rw [bind_of_ok (show currentSpan c = .ok c.currentSpan c from rfl), bind_of_ok hcurrent]
    rfl
  exact within_bind_of_ok hidentifier (hf c.currentSpan c.advance (c.kinds_advance hc))

/-! ### Strength -/

/-- Who goes on with operators that bind more strongly than `least` goes on with all that bind at least as strongly as
`p`. -/
def Fits (least p : Nat) : Prop := ∀ t, p ≤ strength t → strength t ≠ 0 → continues least t = true

/-- What stands behind an expression of level `p` does not go on with an operand of it, nor makes it a parameter. -/
def Ends (p : Nat) (rest : List Token) : Prop :=
  continues p (headToken rest) = false ∧ headToken rest ≠ .symbol .arrow

theorem continues_iff {least : Nat} : continues least t = true ↔
    strength t ≠ 0 ∧ (least < strength t ∨ strength t = least ∧ groupsRight t = true) := by
  simp [continues]

theorem continues_mono {p q : Nat} (h : continues q t = true) (hpq : p ≤ q) : continues p t = true := by
  rw [continues_iff] at h ⊢
  refine ⟨h.1, ?_⟩
  rcases h.2 with hlt | ⟨heq, hright⟩
  · exact Or.inl (by omega)
  · by_cases hp : p = q
    · exact Or.inr ⟨by omega, hright⟩
    · exact Or.inl (by omega)

theorem Fits.mono {least p q : Nat} (h : Fits least p) (hpq : p ≤ q) : Fits least q := fun t ht => h t (by omega)

theorem Ends.mono {p q : Nat} (h : Ends p rest) (hpq : p ≤ q) : Ends q rest := by
  refine ⟨Bool.eq_false_iff.mpr fun hq => ?_, h.2⟩
  exact Bool.eq_false_iff.mp h.1 (continues_mono hq hpq)

theorem strength_binary (op : BinaryOp) : strength (.symbol op.symbol) = op.precedence := by
  cases op <;> decide

/-- The conditional and `??`, the weakest operators, group to the right. -/
theorem groupsRight_of_strength (h : strength t = 1 ∨ strength t = 2) : groupsRight t = true := by
  cases t with
  | symbol s => cases s <;> first | rfl | exact absurd h (by decide)
  | _ => simp [strength] at h

/-- Signs bind more strongly than every operator between two operands. -/
theorem strength_cases (t : Token) : strength t ≤ 8 ∨ strength t = 10 := by
  cases t with
  | symbol s => cases s <;> decide
  | _ => exact Or.inl (by simp [strength])

theorem fits_zero : Fits 0 0 := by
  intro t _ ht
  rw [continues_iff]
  omega

theorem fits_conditional : Fits 0 1 := fits_zero.mono (by omega)

/-- The weakest operator is the conditional, which groups to the right. -/
theorem continues_one (h : continues 0 t = true) : continues 1 t = true := by
  rw [continues_iff] at h ⊢
  refine ⟨h.1, ?_⟩
  by_cases hone : strength t = 1
  · exact Or.inr ⟨hone, groupsRight_of_strength (Or.inl hone)⟩
  · exact Or.inl (by omega)

theorem fits_unary : Fits 9 9 := by
  intro t hle ht
  rw [continues_iff]
  have := strength_cases t
  omega

/-- The right operand of an operator. -/
theorem fits_right (op : BinaryOp) : Fits op.precedence (Expr.operandStrengths op).2 := by
  intro t hle ht
  rw [continues_iff]
  refine ⟨ht, ?_⟩
  by_cases hop : op = .coalesce
  · rw [hop] at hle ⊢
    have hle : 2 ≤ strength t := hle
    by_cases htwo : strength t = 2
    · exact Or.inr ⟨htwo, groupsRight_of_strength (Or.inr htwo)⟩
    · exact Or.inl (show 2 < strength t by omega)
  · rw [Expr.operandStrengths, if_neg hop] at hle
    exact Or.inl hle

/-- The left operand of an operator, which stands behind it. -/
theorem ends_left (op : BinaryOp) : Ends (Expr.operandStrengths op).1 (.symbol op.symbol :: rest) := by
  show continues _ (.symbol op.symbol) = false ∧ Token.symbol op.symbol ≠ .symbol .arrow
  cases op <;> decide

theorem le_operandStrengths (op : BinaryOp) :
    op.precedence ≤ (Expr.operandStrengths op).1 ∧ op.precedence ≤ (Expr.operandStrengths op).2 ∧
      (Expr.operandStrengths op).1 ≤ 10 ∧ (Expr.operandStrengths op).2 ≤ 10 := by
  cases op <;> decide

/-! ### Reading and going on -/

/-- Printed at a level, the tokens are an expression: reading at a cursor before them comes down to going on behind
them with that expression. -/
def Reads (p : Nat) (ts : List Token) (depth : Nat) (e : Expr) : Prop :=
  ∀ (d least : Nat) (rest : List Token) (c : Cursor) (fits : Prop) (Q : Expr → Cursor → Prop), Fits least p →
    Ends p rest → c.kinds = ts ++ rest →
    (∀ e' c' n, e'.bare = e.bare → c'.kinds = rest → rest.length ≤ n →
      Within fits (chain (expressionWithin d) least n e') c' Q) →
    Within (depth ≤ d ∧ fits) (expressionWithin (d + 1) least) c Q

variable {p q d least depth depth' : Nat} {e l : Expr}

/-- A whole expression, where it is not gone on with. -/
theorem Reads.whole (h : Reads p ts depth e) (hfits : Fits least p) (hends : Ends p rest)
    (hstop : continues least (headToken rest) = false) (hc : c.kinds = ts ++ rest) :
    Within (depth < d) (expressionWithin d least) c fun e' c' => e'.bare = e.bare ∧ c'.kinds = rest := by
  cases d with
  | zero => exact Or.inr ⟨by omega, c.currentSpan, c, rfl⟩
  | succ d =>
    have hdepth : depth ≤ d ∧ True ↔ depth < d + 1 := by rw [and_true, Nat.lt_succ_iff]
    refine Within.congr (h d least rest c True _ hfits hends hc fun e' c' n he hc' _ => ?_) hdepth
    cases n with
    | zero => exact within_of_ok rfl ⟨he, hc'⟩
    | succ n =>
      have hchain : chain (expressionWithin d) least (n + 1) e' c' = .ok e' c' := by
        show (if continues least c'.current = true then _ else pure e' : Parse Expr) c' = _
        rw [c'.current_eq, hc', hstop, if_neg Bool.false_ne_true]
        rfl
      exact within_of_ok hchain ⟨he, hc'⟩

/-- What is read as one operand. -/
theorem reads_of_operand (h : ∀ (d : Nat) (rest : List Token) (c : Cursor), Ends p rest → c.kinds = ts ++ rest →
    Within (depth ≤ d) (operand (expressionWithin d)) c fun e' c' => e'.bare = e.bare ∧ c'.kinds = rest) :
    Reads p ts depth e := by
  intro d least rest c fits Q _ hends hc hgo
  refine (h d rest c hends hc).bind fun e' c' ⟨he, hc'⟩ => ?_
  refine hgo e' c' c'.tokens.length he hc' ?_
  rw [← hc', c'.length_kinds]

/-- What is read as an expression, and then as something that goes on from it with the token behind it. -/
theorem reads_of_extend {ts' : List Token} (hl : Reads q ts depth l) (hpq : p ≤ q)
    (hends : ∀ rest, Ends q (t :: rest)) (ht : p ≤ strength t) (hnz : strength t ≠ 0)
    (h : ∀ (d : Nat) (rest : List Token) (c : Cursor) (l' : Expr), Ends p rest → l'.bare = l.bare →
      c.kinds = t :: (ts' ++ rest) →
      Within (depth' ≤ d) (extend (expressionWithin d) l') c fun e' c' => e'.bare = e.bare ∧ c'.kinds = rest) :
    Reads p (ts ++ t :: ts') (max depth depth') e := by
  intro d least rest c fits Q hfits hrest hc hgo
  have hc' : c.kinds = ts ++ (t :: (ts' ++ rest)) := by
    rw [hc, List.append_assoc, List.cons_append]
  have hparts : (depth ≤ d ∧ depth' ≤ d ∧ fits) ↔ (max depth depth' ≤ d ∧ fits) := by
    rw [← and_assoc, Nat.max_le]
  refine (hl d least _ c _ Q (hfits.mono hpq) (hends _) hc' fun l' c₁ n hl' hc₁ hn => ?_).congr hparts
  obtain ⟨n, rfl⟩ : ∃ m, n = m + 1 := ⟨n - 1, by rw [List.length_cons] at hn; omega⟩
  have hcontinues : chain (expressionWithin d) least (n + 1) l' =
      (current >>= fun t => if continues least t = true then
        (extend (expressionWithin d) l' >>= fun e' => chain (expressionWithin d) least n e') else pure l') := rfl
  rw [hcontinues]
  refine within_current hc₁ ?_
  rw [if_pos (hfits t ht hnz)]
  refine (h d rest c₁ l' hrest hl' hc₁).bind fun e' c₂ ⟨he, hc₂⟩ => hgo e' c₂ n he hc₂ ?_
  rw [List.length_cons, List.length_append] at hn
  omega

/-! ### Operands -/

theorem within_atom {build : Span → Expr} (hc : c.kinds = t :: rest) (hbuild : ∀ span, (build span).bare = e.bare) :
    Within (0 ≤ d) (atom build) c fun e' c' => e'.bare = e.bare ∧ c'.kinds = rest := by
  unfold atom
  refine within_currentSpan fun span => within_advance hc fun c' hc' => ?_
  exact (within_of_ok rfl ⟨hbuild span, hc'⟩).congr ⟨fun _ => Nat.zero_le d, fun _ => trivial⟩

theorem reads_literal (v : Literal) (s : Span) : Reads p [v.token] 0 (.literal v s) := by
  refine reads_of_operand fun d rest c _ hc => ?_
  unfold operand
  refine within_currentSpan fun span => within_current hc ?_
  cases v with
  | bool b => cases b <;> exact within_atom hc fun _ => rfl
  | null | int _ | float _ | string _ => exact within_atom hc fun _ => rfl

theorem reads_this (s : Span) : Reads p [.keyword .this] 0 (.this s) := by
  refine reads_of_operand fun d rest c _ hc => ?_
  unfold operand
  exact within_currentSpan fun span => within_current hc (within_atom hc fun _ => rfl)

/-- A name is no parameter, since no arrow stands behind it. -/
theorem reads_name (n : String) (s : Span) : Reads p [.identifier n] 0 (.name n s) := by
  refine reads_of_operand fun d rest c hends hc => ?_
  unfold operand
  refine within_currentSpan fun span => within_current hc ?_
  show Within _ (if c.peek = .symbol .arrow then lambda (expressionWithin d) else atom (.name n)) c _
  rw [if_neg (by rw [c.peek_of_kinds hc]; exact hends.2)]
  exact within_atom hc fun _ => rfl

theorem ends_rightParen : Ends p (.symbol .rightParen :: rest) := ⟨rfl, nofun⟩

theorem reads_parenthesized (h : Reads 0 ts depth e) :
    Reads p (.symbol .leftParen :: (ts ++ [.symbol .rightParen])) (depth + 1) e := by
  refine reads_of_operand fun d rest c _ hc => ?_
  unfold operand
  refine within_currentSpan fun span => within_current hc (within_advance hc fun c₁ hc₁ => ?_)
  have hc₁ : c₁.kinds = ts ++ ([.symbol .rightParen] ++ rest) := by rw [hc₁, ← List.append_assoc]; rfl
  refine (h.whole fits_zero ends_rightParen rfl hc₁).bind_true fun e' c₂ ⟨he, hc₂⟩ => ?_
  refine within_expect hc₂ fun c₃ hc₃ => within_previousSpan fun span' => ?_
  exact within_of_ok rfl ⟨by rw [Expr.bare_withSpan, he], hc₃⟩

/-- An expression that is printed in parentheses only where they are needed. -/
theorem reads_enclosed {needed : Bool} (h : Reads 0 ts depth e) (hbare : needed = false → Reads p ts depth e) :
    Reads p (Expr.enclosed needed ts) (Expr.deepened 1 needed depth) e := by
  cases needed with
  | false => exact hbare rfl
  | true => exact reads_parenthesized h

theorem reads_unary (op : UnaryOp) (s : Span) (h : Reads 9 ts depth e) (hp : p ≤ 9) :
    Reads p (.symbol op.symbol :: ts) (depth + 1) (.unary op e s) := by
  refine reads_of_operand fun d rest c hends hc => ?_
  have hends := hends.mono hp
  unfold operand
  refine within_currentSpan fun span => within_current hc ?_
  cases op <;>
  · refine within_advance hc fun c₁ hc₁ => ?_
    refine (h.whole fits_unary hends hends.1 hc₁).bind_true fun e' c₂ ⟨he, hc₂⟩ => ?_
    exact within_of_ok rfl ⟨by rw [Expr.bare, Expr.bare, he], hc₂⟩

theorem reads_lambda (isStatic : Bool) (n : String) (s : Span) (h : Reads 0 ts depth e) :
    Reads 0 ((if isStatic then [.keyword .static] else []) ++ .identifier n :: .symbol .arrow :: ts) (depth + 1)
      (.lambda isStatic n e s) := by
  refine reads_of_operand fun d rest c hends hc => ?_
  have hbody (start : Span) {c : Cursor} (hc : c.kinds = .identifier n :: .symbol .arrow :: (ts ++ rest)) :
      Within (depth < d) (identifier >>= fun param => expect (.symbol .arrow) >>= fun _ =>
        expressionWithin d 0 >>= fun body => pure (Expr.lambda isStatic param.1 body (start.through body.span))) c
        fun e' c' => e'.bare = (Expr.lambda isStatic n e s).bare ∧ c'.kinds = rest := by
    refine within_identifier hc fun span c₁ hc₁ => within_expect hc₁ fun c₂ hc₂ => ?_
    refine (h.whole fits_zero hends hends.1 hc₂).bind_true fun e' c₃ ⟨he, hc₃⟩ => ?_
    exact within_of_ok rfl ⟨by rw [Expr.bare, Expr.bare, he], hc₃⟩
  unfold operand
  refine within_currentSpan fun span => ?_
  cases isStatic with
  | false =>
    refine within_current hc ?_
    show Within _ (if c.peek = .symbol .arrow then lambda (expressionWithin d) else atom (.name n)) c _
    have hpeek : c.peek = .symbol .arrow := c.peek_of_kinds hc
    rw [if_pos hpeek]
    unfold lambda
    refine within_currentSpan fun start => within_accept_of_ne (by rw [hc]; nofun) ?_
    exact hbody start hc
  | true =>
    refine within_current hc ?_
    unfold lambda
    exact within_currentSpan fun start => within_accept hc fun c₁ hc₁ => hbody start hc₁

/-! ### What goes on from an expression -/

theorem reads_member (n : String) (s : Span) (h : Reads 10 ts depth e) (hp : p ≤ 10) :
    Reads p (ts ++ [.symbol .dot, .identifier n]) depth (.member e n s) := by
  have hreads : Reads p (ts ++ [.symbol .dot, .identifier n]) (max depth 0) (.member e n s) := by
    refine reads_of_extend h hp (fun rest => ⟨rfl, nofun⟩) hp (by decide) fun d rest c e' _ he' hc => ?_
    unfold extend
    refine within_current hc (within_advance hc fun c₁ hc₁ => within_identifier hc₁ fun span c₂ hc₂ => ?_)
    exact (within_of_ok rfl ⟨by rw [Expr.bare, Expr.bare, he'], hc₂⟩).congr ⟨fun _ => Nat.zero_le d, fun _ => trivial⟩
  rwa [Nat.max_zero] at hreads

theorem reads_binary {r : Expr} {ts' : List Token} (op : BinaryOp) (s : Span)
    (hl : Reads (Expr.operandStrengths op).1 ts depth l) (hr : Reads (Expr.operandStrengths op).2 ts' depth' r)
    (hp : p ≤ op.precedence) :
    Reads p (ts ++ .symbol op.symbol :: ts') (max depth (depth' + 1)) (.binary op l r s) := by
  obtain ⟨hle, hle', -⟩ := le_operandStrengths op
  refine reads_of_extend hl (by omega) (fun rest => ends_left op) (by rw [strength_binary]; exact hp)
    (by rw [strength_binary]; cases op <;> decide) fun d rest c l' hends hl' hc => ?_
  have hright : Within (depth' + 1 ≤ d) (advance >>= fun _ => expressionWithin d op.precedence >>= fun right =>
      pure (Expr.binary op l' right (l'.span.through right.span))) c
      fun e' c' => e'.bare = (Expr.binary op l r s).bare ∧ c'.kinds = rest := by
    refine within_advance hc fun c₁ hc₁ => ?_
    have hstop := (hends.mono hp).1
    refine (hr.whole (fits_right op) (hends.mono (by omega)) hstop hc₁).bind_true fun r' c₂ ⟨hr', hc₂⟩ => ?_
    exact within_of_ok rfl ⟨by rw [Expr.bare, Expr.bare, hl', hr'], hc₂⟩
  unfold extend
  refine within_current hc ?_
  cases op <;> exact hright

theorem reads_conditional {t f : Expr} {ts' ts'' : List Token} {depth'' : Nat} (s : Span) (hc : Reads 2 ts depth e)
    (ht : Reads 1 ts' depth' t) (hf : Reads 1 ts'' depth'' f) (hp : p ≤ 1) :
    Reads p (ts ++ .symbol .question :: (ts' ++ .symbol .colon :: ts'')) (max depth (max (depth' + 1) (depth'' + 1)))
      (.conditional e t f s) := by
  have hquestion (rest : List Token) : Ends 2 (.symbol .question :: rest) := ⟨rfl, nofun⟩
  refine reads_of_extend hc (by omega) hquestion hp (by decide) fun d rest c e' hends he' hkinds => ?_
  have hends := hends.mono hp
  have hstop : continues 0 (headToken rest) = false := by
    refine Bool.eq_false_iff.mpr fun h => Bool.eq_false_iff.mp hends.1 ?_
    exact continues_one h
  unfold extend
  refine within_current hkinds (within_advance hkinds fun c₁ hc₁ => ?_)
  have hc₁ : c₁.kinds = ts' ++ (.symbol .colon :: (ts'' ++ rest)) := by rw [hc₁, List.append_assoc]; rfl
  have hdepth : (depth' < d ∧ depth'' < d) ↔ max (depth' + 1) (depth'' + 1) ≤ d := by rw [Nat.max_le]; rfl
  have hcolon : Ends 1 (.symbol .colon :: (ts'' ++ rest)) := ⟨rfl, nofun⟩
  refine Within.congr ((ht.whole fits_conditional hcolon rfl hc₁).bind fun t' c₂ ⟨ht', hc₂⟩ => ?_) hdepth
  refine within_expect hc₂ fun c₃ hc₃ => ?_
  refine (hf.whole fits_conditional hends hstop hc₃).bind_true fun f' c₄ ⟨hf', hc₄⟩ => ?_
  exact within_of_ok rfl ⟨by rw [Expr.bare, Expr.bare, he', ht', hf'], hc₄⟩

/-! ### Arguments -/

/-- The tokens in front of a closing parenthesis are arguments; as many rounds are made as there are tokens. -/
def Lists (ts : List Token) (depth : Nat) (es : List Expr) : Prop :=
  ∀ (d n : Nat) (rest : List Token) (c : Cursor), c.kinds = ts ++ .symbol .rightParen :: rest → ts.length ≤ n →
    Within (depth ≤ d) (listedBefore (.symbol .rightParen) (expressionWithin d 0) n) c
      fun es' c' => Expr.bareList es' = Expr.bareList es ∧ c'.kinds = .symbol .rightParen :: rest

theorem within_check {f : Bool → Parse β} (hf : Within fits (f (decide (headToken c.kinds = t))) c Q) :
    Within fits (check t >>= f) c Q := by
  rw [← c.current_eq] at hf
  exact within_bind_of_ok (check_apply t c) hf

theorem lists_nil : Lists [] 0 [] := by
  intro d n rest c hc _
  have hlisted : listedBefore (.symbol .rightParen) (expressionWithin d 0) n c = .ok [] c := by
    have hcheck : check (.symbol .rightParen) c = .ok true c := by
      rw [check_apply, c.current_of_kinds hc]
      rfl
    cases n <;>
    · unfold listedBefore
      rw [bind_of_ok hcheck]
      rfl
  exact (within_of_ok hlisted ⟨rfl, hc⟩).congr ⟨fun _ => Nat.zero_le d, fun _ => trivial⟩

theorem listedBefore_succ (close : Token) (item : Parse α) (n : Nat) :
    listedBefore close item (n + 1) = check close >>= fun closed =>
      if closed = true then pure [] else item >>= fun a => accept (.symbol .comma) >>= fun more =>
        if more = true then listedBefore close item n >>= fun as => pure (a :: as) else pure [a] := rfl

/-- Tokens that do not close what is open. -/
def Opens (ts : List Token) : Prop := ∃ t ts', ts = t :: ts' ∧ t ≠ .symbol .rightParen

theorem Opens.append {ts' : List Token} (h : Opens ts) : Opens (ts ++ ts') := by
  obtain ⟨t, us, rfl, ht⟩ := h
  exact ⟨t, us ++ ts', rfl, ht⟩

/-- The first argument, and what is done behind it. -/
theorem within_listed {n : Nat} (hts : Opens ts) (h : Reads 0 ts depth e) (hends : Ends 0 rest)
    (hc : c.kinds = ts ++ rest) {Q : List Expr → Cursor → Prop}
    (hmore : ∀ e' c', e'.bare = e.bare → c'.kinds = rest → Within fits (accept (.symbol .comma) >>= fun more =>
      if more = true then listedBefore (.symbol .rightParen) (expressionWithin d 0) n >>= fun es => pure (e' :: es)
      else pure [e']) c' Q) :
    Within (depth < d ∧ fits) (listedBefore (.symbol .rightParen) (expressionWithin d 0) (n + 1)) c Q := by
  obtain ⟨t, us, rfl, ht⟩ := hts
  rw [listedBefore_succ]
  refine within_check ?_
  rw [hc, decide_eq_false (by exact ht), if_neg Bool.false_ne_true]
  exact (h.whole fits_zero hends hends.1 hc).bind fun e' c' ⟨he, hc'⟩ => hmore e' c' he hc'

theorem lists_singleton (hts : Opens ts) (h : Reads 0 ts depth e) : Lists ts (depth + 1) [e] := by
  intro d n rest c hc hn
  obtain ⟨n, rfl⟩ : ∃ m, n = m + 1 := by
    obtain ⟨t, us, rfl, -⟩ := hts
    exact ⟨n - 1, by rw [List.length_cons] at hn; omega⟩
  refine (within_listed hts h ends_rightParen hc fun e' c' he hc' => ?_).congr (and_iff_left trivial)
  refine within_accept_of_ne (by rw [hc']; nofun) ?_
  rw [if_neg Bool.false_ne_true]
  exact within_of_ok rfl ⟨by simp only [Expr.bareList, he], hc'⟩

theorem lists_cons {ts' : List Token} {es : List Expr} (hts : Opens ts) (h : Reads 0 ts depth e)
    (hes : Lists ts' depth' es) : Lists (ts ++ .symbol .comma :: ts') (max (depth + 1) depth') (e :: es) := by
  intro d n rest c hc hn
  rw [List.length_append, List.length_cons] at hn
  obtain ⟨n, rfl⟩ : ∃ m, n = m + 1 := ⟨n - 1, by omega⟩
  have hc : c.kinds = ts ++ (.symbol .comma :: (ts' ++ .symbol .rightParen :: rest)) := by
    rw [hc, List.append_assoc, List.cons_append]
  have hdepth : (depth < d ∧ depth' ≤ d) ↔ max (depth + 1) depth' ≤ d := by rw [Nat.max_le]; rfl
  have hcomma : Ends 0 (.symbol .comma :: (ts' ++ .symbol .rightParen :: rest)) := ⟨rfl, nofun⟩
  refine (within_listed hts h hcomma hc fun e' c' he hc' => ?_).congr hdepth
  refine within_accept hc' fun c₁ hc₁ => ?_
  rw [if_pos rfl]
  refine (hes d n rest c₁ hc₁ (by omega)).bind_true fun es' c₂ ⟨hes', hc₂⟩ => ?_
  exact within_of_ok rfl ⟨by rw [Expr.bareList, Expr.bareList, he, hes'], hc₂⟩

theorem reads_call {args : List Expr} {ts' : List Token} (s : Span) (h : Reads 10 ts depth e)
    (hargs : Lists ts' depth' args) (hp : p ≤ 10) :
    Reads p (ts ++ .symbol .leftParen :: (ts' ++ [.symbol .rightParen])) (max depth depth') (.call e args s) := by
  refine reads_of_extend h hp (fun rest => ⟨rfl, nofun⟩) hp (by decide) fun d rest c e' _ he' hc => ?_
  unfold extend
  refine within_current hc (within_advance hc fun c₁ hc₁ => ?_)
  have hc₁ : c₁.kinds = ts' ++ .symbol .rightParen :: rest := by rw [hc₁, List.append_assoc]; rfl
  have hfuel : ts'.length ≤ c₁.tokens.length := by
    rw [← c₁.length_kinds, hc₁, List.length_append]
    exact Nat.le_add_right _ _
  have hremaining : remaining c₁ = .ok c₁.tokens.length c₁ := rfl
  refine within_bind_of_ok hremaining ?_
  refine (hargs d _ rest c₁ hc₁ hfuel).bind_true fun args' c₂ ⟨hargs', hc₂⟩ => ?_
  refine within_expect hc₂ fun c₃ hc₃ => within_previousSpan fun span => ?_
  exact within_of_ok rfl ⟨by rw [Expr.bare, Expr.bare, he', hargs'], hc₃⟩

end Parse

/-! ### Every expression -/

namespace Expr

open Parse

theorem opens_enclosed {needed : Bool} {ts : List Token} (h : Opens ts) : Opens (enclosed needed ts) := by
  cases needed with
  | false => exact h
  | true => exact ⟨_, _, rfl, nofun⟩

/-- An expression does not begin with a closing parenthesis. -/
theorem opens_tokensAt : ∀ (e : Expr) (p : Nat), Opens (tokensAt p e)
  | literal v _, _ => by
    rw [tokensAt]
    refine ⟨_, _, rfl, ?_⟩
    cases v <;> exact nofun
  | name n _, _ => by
    rw [tokensAt]
    exact ⟨_, _, rfl, nofun⟩
  | this _, _ => by
    rw [tokensAt]
    exact ⟨_, _, rfl, nofun⟩
  | member o n _, _ => by
    rw [tokensAt]
    exact (opens_tokensAt o 10).append
  | call c args _, _ => by
    rw [tokensAt]
    exact (opens_tokensAt c 10).append
  | unary op e _, _ => by
    rw [tokensAt]
    exact opens_enclosed ⟨_, _, rfl, by cases op <;> exact nofun⟩
  | binary op l r _, _ => by
    rw [tokensAt]
    exact opens_enclosed (opens_tokensAt l _).append
  | conditional c t e _, _ => by
    rw [tokensAt]
    exact opens_enclosed (opens_tokensAt c _).append
  | lambda isStatic n b _, _ => by
    rw [tokensAt]
    refine opens_enclosed ?_
    cases isStatic <;> exact ⟨_, _, rfl, nofun⟩

mutual

/-- The tokens of a printed expression are read as that expression. -/
theorem reads_tokensAt : ∀ (e : Expr) {p : Nat}, p ≤ 10 → Reads p (tokensAt p e) (nestingAt 1 p e) e
  | literal v s, _, _ => by
    rw [tokensAt, nestingAt]
    exact reads_literal v s
  | name n s, _, _ => by
    rw [tokensAt, nestingAt]
    exact reads_name n s
  | this s, _, _ => by
    rw [tokensAt, nestingAt]
    exact reads_this s
  | member o n s, _, hp => by
    rw [tokensAt, nestingAt]
    exact reads_member n s (reads_tokensAt o (by omega)) hp
  | call c args s, _, hp => by
    rw [tokensAt, nestingAt]
    exact reads_call s (reads_tokensAt c (by omega)) (lists_tokensList args) hp
  | unary op e s, p, _ => by
    rw [tokensAt, nestingAt]
    have hoperand {q : Nat} (hq : q ≤ 9) : Reads q
        (.symbol op.symbol :: if op = .negate && e.isNegation then enclosed true (tokensAt 0 e) else tokensAt 9 e)
        ((if op = .negate && e.isNegation then deepened 1 true (nestingAt 1 0 e) else nestingAt 1 9 e) + 1)
        (unary op e s) := by
      split
      · exact reads_unary op s (reads_parenthesized (reads_tokensAt e (by omega))) hq
      · exact reads_unary op s (reads_tokensAt e (by omega)) hq
    exact reads_enclosed (hoperand (by omega)) fun h => hoperand (by simpa using h)
  | binary op l r s, p, _ => by
    rw [tokensAt, nestingAt]
    obtain ⟨-, -, hl, hr⟩ := le_operandStrengths op
    have hbare {q : Nat} (hq : q ≤ op.precedence) := reads_binary op s (reads_tokensAt l hl) (reads_tokensAt r hr) hq
    exact reads_enclosed (hbare (Nat.zero_le _)) fun h => hbare (by simpa using h)
  | conditional c t e s, p, _ => by
    rw [tokensAt, nestingAt]
    have hbare {q : Nat} (hq : q ≤ 1) := reads_conditional s (reads_tokensAt c (by omega)) (reads_tokensAt t (by omega))
      (reads_tokensAt e (by omega)) hq
    exact reads_enclosed (hbare (by omega)) fun h => hbare (by simpa using h)
  | lambda isStatic n b s, p, _ => by
    rw [tokensAt, nestingAt]
    have hbare := reads_lambda isStatic n s (reads_tokensAt b (by omega))
    refine reads_enclosed hbare fun h => ?_
    obtain rfl : p = 0 := by simpa using h
    exact hbare

/-- The tokens of printed arguments are read as these arguments. -/
theorem lists_tokensList : ∀ es : List Expr, Lists (tokensList es) (nestingList 1 es) es
  | [] => by
    rw [tokensList, nestingList]
    exact lists_nil
  | [e] => by
    rw [tokensList, tokensRest, List.append_nil, nestingList, nestingList, Nat.max_zero]
    exact lists_singleton (opens_tokensAt e 0) (reads_tokensAt e (by omega))
  | e :: e' :: es => by
    have hrest := lists_tokensList (e' :: es)
    rw [tokensList] at hrest
    rw [tokensList, tokensRest, nestingList]
    exact lists_cons (opens_tokensAt e 0) (reads_tokensAt e (by omega)) hrest

end

end Expr

end Reactive
