import Mathlib.Tactic.Common
import Reactive.Proofs.Consuming
import Reactive.Proofs.Phrasing

/-!
# Reactive.Proofs.Parsing — the parser reads what is written

* `Phrase.Written p c e c'`: between two cursors stands the phrase `p`, which says `e` and is grouped by precedence.
* `Phrase.Before p t`: the token `t` may stand behind `p` as an operator; no rule of the parser leaves a phrase where it
  may not (`writes_operand`, `writes_extend`, `writes_chain`), which is why the loop over operators groups as it does.
* `Phrase.Admitted`: what an expression can be that is read for operators stronger than `least`.
* `parsed_as_written`: a text that is accepted is a phrase that says the tree.
-/

namespace Reactive

open Stateful

namespace Cursor

variable {c : Cursor} {t : Token}

theorem kinds_of_current (h : c.current = t) (ht : t ≠ .endOfFile) : c.kinds = t :: c.advance.kinds := by
  obtain ⟨u, hu, rfl⟩ := Parse.tokens_of_current h ht
  unfold kinds
  rw [hu]
  rfl

end Cursor

namespace Parse

variable {c : Cursor} {t : Token} {least : Nat}

/-! ### Operators -/

/-- The strength that the operand in front of an operator has at least. -/
def leading (t : Token) : Nat := if groupsRight t then strength t + 1 else strength t

theorem leading_le_ten (t : Token) : leading t ≤ 10 := by
  cases t with
  | symbol s => cases s <;> decide
  | _ => simp [leading, strength, groupsRight]

theorem leading_binary (op : BinaryOp) : leading (.symbol op.symbol) = (Expr.operandStrengths op).1 := by
  cases op <;> decide

/-- Where reading stops at an operator, that takes up what was read. -/
theorem leading_le_of_stop (h : continues least t = false) (ht : strength t ≠ 0) : leading t ≤ least := by
  have hstop : ¬ (least < strength t ∨ strength t = least ∧ groupsRight t = true) := fun hgoes =>
    Bool.eq_false_iff.mp h (continues_iff.mpr ⟨ht, hgoes⟩)
  rw [not_or, Nat.not_lt, not_and] at hstop
  obtain ⟨hle, hright⟩ := hstop
  unfold leading
  split
  · rename_i hgroups
    have hne : strength t ≠ least := fun heq => hright heq hgroups
    omega
  · exact hle

theorem strength_eq_zero_of_stop (h : continues 0 t = false) : strength t = 0 := by
  by_contra ht
  have hle := leading_le_of_stop h ht
  unfold leading at hle
  split at hle <;> omega

theorem groupsRight_le {t : Token} (h : groupsRight t = true) : strength t ≤ 2 := by
  obtain rfl | rfl : t = .symbol .question ∨ t = .symbol .coalesce := by simpa [groupsRight] using h
  · decide
  · decide

end Parse

namespace Phrase

open Parse

variable {p : Phrase} {c c' : Cursor} {e : Expr} {t : Token} {least : Nat}

/-- Between two cursors stands a phrase, which says an expression; an operator that follows does not go on with the
body of a lambda at its end. -/
structure Written (p : Phrase) (c : Cursor) (e : Expr) (c' : Cursor) : Prop where
  tokens : c.kinds = p.tokens ++ c'.kinds
  tree : p.tree = e.bare
  grouped : p.Grouped
  closed : p.isOpen = true → Parse.strength c'.current = 0

/-- If the token is an operator, the phrase may be the operand in front of it. -/
def Before (p : Phrase) (t : Token) : Prop := Parse.strength t ≠ 0 → p.Leads (leading t)

/-- The phrase is a lambda, or its operator is one that reading for operators stronger than `least` goes on with. -/
def Admitted (least : Nat) (p : Phrase) : Prop :=
  p.isLambda = true ∨ 9 ≤ p.strength ∨ ∃ t, continues least t = true ∧ Parse.strength t = p.strength

/-- Reading stops where a phrase is an operand of what follows. -/
theorem Before.of_stop (hclosed : p.isOpen = true → Parse.strength t = 0) (hstop : continues least t = false)
    (hle : least ≤ p.strength) : p.Before t := by
  intro ht
  refine ⟨(leading_le_of_stop hstop ht).trans hle, ?_⟩
  exact Bool.eq_false_iff.mpr fun hopen => ht (hclosed hopen)

/-- What needs no parentheses may stand in front of all operators. -/
theorem Before.of_strong (hstrength : p.strength = 10) (hopen : p.isOpen = false) : p.Before t :=
  fun _ => ⟨hstrength ▸ leading_le_ten t, hopen⟩

theorem Admitted.trails_unary (h : p.Admitted 9) : p.Trails 9 := by
  obtain hlambda | hle | ⟨t, hgoes, ht⟩ := h
  · exact Or.inl hlambda
  · exact Or.inr hle
  · obtain ⟨-, hlt | ⟨heq, -⟩⟩ := continues_iff.mp hgoes
    · exact Or.inr (by omega)
    · exact Or.inr (by omega)

/-- What is read behind an operator may stand there. -/
theorem Admitted.trails_right {op : BinaryOp} (h : p.Admitted op.precedence) :
    p.Trails (Expr.operandStrengths op).2 := by
  obtain hlambda | hle | ⟨t, hgoes, ht⟩ := h
  · exact Or.inl hlambda
  · refine Or.inr (Nat.le_trans ?_ hle)
    cases op <;> decide
  · refine Or.inr (ht ▸ ?_)
    obtain ⟨-, hlt | ⟨heq, hright⟩⟩ := continues_iff.mp hgoes
    · refine Nat.le_trans ?_ hlt
      cases op <;> decide
    · -- Only `??` groups to the right.
      have hle := heq ▸ groupsRight_le hright
      rw [heq]
      cases op <;> first | exact Nat.le_refl _ | exact absurd hle (by decide)

end Phrase

namespace Parse

variable {c : Cursor}

/-! ### Single tokens -/

section

variable {β : Type} {P : β → Cursor → Prop}

theorem ends_currentSpan {f : Span → Parse β} (h : Stateful.Ends (f c.currentSpan) c P) :
    Stateful.Ends (currentSpan >>= f) c P := h

theorem ends_previousSpan {f : Span → Parse β} (h : Stateful.Ends (f c.previousSpan) c P) :
    Stateful.Ends (previousSpan >>= f) c P := h

theorem ends_remaining {f : Nat → Parse β} (h : Stateful.Ends (f c.tokens.length) c P) :
    Stateful.Ends (remaining >>= f) c P := h

theorem ends_current {f : Token → Parse β} (h : Stateful.Ends (f c.current) c P) :
    Stateful.Ends (current >>= f) c P := h

theorem ends_check {t : Token} {f : Bool → Parse β} (h : Stateful.Ends (f (decide (c.current = t))) c P) :
    Stateful.Ends (check t >>= f) c P := h

end

theorem ends_advance {t : Token} (h : c.current = t) (ht : t ≠ .endOfFile) :
    Stateful.Ends advance c fun _ c' => c.kinds = t :: c'.kinds := by
  rintro _ _ ⟨⟩
  exact c.kinds_of_current h ht

theorem ends_expect {t : Token} (ht : t ≠ .endOfFile) (c : Cursor) :
    Stateful.Ends (expect t) c fun _ c' => c.kinds = t :: c'.kinds := by
  intro u c' h
  obtain ⟨w, hw, rfl⟩ := tokens_of_expect h ht
  unfold Cursor.kinds
  rw [hw]
  rfl

theorem ends_accept {t : Token} (ht : t ≠ .endOfFile) (c : Cursor) :
    Stateful.Ends (accept t) c fun b c' => if b then c.kinds = t :: c'.kinds else c' = c := by
  intro b c' h
  rw [accept_apply] at h
  split at h
  · rename_i hcurrent
    cases h
    exact c.kinds_of_current hcurrent ht
  · cases h
    rfl

theorem ends_identifier (c : Cursor) :
    Stateful.Ends identifier c fun name c' => c.kinds = .identifier name.1 :: c'.kinds := by
  refine ends_currentSpan (ends_current ?_)
  cases h : c.current with
  | identifier name => exact (ends_advance h nofun).bind fun _ c' hkinds => ends_pure hkinds
  | _ => exact nofun

/-! ### Rules -/

variable {sub : Nat → Parse Expr}

/-- What the reader of nested expressions does: it reads a phrase, and stops at an operator that is too weak. -/
def Writes (sub : Nat → Parse Expr) : Prop := ∀ (least : Nat) (c : Cursor), Stateful.Ends (sub least) c fun e c' =>
  ∃ p : Phrase, p.Written c e c' ∧ p.Admitted least ∧ continues least c'.current = false

/-- An operand, which may stand in front of what follows. -/
abbrev Operand (c : Cursor) (e : Expr) (c' : Cursor) : Prop :=
  ∃ p : Phrase, p.Written c e c' ∧ p.Before c'.current ∧ (p.isLambda = true ∨ 9 ≤ p.strength)

theorem writes_atom {t : Token} {build : Span → Expr} {p : Phrase} (h : c.current = t) (ht : t ≠ .endOfFile)
    (htokens : p.tokens = [t]) (htree : ∀ span, p.tree = (build span).bare) (hgrouped : p.Grouped)
    (hstrength : p.strength = 10) (hopen : p.isOpen = false) : Stateful.Ends (atom build) c (Operand c) := by
  refine (ends_advance h ht).bind fun _ c' hkinds => ends_pure ⟨p, ⟨?_, htree _, hgrouped, ?_⟩, ?_, Or.inr (by omega)⟩
  · rw [htokens]
    exact hkinds
  · intro h
    rw [hopen] at h
    cases h
  · exact .of_strong hstrength hopen

theorem writes_literal {t : Token} (v : Literal) (h : c.current = t) (hv : v.token = t) (ht : t ≠ .endOfFile) :
    Stateful.Ends (atom (.literal v)) c (Operand c) := by
  refine writes_atom (p := .literal v) h ht ?_ (fun _ => rfl) trivial rfl rfl
  rw [Phrase.tokens, hv]

section

variable (hsub : Writes sub)

include hsub

theorem writes_lambda (c : Cursor) : Stateful.Ends (lambda sub) c (Operand c) := by
  refine ends_currentSpan ((ends_accept (by nofun) c).bind fun isStatic c₁ h₁ => ?_)
  refine (ends_identifier c₁).bind fun name c₂ h₂ => ?_
  refine (ends_expect (by nofun) c₂).bind fun _ c₃ h₃ => (hsub 0 c₃).bind fun body c₄ h₄ => ends_pure ?_
  obtain ⟨p, hp, -, hstop⟩ := h₄
  have hzero := strength_eq_zero_of_stop hstop
  refine ⟨.lambda isStatic name.1 p, ⟨?_, ?_, hp.grouped, fun _ => hzero⟩, fun h => absurd hzero h, Or.inl rfl⟩
  · rw [h₃, hp.tokens] at h₂
    rw [Phrase.tokens]
    cases isStatic with
    | false =>
      cases h₁
      exact h₂
    | true =>
      have h₁ : c.kinds = .keyword .static :: c₁.kinds := h₁
      rw [h₁, h₂]
      rfl
  · rw [Phrase.tree, Expr.bare, hp.tree]

theorem writes_unary (op : UnaryOp) (h : c.current = .symbol op.symbol) (start : Span) :
    Stateful.Ends (advance >>= fun _ => sub 9 >>= fun e => pure (Expr.unary op e (start.through e.span))) c
      (Operand c) := by
  refine (ends_advance h nofun).bind fun _ c₁ h₁ => (hsub 9 c₁).bind fun e c₂ h₂ => ends_pure ?_
  obtain ⟨p, hp, hadmitted, hstop⟩ := h₂
  refine ⟨.unary op p, ⟨?_, ?_, ⟨hadmitted.trails_unary, hp.grouped⟩, hp.closed⟩,
    .of_stop hp.closed hstop (Nat.le_refl 9), Or.inr (Nat.le_refl 9)⟩
  · rw [h₁, hp.tokens, Phrase.tokens]
    rfl
  · rw [Phrase.tree, Expr.bare, hp.tree]

theorem writes_group (h : c.current = .symbol .leftParen) (start : Span) :
    Stateful.Ends (advance >>= fun _ => sub 0 >>= fun inner => expect (.symbol .rightParen) >>= fun _ =>
      previousSpan >>= fun stop => pure (inner.withSpan (start.through stop))) c (Operand c) := by
  refine (ends_advance h nofun).bind fun _ c₁ h₁ => (hsub 0 c₁).bind fun e c₂ h₂ => ?_
  obtain ⟨p, hp, -, -⟩ := h₂
  refine (ends_expect (by nofun) c₂).bind fun _ c₃ h₃ => ends_previousSpan (ends_pure ?_)
  refine ⟨.group p, ⟨?_, ?_, hp.grouped, nofun⟩, .of_strong rfl rfl, Or.inr (by decide : 9 ≤ 10)⟩
  · rw [h₁, hp.tokens, h₃, Phrase.tokens, List.cons_append, List.append_assoc]
    rfl
  · rw [Phrase.tree, Expr.bare_withSpan, hp.tree]

theorem writes_operand (c : Cursor) : Stateful.Ends (operand sub) c (Operand c) := by
  refine ends_currentSpan (ends_current ?_)
  cases h : c.current with
  | integer v => exact writes_literal (.int v) h rfl nofun
  | float v => exact writes_literal (.float v) h rfl nofun
  | string v => exact writes_literal (.string v) h rfl nofun
  | identifier name =>
    show Stateful.Ends (if c.peek = .symbol .arrow then lambda sub else atom (.name name)) c _
    split
    · exact writes_lambda hsub c
    · exact writes_atom (p := .name name) h nofun rfl (fun _ => rfl) trivial rfl rfl
  | keyword k =>
    cases k with
    | true_ => exact writes_literal (.bool true) h rfl nofun
    | false_ => exact writes_literal (.bool false) h rfl nofun
    | null => exact writes_literal .null h rfl nofun
    | this => exact writes_atom (p := .this) h nofun rfl (fun _ => rfl) trivial rfl rfl
    | static => exact writes_lambda hsub c
    | _ => exact nofun
  | symbol y =>
    cases y with
    | bang => exact writes_unary hsub .not h c.currentSpan
    | minus => exact writes_unary hsub .negate h c.currentSpan
    | leftParen => exact writes_group hsub h c.currentSpan
    | _ => exact nofun
  | endOfFile => exact nofun

/-! ### Arguments -/

/-- Arguments up to a closing parenthesis, with a comma behind the last one or none. -/
theorem writes_arguments : ∀ (n : Nat) (c : Cursor),
    Stateful.Ends (listedBefore (.symbol .rightParen) (sub 0) n) c fun es c' =>
    ∃ (ps : List Phrase) (trailing : Bool),
      c.kinds = Phrase.tokensList ps ++ ((if trailing then [.symbol .comma] else []) ++ c'.kinds) ∧
        Phrase.trees ps = Expr.bareList es ∧ Phrase.AllGrouped ps ∧ (trailing = true → ps ≠ [])
  | 0, c => by
    refine ends_check ?_
    split
    · exact ends_pure ⟨[], false, rfl, rfl, trivial, nofun⟩
    · refine (hsub 0 c).bind fun e c' h => ends_pure ?_
      obtain ⟨p, hp, -, -⟩ := h
      refine ⟨[p], false, ?_, ?_, ⟨hp.grouped, trivial⟩, nofun⟩
      · rw [hp.tokens, Phrase.tokensList, Phrase.tokensRest, List.append_nil]
        rfl
      · rw [Phrase.trees, Phrase.trees, hp.tree]
        rfl
  | n + 1, c => by
    rw [listedBefore_succ]
    refine ends_check ?_
    split
    · exact ends_pure ⟨[], false, rfl, rfl, trivial, nofun⟩
    · refine (hsub 0 c).bind fun e c₁ h₁ => (ends_accept (by nofun) c₁).bind fun more c₂ h₂ => ?_
      obtain ⟨p, hp, -, -⟩ := h₁
      cases more with
      | false =>
        cases h₂
        refine ends_pure ⟨[p], false, ?_, ?_, ⟨hp.grouped, trivial⟩, nofun⟩
        · rw [hp.tokens, Phrase.tokensList, Phrase.tokensRest, List.append_nil]
          rfl
        · rw [Phrase.trees, Phrase.trees, hp.tree]
          rfl
      | true =>
        have h₂ : c₁.kinds = .symbol .comma :: c₂.kinds := h₂
        refine (writes_arguments n c₂).bind fun es c₃ h₃ => ends_pure ?_
        obtain ⟨ps, trailing, hkinds, htrees, hgrouped, hsome⟩ := h₃
        have htrees : Phrase.trees (p :: ps) = Expr.bareList (e :: es) := by
          rw [Phrase.trees, Expr.bareList, hp.tree, htrees]
        cases ps with
        | nil =>
          -- The comma is the one that closes the arguments.
          have htrailing : trailing = false := Bool.eq_false_iff.mpr fun h => hsome h rfl
          refine ⟨[p], true, ?_, htrees, ⟨hp.grouped, hgrouped⟩, nofun⟩
          rw [hp.tokens, h₂, hkinds, htrailing, Phrase.tokensList, Phrase.tokensList, Phrase.tokensRest, List.append_nil]
          rfl
        | cons q qs =>
          refine ⟨p :: q :: qs, trailing, ?_, htrees, ⟨hp.grouped, hgrouped⟩, nofun⟩
          rw [hp.tokens, h₂, hkinds, Phrase.tokensList, Phrase.tokensList, Phrase.tokensRest, List.append_assoc,
            List.append_assoc, List.cons_append, List.append_assoc]

/-! ### Operators and their operands -/

/-- A phrase that goes on from another one with an operator. -/
abbrev Extends (c₀ : Cursor) (p : Phrase) (t : Token) (e : Expr) (c' : Cursor) : Prop :=
  ∃ q : Phrase, q.Written c₀ e c' ∧ q.Before c'.current ∧ q.strength = strength t ∧ p.tokens.length < q.tokens.length

variable {c₀ : Cursor} {p : Phrase} {left : Expr}

theorem writes_binary {op : BinaryOp} (hp : p.Written c₀ left c) (hbefore : p.Before c.current)
    (h : c.current = .symbol op.symbol) :
    Stateful.Ends (advance >>= fun _ => sub op.precedence >>= fun right =>
      pure (Expr.binary op left right (left.span.through right.span))) c (Extends c₀ p c.current) := by
  refine (ends_advance h nofun).bind fun _ c₁ h₁ => (hsub op.precedence c₁).bind fun right c₂ h₂ => ends_pure ?_
  obtain ⟨q, hq, hadmitted, hstop⟩ := h₂
  have hleads : p.Leads (Expr.operandStrengths op).1 := by
    rw [h] at hbefore
    rw [← leading_binary]
    refine hbefore ?_
    rw [strength_binary]
    cases op <;> decide
  refine ⟨.binary op p q, ⟨?_, ?_, ⟨⟨hleads, hp.grouped⟩, hadmitted.trails_right, hq.grouped⟩, hq.closed⟩,
    .of_stop hq.closed hstop (Nat.le_refl _), ?_, ?_⟩
  · rw [hp.tokens, h₁, hq.tokens, Phrase.tokens, List.append_assoc, List.cons_append]
  · rw [Phrase.tree, Expr.bare, hp.tree, hq.tree]
  · rw [h, strength_binary]
    rfl
  · rw [Phrase.tokens, List.length_append, List.length_cons]
    omega

theorem writes_conditional (hp : p.Written c₀ left c) (hbefore : p.Before c.current)
    (h : c.current = .symbol .question) :
    Stateful.Ends (advance >>= fun _ => sub 0 >>= fun thenBranch => expect (.symbol .colon) >>= fun _ =>
      sub 0 >>= fun elseBranch =>
        pure (Expr.conditional left thenBranch elseBranch (left.span.through elseBranch.span))) c
      (Extends c₀ p c.current) := by
  refine (ends_advance h nofun).bind fun _ c₁ h₁ => (hsub 0 c₁).bind fun thenBranch c₂ h₂ => ?_
  refine (ends_expect (by nofun) c₂).bind fun _ c₃ h₃ => (hsub 0 c₃).bind fun elseBranch c₄ h₄ => ends_pure ?_
  obtain ⟨q, hq, -, -⟩ := h₂
  obtain ⟨r, hr, -, hstop⟩ := h₄
  have hleads : p.Leads 2 := by
    rw [h] at hbefore
    exact hbefore (by decide)
  refine ⟨.conditional p q r, ⟨?_, ?_, ⟨⟨hleads, hp.grouped⟩, hq.grouped, r.trails_one, hr.grouped⟩, hr.closed⟩,
    .of_stop hr.closed hstop (Nat.zero_le _), ?_, ?_⟩
  · rw [hp.tokens, h₁, hq.tokens, h₃, hr.tokens, Phrase.tokens]
    simp only [List.append_assoc, List.cons_append]
  · rw [Phrase.tree, Expr.bare, hp.tree, hq.tree, hr.tree]
  · rw [h]
    rfl
  · rw [Phrase.tokens, List.length_append, List.length_cons]
    omega

theorem writes_call (hp : p.Written c₀ left c) (hbefore : p.Before c.current) (h : c.current = .symbol .leftParen) :
    Stateful.Ends (advance >>= fun _ => remaining >>= fun n => listedBefore (.symbol .rightParen) (sub 0) n >>= fun args =>
      expect (.symbol .rightParen) >>= fun _ => previousSpan >>= fun stop =>
        pure (Expr.call left args (left.span.through stop))) c (Extends c₀ p c.current) := by
  refine (ends_advance h nofun).bind fun _ c₁ h₁ => ends_remaining ?_
  refine (writes_arguments hsub _ c₁).bind fun args c₂ h₂ => ?_
  refine (ends_expect (by nofun) c₂).bind fun _ c₃ h₃ => ends_previousSpan (ends_pure ?_)
  obtain ⟨ps, trailing, hkinds, htrees, hgrouped, hsome⟩ := h₂
  have hleads : p.Leads 10 := by
    rw [h] at hbefore
    exact hbefore (by decide)
  refine ⟨.call p ps trailing, ⟨?_, ?_, ⟨hleads, hp.grouped, hgrouped, hsome⟩, nofun⟩, .of_strong rfl rfl, ?_, ?_⟩
  · rw [hp.tokens, h₁, hkinds, h₃, Phrase.tokens]
    simp only [List.append_assoc, List.cons_append, List.nil_append]
  · rw [Phrase.tree, Expr.bare, hp.tree, htrees]
  · rw [h]
    rfl
  · rw [Phrase.tokens, List.length_append, List.length_cons]
    omega

omit hsub in
theorem writes_member (hp : p.Written c₀ left c) (hbefore : p.Before c.current) (h : c.current = .symbol .dot) :
    Stateful.Ends (advance >>= fun _ => identifier >>= fun name =>
      pure (Expr.member left name.1 (left.span.through name.2))) c (Extends c₀ p c.current) := by
  refine (ends_advance h nofun).bind fun _ c₁ h₁ => (ends_identifier c₁).bind fun name c₂ h₂ => ends_pure ?_
  have hleads : p.Leads 10 := by
    rw [h] at hbefore
    exact hbefore (by decide)
  refine ⟨.member p name.1, ⟨?_, ?_, ⟨hleads, hp.grouped⟩, nofun⟩, .of_strong rfl rfl, ?_, ?_⟩
  · rw [hp.tokens, h₁, h₂, Phrase.tokens, List.append_assoc]
    rfl
  · rw [Phrase.tree, Expr.bare, hp.tree]
  · rw [h]
    rfl
  · rw [Phrase.tokens, List.length_append]
    exact Nat.lt_add_of_pos_right (Nat.zero_lt_succ _)

/-- An operator that goes on from a phrase takes it for its first operand. -/
theorem writes_extend (hp : p.Written c₀ left c) (hbefore : p.Before c.current) (hoperator : strength c.current ≠ 0) :
    Stateful.Ends (extend sub left) c (Extends c₀ p c.current) := by
  unfold extend
  refine ends_current ?_
  split
  case h_1 h => exact writes_member hp hbefore h
  case h_2 h => exact writes_call hsub hp hbefore h
  case h_3 h => exact writes_conditional hsub hp hbefore h
  case h_4 s hdot hparen hquestion h =>
    cases hop : BinaryOp.ofSymbol? s with
    | none =>
      -- No other symbol is an operator.
      rw [h] at hoperator
      cases s <;> first | exact absurd rfl hoperator | contradiction
    | some op =>
      have hfound := List.find?_some (show BinaryOp.all.find? (·.symbol = s) = some op from hop)
      have hsymbol : op.symbol = s := of_decide_eq_true hfound
      exact writes_binary hsub hp hbefore (hsymbol ▸ h)
  case h_5 hother =>
    refine absurd ?_ hoperator
    cases h : c.current with
    | symbol s => exact absurd h (hother s)
    | _ => rfl

/-- Operators are taken up as long as they bind more strongly than `least`. -/
theorem writes_chain {least : Nat} : ∀ (n : Nat) {c : Cursor} {p : Phrase} {left : Expr}, p.Written c₀ left c →
    p.Before c.current → p.Admitted least → c.tokens.length ≤ n →
      Stateful.Ends (chain sub least n left) c fun e c' =>
        ∃ q : Phrase, q.Written c₀ e c' ∧ q.Admitted least ∧ continues least c'.current = false
  | 0, c, p, left, hp, _, hadmitted, hlength => by
    have hcurrent : c.current = .endOfFile := by
      rw [c.current_eq, Cursor.kinds, List.eq_nil_of_length_eq_zero (Nat.le_zero.mp hlength)]
      rfl
    refine ends_pure ⟨p, hp, hadmitted, ?_⟩
    rw [hcurrent]
    rfl
  | n + 1, c, p, left, hp, hbefore, hadmitted, hlength => by
    unfold chain
    refine ends_current ?_
    split
    · rename_i hgoes
      have hoperator := (continues_iff.mp hgoes).1
      refine (writes_extend hsub hp hbefore hoperator).bind fun e c₁ h₁ => ?_
      obtain ⟨q, hq, hbefore', hstrength, hlonger⟩ := h₁
      refine writes_chain n hq hbefore' (Or.inr (Or.inr ⟨_, hgoes, hstrength.symm⟩)) ?_
      -- The phrase has grown, so fewer tokens are left.
      have hall := congrArg List.length (hp.tokens.symm.trans hq.tokens)
      rw [List.length_append, List.length_append, c.length_kinds, c₁.length_kinds] at hall
      omega
    · rename_i hstop
      exact ends_pure ⟨p, hp, hadmitted, Bool.eq_false_iff.mpr hstop⟩

end

/-- However many expressions may be open inside each other, a phrase is read. -/
theorem writes_expressionWithin : ∀ depth : Nat, Writes (expressionWithin depth)
  | 0 => fun _ _ => nofun
  | depth + 1 => fun least c => by
    have hsub := writes_expressionWithin depth
    refine (writes_operand hsub c).bind fun left c₁ h₁ => ends_remaining ?_
    obtain ⟨p, hp, hbefore, hstrong⟩ := h₁
    exact writes_chain hsub _ hp hbefore (hstrong.imp_right Or.inl) (Nat.le_refl _)

end Parse

/-- The tokens of a stream, without their places. -/
def TokenStream.kinds (s : TokenStream) : List Token := s.tokens.map Prod.fst

/-- The parser reads exactly the expression that is written.  The tokens of a text that is accepted, without parentheses
that only group and without commas that close arguments, are those of the tree from left to right.  With them they are
the tokens of a phrase that says the tree, and there an operand that is not in parentheses binds as strongly as its
operator needs, unless it is a lambda that stands behind the operator and ends where the operand ends. -/
theorem parsed_as_written {text : String} {e : Expr} (h : Expr.parse text = .ok e) :
    ∃ stream, tokenize text = .ok stream ∧ ungrouped stream.kinds = e.inOrder ∧
      ∃ p : Phrase, p.tokens = stream.kinds ∧ p.tree = e.bare ∧ p.Grouped := by
  unfold Expr.parse at h
  cases hstream : tokenize text with
  | error errors =>
    rw [hstream] at h
    cases h
  | ok stream =>
    rw [hstream] at h
    dsimp only at h
    cases hread : Parse.expression stream.cursor with
    | error err c =>
      rw [hread] at h
      cases h
    | ok e' c =>
      rw [hread] at h
      dsimp only at h
      split at h
      · rename_i hend
        cases h
        obtain ⟨p, hp, -, -⟩ := Parse.writes_expressionWithin Parse.maxDepth 0 stream.cursor e c hread
        have htokens : p.tokens = stream.kinds := by
          have hkinds := hp.tokens
          rw [show c.kinds = [] by rw [Cursor.kinds, List.isEmpty_iff.mp hend]; rfl, List.append_nil] at hkinds
          exact hkinds.symm
        refine ⟨stream, rfl, ?_, p, htokens, hp.tree, hp.grouped⟩
        rw [← htokens, p.ungrouped_tokens, hp.tree, e.inOrder_bare]
      · cases h

/-- A lambda that is the operand of a sign takes up everything behind it; of the parentheses two pairs only group. -/
theorem parsed_as_written_lambda : ∃ e, Expr.parse "a - -x => (x.y + b)(c, (d),) ?? e ? f : g" = .ok e ∧
    ∃ stream, tokenize "a - -x => (x.y + b)(c, (d),) ?? e ? f : g" = .ok stream ∧
      ungrouped stream.kinds = e.inOrder ∧ stream.kinds.length = e.inOrder.length + 5 ∧
        ∃ p : Phrase, p.tokens = stream.kinds ∧ p.tree = e.bare ∧ p.Grouped := by
  have hchecked : (Expr.parse "a - -x => (x.y + b)(c, (d),) ?? e ? f : g").toOption.any (fun e =>
      (tokenize "a - -x => (x.y + b)(c, (d),) ?? e ? f : g").toOption.any fun stream =>
        stream.kinds.length = e.inOrder.length + 5) = true := by
    decide +kernel
  obtain ⟨e, hparse, hchecked⟩ := exists_of_toOption_any hchecked
  obtain ⟨stream, hstream, hungrouped, hphrase⟩ := parsed_as_written hparse
  rw [hstream] at hchecked
  exact ⟨e, hparse, stream, hstream, hungrouped, of_decide_eq_true hchecked, hphrase⟩

end Reactive
