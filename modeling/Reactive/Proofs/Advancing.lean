import Mathlib.Tactic.Common
import Reactive.Proofs.Parsing
import Reactive.Proofs.Sites

/-!
# Reactive.Proofs.Advancing — rules do not go back, and recovery goes on

* `Parse.Forward x`: however the rule `x` ends, no more tokens are left than before.
* `Parse.Advances x`: where the rule `x` ends well, fewer tokens are left than before.
* `Cursor.left_memberEnd_lt`, `Cursor.left_classStart_le`, `Cursor.left_pastSemicolon_le`: behind an error reading goes
  on with fewer tokens, even if the rule that failed has read none.
-/

namespace Reactive

open Stateful

namespace Cursor

/-- How many tokens are left. -/
abbrev left (c : Cursor) : Nat := c.tokens.length

variable {c : Cursor} {t : Token}

theorem tokens_ne_nil (h : c.current = t) (ht : t ≠ .endOfFile) : c.tokens ≠ [] := by
  intro hnil
  unfold current at h
  rw [hnil] at h
  exact ht h.symm

theorem left_advance_lt (h : c.tokens ≠ []) : c.advance.left < c.left := by
  have hpos : 0 < c.left := List.length_pos_iff.mpr h
  have hadvance : c.advance.left = c.left - 1 := c.length_advance
  omega

theorem left_advance_le (c : Cursor) : c.advance.left ≤ c.left := by
  have hadvance : c.advance.left = c.left - 1 := c.length_advance
  omega

/-- The number of tokens left is at most some number. -/
theorem site_left (n : Nat) : Site (fun c => c.left ≤ n) (fun _ => True) where
  advance h := Nat.le_trans (left_advance_le _) h
  currentSpan _ := trivial
  previousSpan _ := trivial
  through _ _ := trivial

theorem left_skipTo_le (p : Token → Bool) (previous : Option Span) (stop : Span) (ts : Tokens) :
    (skipTo p previous stop ts).left ≤ ts.length :=
  Parse.kept_skipTo (site_left ts.length) p (Nat.le_refl ts.length)

theorem left_memberEnd_le (c : Cursor) : c.memberEnd.left ≤ c.left :=
  Parse.kept_memberEnd (site_left c.left) (Nat.le_refl c.left)

/-- Behind a member at least one token has been read, unless the class or the file ends. -/
theorem left_memberEnd_lt (h : c.tokens ≠ []) (hbrace : c.current ≠ .symbol .rightBrace) :
    c.memberEnd.left < c.left := by
  obtain ⟨previous, tokens, stop⟩ := c
  match tokens, h with
  | (t, s) :: ts, _ =>
    have hkept (depth : Nat) : (skipMember (some s) stop depth ts).left ≤ ts.length :=
      Parse.kept_skipMember (site_left ts.length) (Nat.le_refl ts.length)
    have hskip (depth : Nat) : (skipMember (some s) stop depth ts).left < ts.length + 1 :=
      Nat.lt_succ_of_le (hkept depth)
    unfold memberEnd skipMember
    split
    · exact hskip 1
    · split
      · rename_i hright
        exact absurd hright hbrace
      · split
        · exact Nat.lt_succ_self ts.length
        · exact hskip 0

/-- Where a class may begin at least one token has been read, unless the file ends. -/
theorem left_classStart_le (c : Cursor) : c.classStart.left ≤ c.left - 1 :=
  Nat.le_trans (left_skipTo_le _ _ _ _) (Nat.le_of_eq c.length_advance)

theorem left_pastSemicolon_le (c : Cursor) : c.pastSemicolon.left ≤ c.left :=
  Nat.le_trans (left_advance_le _) (left_skipTo_le _ _ _ _)

end Cursor

namespace Parse

variable {α β : Type} {V : α → Prop} {x : Parse α} {f : α → Parse β} {c : Cursor} {t : Token}

/-- However a rule ends, no more tokens are left than before. -/
def Forward (x : Parse α) : Prop := ∀ c, (final (x c)).left ≤ c.left

theorem Sited.forward (h : ∀ n, Sited (fun c => c.left ≤ n) (fun _ => True) V x) : Forward x := by
  intro c
  have hrun := h c.left c (Nat.le_refl c.left)
  cases hx : x c with
  | ok a c' =>
    rw [hx] at hrun
    exact hrun.2
  | error e c' =>
    rw [hx] at hrun
    exact hrun.2

theorem Forward.ends (hx : Forward x) (c : Cursor) : Stateful.Ends x c fun _ c' => c'.left ≤ c.left := by
  intro a c' hrun
  have h := hx c
  rw [hrun] at h
  exact h

theorem forward_error (hx : Forward x) {e : ParseError} {c' : Cursor} (h : x c = .error e c') : c'.left ≤ c.left := by
  have hle := hx c
  rw [h] at hle
  exact hle

/-- Where a rule ends well, fewer tokens are left than before. -/
def Advances (x : Parse α) : Prop := ∀ c, Stateful.Ends x c fun _ c' => c'.left < c.left

theorem Advances.bind (hx : Advances x) (hf : ∀ a, Forward (f a)) : Advances (x >>= f) :=
  fun c => (hx c).bind fun a c' hlt => ((hf a).ends c').imp fun _ _ hle => Nat.lt_of_le_of_lt hle hlt

/-! ### Rules that read a token -/

/-- The tokens that go on with an expression. -/
theorem operator_cases (h : strength t ≠ 0) : t = .symbol .dot ∨ t = .symbol .leftParen ∨ t = .symbol .question ∨
    ∃ op : BinaryOp, t = .symbol op.symbol := by
  cases t with
  | symbol s =>
    cases hop : BinaryOp.ofSymbol? s with
    | none =>
      -- No other symbol is an operator.
      cases s <;> first
        | exact absurd rfl h
        | exact .inl rfl
        | exact .inr (.inl rfl)
        | exact .inr (.inr (.inl rfl))
        | cases hop
    | some op =>
      have hfound := List.find?_some (show BinaryOp.all.find? (·.symbol = s) = some op from hop)
      have hsymbol : op.symbol = s := of_decide_eq_true hfound
      exact .inr (.inr (.inr ⟨op, hsymbol ▸ rfl⟩))
  | _ => exact absurd rfl h

theorem advances_expect (ht : t ≠ .endOfFile) : Advances (expect t) := by
  intro c u c' h
  rw [expect_apply] at h
  split at h
  · rename_i hcurrent
    cases h
    exact Cursor.left_advance_lt (Cursor.tokens_ne_nil hcurrent ht)
  · cases h

theorem advances_identifier : Advances identifier := by
  intro c
  refine (ends_identifier c).imp fun _ c' hkinds => ?_
  have hlength : c.left = c'.left + 1 := by
    have h := congrArg List.length hkinds
    rwa [Cursor.kinds, Cursor.kinds, List.length_map, List.length_cons, List.length_map] at h
  exact Nat.lt_of_lt_of_eq (Nat.lt_succ_self _) hlength.symm

theorem forward_qualifiedName : Forward qualifiedName := Sited.forward fun n => sited_qualifiedName (Cursor.site_left n)

theorem advances_qualifiedName : Advances qualifiedName :=
  advances_identifier.bind fun (name, _) =>
    Sited.forward (V := Any) fun n => sited_remaining.bind fun k _ => sited_dotted (Cursor.site_left n) k name

end Parse

end Reactive
