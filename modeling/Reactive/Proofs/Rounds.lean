import Mathlib.Tactic.Common
import Reactive.Proofs.Advancing

/-!
# Reactive.Proofs.Rounds — the loops in the rules of the grammar

The loops of the grammar count down from the number of tokens left.  The count decides nothing: each loop is here given
by its round, which leaves the loop or goes on, and repeating the round without any bound ends with what the loop gives.

* `Finishes left round s r`: repeating `round` from `s` ends with `r`, and every round that goes on lowers `left`.
* `Parse.Unrolls body loop`: a loop in a rule is its rounds one after the other, and a round that goes on reads a token.
* `Parse.Unrolls.finishes`: such a loop ends as it does without a bound, if its bound is the number of tokens left.
* `Parse.separatedRound` and the others: the round of each loop, with `unrolls_` and its name for the loop itself.
-/

namespace Reactive

open Stateful

/-- Repeating a round ends with a result: some round leaves the loop, and every round before that lowers what is
left. -/
inductive Finishes {σ ρ : Type} (left : σ → Nat) (round : σ → ρ ⊕ σ) : σ → ρ → Prop
  | leave {s : σ} {r : ρ} (done : round s = .inl r) : Finishes left round s r
  | again {s s' : σ} {r : ρ} (next : round s = .inr s') (less : left s' < left s)
    (rest : Finishes left round s' r) : Finishes left round s r

namespace Parse

section

variable {α τ : Type}

/-! ### Loops in rules -/

/-- A round of a loop in a rule as a step: what the loop has read so far and the cursor, before and after; an error
leaves the loop. -/
def roundOf (body : τ → Parse (α ⊕ τ)) : τ × Cursor → EStateM.Result ParseError Cursor α ⊕ (τ × Cursor)
  | (t, c) =>
    match body t c with
    | .ok (.inl a) c' => .inl (.ok a c')
    | .ok (.inr t') c' => .inr (t', c')
    | .error e c' => .inl (.error e c')

/-- A loop with a bound is its rounds one after the other, and a round that goes on reads a token. -/
structure Unrolls (body : τ → Parse (α ⊕ τ)) (loop : Nat → τ → Parse α) : Prop where
  succ : ∀ n t, loop (n + 1) t = body t >>= Sum.elim pure (loop n)
  zero : ∀ t c, c.tokens = [] → loop 0 t c = loop 1 t c
  less : ∀ t c, Stateful.Ends (body t) c fun r c' => r.isRight = true → c'.left < c.left

namespace Unrolls

variable {body : τ → Parse (α ⊕ τ)} {loop : Nat → τ → Parse α}

/-- One round, and what the loop does behind it. -/
theorem step (h : Unrolls body loop) {n : Nat} {t : τ} {c : Cursor}
    (hrest : ∀ t' c', c'.left < c.left → Finishes (·.2.left) (roundOf body) (t', c') (loop n t' c')) :
    Finishes (·.2.left) (roundOf body) (t, c) (loop (n + 1) t c) := by
  rw [h.succ, bind_apply]
  have hless := h.less t c
  cases hbody : body t c with
  | error e c' => exact .leave (by rw [roundOf, hbody])
  | ok r c' =>
    cases r with
    | inl a => exact .leave (by rw [roundOf, hbody]; rfl)
    | inr t' =>
      have hlt : c'.left < c.left := hless _ c' hbody rfl
      exact .again (by rw [roundOf, hbody]) hlt (hrest t' c' hlt)

/-- A loop whose bound is at least the number of tokens left ends as it does without a bound. -/
theorem finishes (h : Unrolls body loop) :
    ∀ (n : Nat) (t : τ) (c : Cursor), c.left ≤ n → Finishes (·.2.left) (roundOf body) (t, c) (loop n t c)
  | 0, t, c, hn => by
    rw [h.zero t c (List.eq_nil_of_length_eq_zero (Nat.le_zero.mp hn))]
    exact h.step fun t' c' hlt => absurd hlt (by omega)
  | n + 1, t, c, hn => h.step fun t' c' hlt => h.finishes n t' c' (by omega)

/-- A loop that collects items ends with those it reads if it starts with none. -/
theorem collected {body : List α → Parse (List α ⊕ List α)} {loop : Nat → Parse (List α)}
    (h : Unrolls body fun n acc => (acc ++ ·) <$> loop n) (c : Cursor) :
    Finishes (·.2.left) (roundOf body) ([], c) (loop c.left c) := by
  have hnil : (([] : List α) ++ ·) <$> loop c.left = loop c.left := id_map (loop c.left)
  have hfinishes := h.finishes c.left [] c (Nat.le_refl _)
  rwa [hnil] at hfinishes

end Unrolls

end

/-! ### At the end of the tokens -/

section

variable {α β : Type} {c : Cursor}

theorem map_congr_at {x y : Parse α} (f : α → β) (h : x c = y c) : (f <$> x) c = (f <$> y) c := by
  rw [map_eq_pure_bind, map_eq_pure_bind, bind_apply, bind_apply, h]

theorem bind_congr_at {x y : Parse α} {f g : α → Parse β} (hxy : x c = y c)
    (h : ∀ a c', x c = .ok a c' → f a c' = g a c') : (x >>= f) c = (y >>= g) c := by
  rw [bind_apply, bind_apply, ← hxy]
  cases hx : x c with
  | ok a c' => exact h a c' hx
  | error e c' => rfl

theorem accept_at_end {t : Token} (ht : t ≠ .endOfFile) (hc : c.tokens = []) : accept t c = .ok false c := by
  rw [accept_apply, if_neg fun h => Cursor.tokens_ne_nil h ht hc]

theorem endOfFile_of_tokens (hc : c.tokens = []) : c.current = .endOfFile := by rw [Cursor.current, hc]

theorem current_at_end (hc : c.tokens = []) : current c = .ok .endOfFile c :=
  congrArg (EStateM.Result.ok · c) (endOfFile_of_tokens hc)

theorem tokens_nil_of_forward {x : Parse α} (hx : Forward x) (hc : c.tokens = []) {a : α} {c' : Cursor}
    (h : x c = .ok a c') : c'.tokens = [] := by
  have hle := hx.ends c a c' h
  rw [Cursor.left, hc] at hle
  exact List.eq_nil_of_length_eq_zero (Nat.le_zero.mp hle)

end

/-! ### The rounds -/

/-- A token that is accepted is read; otherwise nothing is. -/
theorem accept_cases (t : Token) (c : Cursor) : Stateful.Ends (accept t) c fun b c' =>
    (b = true ∧ c.current = t ∧ c.advance = c') ∨ (b = false ∧ c = c') := by
  intro b c' h
  rw [accept_apply] at h
  split at h
  · rename_i hcurrent
    cases h
    exact .inl ⟨rfl, hcurrent, rfl⟩
  · cases h
    exact .inr ⟨rfl, rfl⟩

section

variable {α : Type} {item : Parse α}

/-- A round of `separated`. -/
def separatedRound (item : Parse α) (acc : List α) : Parse (List α ⊕ List α) := do
  let a ← item
  if ← accept (.symbol .comma) then return .inr (acc ++ [a]) else return .inl (acc ++ [a])

/-- A round of `listedBefore`. -/
def listedRound (close : Token) (item : Parse α) (acc : List α) : Parse (List α ⊕ List α) := do
  if ← check close then return .inl acc else separatedRound item acc

/-- The round that ends a loop need not read. -/
theorem less_stop {α τ : Type} {a : α} {c : Cursor} {n : Nat} :
    Stateful.Ends (pure (.inl a) : Parse (α ⊕ τ)) c fun r c' => r.isRight = true → c'.left < n :=
  ends_pure nofun

/-- A rule that fails has no results. -/
theorem ends_fail {α : Type} {P : α → Cursor → Prop} {fault : ParseFault} {c : Cursor} :
    Stateful.Ends (fail fault) c P := nofun

/-- What follows an item of a list. -/
theorem less_comma {acc acc' : List α} {c : Cursor} {n : Nat} (hc : c.left ≤ n) :
    Stateful.Ends (do if ← accept (.symbol .comma) then return .inr acc else return .inl acc' :
      Parse (List α ⊕ List α)) c fun r c' => r.isRight = true → c'.left < n := by
  refine (accept_cases (.symbol .comma) c).bind ?_
  rintro _ _ (⟨rfl, hcomma, rfl⟩ | ⟨rfl, rfl⟩)
  · have hlt := Cursor.left_advance_lt (Cursor.tokens_ne_nil hcomma nofun)
    exact ends_pure fun _ => Nat.lt_of_lt_of_le hlt hc
  · exact less_stop

theorem succ_comma (loop : Nat → Parse (List α)) (n : Nat) (acc : List α) :
    (acc ++ ·) <$> (do
        let a ← item
        if ← accept (.symbol .comma) then return a :: (← loop n) else return [a]) =
      separatedRound item acc >>= Sum.elim pure fun acc => (acc ++ ·) <$> loop n := by
  rw [separatedRound, map_bind, bind_assoc]
  refine bind_congr fun a => ?_
  rw [map_bind, bind_assoc]
  refine bind_congr fun b => ?_
  cases b with
  | true => simp
  | false => simp

/-- At the end of the tokens no comma follows. -/
theorem zero_comma (hitem : Forward item) (loop : Parse (List α)) {c : Cursor} (hc : c.tokens = []) :
    (do return [← item] : Parse (List α)) c = (do
      let a ← item
      if ← accept (.symbol .comma) then return a :: (← loop) else return [a] : Parse (List α)) c := by
  refine bind_congr_at rfl fun a c' h => ?_
  rw [bind_of_ok (accept_at_end (t := .symbol .comma) nofun (tokens_nil_of_forward hitem hc h))]
  rfl

theorem unrolls_separated (hitem : Forward item) :
    Unrolls (separatedRound item) fun n acc => (acc ++ ·) <$> separated item n where
  succ n acc := succ_comma (separated item) n acc
  zero _ _ hc := map_congr_at _ (zero_comma hitem (separated item 0) hc)
  less _ c := (hitem.ends c).bind fun _ _ hle => less_comma hle

theorem unrolls_listed (hitem : Forward item) (close : Token) :
    Unrolls (listedRound close item) fun n acc => (acc ++ ·) <$> listedBefore close item n where
  succ n acc := by
    rw [listedBefore_succ, listedRound, map_bind, bind_assoc]
    refine bind_congr fun b => ?_
    cases b with
    | true => simp
    | false => exact succ_comma (listedBefore close item) n acc
  zero _ _ hc := by
    refine map_congr_at _ ?_
    rw [listedBefore_succ]
    refine bind_congr_at rfl fun b c' h => ?_
    cases h
    split
    · rfl
    · exact zero_comma hitem (listedBefore close item 0) hc
  less _ c := by
    refine Stateful.Ends.bind (P := fun _ c' => c'.left ≤ c.left) ?_ fun b c' hle => ?_
    · rintro _ _ ⟨⟩
      exact Nat.le_refl _
    · cases b with
      | true => exact less_stop
      | false => exact (hitem.ends c').bind fun _ _ hle' => less_comma (Nat.le_trans hle' hle)

end

/-- A round of `dotted`. -/
def dottedRound (name : String) : Parse (String ⊕ String) := do
  if ← accept (.symbol .dot) then
    let (segment, _) ← identifier
    return .inr (name ++ "." ++ segment)
  else return .inl name

/-- A round of `attributesWithin`: a group of attributes. -/
def attributesRound (acc : List Attribute) : Parse (List Attribute ⊕ List Attribute) := do
  if ← accept (.symbol .leftBracket) then
    let group ← separated attributeItem (← remaining)
    expect (.symbol .rightBracket)
    return .inr (acc ++ group)
  else return .inl acc

/-- A round of `modifiersWithin`. -/
def modifiersRound (acc : List Modifier) : Parse (List Modifier ⊕ List Modifier) := do
  if ← accept (.keyword .static) then return .inr (acc ++ [.static])
  let c ← get
  match c.current.name?.bind Modifier.ofWord? with
  | some m => do
    if followsModifier c.peek then
      advance
      return .inr (acc ++ [m])
    else return .inl acc
  | none => return .inl acc

/-- A round of `skipAccessibility`. -/
def accessibilityRound : Unit → Parse (Unit ⊕ Unit) := fun _ => do
  match (← current).name?.bind Modifier.ofWord? with
  | some m => do
    if m.isAccessibility then
      advance
      return .inr ()
    else return .inl ()
  | none => return .inl ()

/-- A round of `accessors`. -/
def accessorsRound : Option Accessor × Option Accessor →
    Parse ((Option Accessor × Option Accessor) ⊕ (Option Accessor × Option Accessor)) := fun (getter, setter) => do
  if ← check (.symbol .rightBrace) then return .inl (getter, setter)
  skipAccessibility (← remaining)
  match ← current with
  | .identifier word => do
    if word = "get" then
      if getter.isSome then fail (.duplicateAccessor word)
      return .inr (some (← accessorRest), setter)
    else if word = "set" || word = "init" then
      if setter.isSome then fail (.duplicateAccessor word)
      return .inr (getter, some (← accessorRest))
    else fail (.notAccessor (.identifier word))
  | found => fail (.notAccessor found)

/-- A round of `chain`: an operator and its further operands. -/
def chainRound (sub : Nat → Parse Expr) (least : Nat) (left : Expr) : Parse (Expr ⊕ Expr) := do
  if continues least (← current) then return .inr (← extend sub left) else return .inl left

theorem unrolls_dotted : Unrolls dottedRound fun n name => dotted name n where
  succ n name := by
    rw [dotted, dottedRound, bind_assoc]
    refine bind_congr fun b => ?_
    cases b with
    | true => simp
    | false => rfl
  zero name c hc := by
    rw [dotted, dotted, bind_of_ok (accept_at_end (t := .symbol .dot) nofun hc)]
    rfl
  less name c := by
    refine (accept_cases (.symbol .dot) c).bind ?_
    rintro _ _ (⟨rfl, -, rfl⟩ | ⟨rfl, rfl⟩)
    · refine (advances_identifier c.advance).bind fun _ _ hlt => ends_pure fun _ => ?_
      exact Nat.lt_of_lt_of_le hlt c.left_advance_le
    · exact less_stop

theorem unrolls_attributes : Unrolls attributesRound fun n acc => (acc ++ ·) <$> attributesWithin n where
  succ n acc := by
    rw [attributesWithin, attributesRound, map_bind, bind_assoc]
    refine bind_congr fun b => ?_
    cases b with
    | true => simp
    | false => simp
  zero acc c hc := by
    refine map_congr_at _ ?_
    rw [attributesWithin, attributesWithin, bind_of_ok (accept_at_end (t := .symbol .leftBracket) nofun hc)]
    rfl
  less acc c := by
    refine (accept_cases (.symbol .leftBracket) c).bind ?_
    rintro _ _ (⟨rfl, hbracket, rfl⟩ | ⟨rfl, rfl⟩)
    · have hgroup : Forward (do
          let group ← separated attributeItem (← remaining)
          expect (.symbol .rightBracket)
          return .inr (acc ++ group) : Parse (List Attribute ⊕ List Attribute)) := Sited.forward (V := Any) fun n => by
        have site := Cursor.site_left n
        refine sited_remaining.bind fun k _ => ?_
        refine (sited_separated site (sited_attributeItem site) k).bind fun group _ => ?_
        exact (sited_expect site _).bind fun _ _ => sited_any _
      have hlt := Cursor.left_advance_lt (Cursor.tokens_ne_nil hbracket nofun)
      exact (hgroup.ends c.advance).imp fun _ _ hle _ => Nat.lt_of_le_of_lt hle hlt
    · exact less_stop

/-- A token that is read ends a round. -/
theorem less_advance {α τ : Type} {a : α ⊕ τ} {c : Cursor} (hc : c.tokens ≠ []) :
    Stateful.Ends (do advance; return a : Parse (α ⊕ τ)) c fun r c' => r.isRight = true → c'.left < c.left := by
  rintro _ _ ⟨⟩ _
  exact Cursor.left_advance_lt hc

/-- Where a word stands the tokens have not ended. -/
theorem tokens_of_word {α : Type} {f : String → Option α} {c : Cursor} {a : α} (h : c.current.name?.bind f = some a) :
    c.tokens ≠ [] := by
  intro hnil
  unfold Cursor.current at h
  rw [hnil] at h
  cases h

theorem ends_get {α : Type} {f : Cursor → Parse α} {c : Cursor} {Q : α → Cursor → Prop}
    (h : Stateful.Ends (f c) c Q) : Stateful.Ends (get >>= f) c Q := h

theorem unrolls_modifiers : Unrolls modifiersRound fun n acc => (acc ++ ·) <$> modifiersWithin n where
  succ n acc := by
    rw [modifiersWithin, modifiersRound, map_bind, bind_assoc]
    refine bind_congr fun b => ?_
    cases b with
    | true => simp
    | false =>
      simp only [Bool.false_eq_true, if_false]
      rw [map_bind, bind_assoc]
      refine bind_congr fun c => ?_
      cases c.current.name?.bind Modifier.ofWord? with
      | none => simp
      | some m => cases followsModifier c.peek <;> simp
  zero acc c hc := by
    refine map_congr_at _ ?_
    rw [modifiersWithin, modifiersWithin, bind_of_ok (accept_at_end (t := .keyword .static) (by decide) hc)]
    simp only [Bool.false_eq_true, if_false]
    rw [get_bind, endOfFile_of_tokens hc]
    rfl
  less acc c := by
    refine (accept_cases (.keyword .static) c).bind ?_
    rintro _ _ (⟨rfl, hstatic, rfl⟩ | ⟨rfl, rfl⟩)
    · exact ends_pure fun _ => Cursor.left_advance_lt (Cursor.tokens_ne_nil hstatic (by decide))
    · refine ends_get ?_
      cases hword : c.current.name?.bind Modifier.ofWord? with
      | none => exact less_stop
      | some m =>
        dsimp only
        split
        · exact less_advance (tokens_of_word hword)
        · exact less_stop

theorem unrolls_accessibility : Unrolls accessibilityRound fun n _ => skipAccessibility n where
  succ n u := by
    rw [skipAccessibility, accessibilityRound, bind_assoc]
    refine bind_congr fun t => ?_
    cases t.name?.bind Modifier.ofWord? with
    | none => rfl
    | some m =>
      dsimp only
      split
      · simp
      · rfl
  zero u c hc := by
    rw [skipAccessibility, skipAccessibility, bind_of_ok (current_at_end hc)]
    rfl
  less u c := by
    refine ends_current ?_
    cases hword : c.current.name?.bind Modifier.ofWord? with
    | none => exact less_stop
    | some m =>
      dsimp only
      split
      · exact less_advance (tokens_of_word hword)
      · exact less_stop

/-- Any rule may follow a token that is read. -/
theorem less_bind {α : Type} {f : Unit → Parse α} {c : Cursor} (hc : c.tokens ≠ [])
    (hf : ∀ n, Sited (fun c => c.left ≤ n) (fun _ => True) Any (f ())) :
    Stateful.Ends (advance >>= f) c fun _ c' => c'.left < c.left := by
  intro a c' hrun
  exact Nat.lt_of_le_of_lt ((Sited.forward hf).ends c.advance a c' hrun) (Cursor.left_advance_lt hc)

section

variable {sub : Nat → Parse Expr}
  (hsub : ∀ n least, Sited (fun c => c.left ≤ n) (fun _ => True) (Expr.Sited fun _ => True) (sub least))

include hsub

/-- A token that goes on with an expression is read. -/
theorem less_extend {left : Expr} {c : Cursor} (h : strength c.current ≠ 0) :
    Stateful.Ends (extend sub left) c fun _ c' => c'.left < c.left := by
  have hc : c.tokens ≠ [] := fun hnil => h (endOfFile_of_tokens hnil ▸ rfl)
  refine ends_current ?_
  obtain hcurrent | hcurrent | hcurrent | ⟨op, hcurrent⟩ := operator_cases h
  · rw [hcurrent]
    exact less_bind hc fun n => (sited_identifier (Cursor.site_left n)).bind fun _ _ => sited_any _
  · rw [hcurrent]
    refine less_bind hc fun n => sited_remaining.bind fun k _ => ?_
    refine (sited_listedBefore (Cursor.site_left n) (hsub n 0) _ k).bind fun args _ => ?_
    exact (sited_expect (Cursor.site_left n) _).bind fun _ _ =>
      (sited_previousSpan (Cursor.site_left n)).bind fun _ _ => sited_any _
  · rw [hcurrent]
    refine less_bind hc fun n => (hsub n 0).bind fun thenBranch _ => ?_
    exact (sited_expect (Cursor.site_left n) _).bind fun _ _ => (hsub n 0).bind fun elseBranch _ => sited_any _
  · rw [hcurrent]
    have hbinary : Stateful.Ends (do
        advance
        let right ← sub op.precedence
        return .binary op left right (left.span.through right.span) : Parse Expr) c fun _ c' => c'.left < c.left :=
      less_bind hc fun n => (hsub n _).bind fun right _ => sited_any _
    cases op <;> exact hbinary

theorem unrolls_chain (least : Nat) : Unrolls (chainRound sub least) fun n left => chain sub least n left where
  succ n left := by
    rw [chain, chainRound, bind_assoc]
    refine bind_congr fun t => ?_
    split
    · simp
    · rfl
  zero left c hc := by
    rw [chain, chain, bind_of_ok (current_at_end hc)]
    rfl
  less left c := by
    refine ends_current ?_
    split
    · rename_i hcontinues
      exact (less_extend hsub (continues_iff.mp hcontinues).1).bind fun _ _ hlt => ends_pure fun _ => hlt
    · exact less_stop

end

theorem less_accessorRest {c : Cursor} (hc : c.tokens ≠ []) :
    Stateful.Ends accessorRest c fun _ c' => c'.left < c.left := by
  refine ends_currentSpan (less_bind hc fun n => (sited_body? (Cursor.site_left n)).bind fun body _ => ?_)
  exact (sited_expect (Cursor.site_left n) _).bind fun _ _ =>
    (sited_previousSpan (Cursor.site_left n)).bind fun _ _ => sited_any _

theorem less_accessorsRound (pair : Option Accessor × Option Accessor) (c : Cursor) :
    Stateful.Ends (accessorsRound pair) c fun r c' => r.isRight = true → c'.left < c.left := by
  obtain ⟨getter, setter⟩ := pair
  refine ends_check ?_
  split
  · exact less_stop
  · have hskip : Forward (skipAccessibility c.left) :=
      Sited.forward fun n => sited_skipAccessibility (Cursor.site_left n) c.left
    refine ends_remaining ((hskip.ends c).bind fun _ c' hle => ends_current ?_)
    cases hcurrent : c'.current with
    | identifier word =>
      have haccessor (next : Accessor → Option Accessor × Option Accessor) :
          Stateful.Ends (do return .inr (next (← accessorRest)) :
            Parse ((Option Accessor × Option Accessor) ⊕ (Option Accessor × Option Accessor))) c'
              fun r c'' => r.isRight = true → c''.left < c.left := by
        refine (less_accessorRest (Cursor.tokens_ne_nil hcurrent (by simp))).bind fun a c'' hlt => ?_
        exact ends_pure fun _ => Nat.lt_of_lt_of_le hlt hle
      dsimp only
      split
      · split
        · exact ends_fail.bind fun _ _ h => h
        · exact haccessor fun a => (some a, setter)
      · split
        · split
          · exact ends_fail.bind fun _ _ h => h
          · exact haccessor fun a => (getter, some a)
        · exact ends_fail
    | _ => exact ends_fail

theorem accessors_succ (n : Nat) (pair : Option Accessor × Option Accessor) : accessors (n + 1) pair.1 pair.2 =
    accessorsRound pair >>= Sum.elim pure fun pair => accessors n pair.1 pair.2 := by
  obtain ⟨getter, setter⟩ := pair
  rw [accessors, accessorsRound, bind_assoc]
  refine bind_congr fun b => ?_
  cases b with
  | true => rfl
  | false =>
    simp only [Bool.false_eq_true, if_false]
    rw [bind_assoc]
    refine bind_congr fun k => ?_
    rw [bind_assoc]
    refine bind_congr fun _ => ?_
    rw [bind_assoc]
    refine bind_congr fun t => ?_
    cases t with
    | identifier word =>
      dsimp only
      split
      · split
        · rfl
        · simp
      · split
        · split
          · rfl
          · simp
        · rfl
    | _ => rfl

theorem unrolls_accessors : Unrolls accessorsRound fun n pair => accessors n pair.1 pair.2 where
  succ := accessors_succ
  zero pair c hc := by
    have hcheck : check (.symbol .rightBrace) c = .ok false c := by
      rw [check_apply, endOfFile_of_tokens hc]
      rfl
    have hremaining : remaining c = .ok 0 c := congrArg (EStateM.Result.ok · c) (congrArg List.length hc)
    have hskip : skipAccessibility 0 c = .ok () c := rfl
    rw [accessors, accessors, bind_of_ok hcheck, if_neg Bool.false_ne_true, bind_of_ok hremaining, bind_of_ok hskip,
      bind_of_ok (current_at_end hc), bind_of_ok (current_at_end hc)]
  less := less_accessorsRound

end Parse

end Reactive
