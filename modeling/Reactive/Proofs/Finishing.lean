import Mathlib.Tactic.Common
import Reactive.Proofs.Rounds

/-!
# Reactive.Proofs.Finishing — reading a file always ends

* `Parse.Collects next loop`: a loop over directives, members or classes, in which every round reads a token and makes
  no more errors than it reads tokens.
* `Parse.seekRound`, `Parse.memberEndRound`: the rounds of recovery.
* `Parse.LoopsFinish`: every loop of the grammar and of recovery ends, with what it gives.
* `Parse.reading_finishes`: so it is, and a file has at most as many errors as tokens, the end among them.
-/

namespace Reactive

open Stateful

namespace Cursor

/-- What is left of given tokens. -/
theorem site_suffix (ts : Tokens) : Site (fun c => c.tokens <:+ ts) (fun _ => True) where
  advance {c} h := by
    obtain ⟨previous, tokens, stop⟩ := c
    cases tokens with
    | nil => exact h
    | cons t us => exact (List.suffix_cons t us).trans h
  currentSpan _ := trivial
  previousSpan _ := trivial
  through _ _ := trivial

end Cursor

namespace Parse

variable {c : Cursor}

/-! ### Loops over declarations -/

section

variable {α : Type}

/-- What a loop over declarations has found, and where it stands. -/
abbrev Found (α : Type) := List α × List ParseError × Cursor

/-- A round that adds what `next` finds, and leaves the loop where that is nothing. -/
def collectRound (next : Cursor → Option (Found α)) : Found α → Found α ⊕ Found α
  | (found, errors, c) =>
    match next c with
    | none => .inl (found, errors, c)
    | some (more, moreErrors, c') => .inr (found ++ more, errors ++ moreErrors, c')

/-- A loop with a bound collects what `next` finds; each round reads a token, and makes no more errors than it reads
tokens. -/
structure Collects (next : Cursor → Option (Found α)) (loop : Nat → Cursor → Found α) : Prop where
  leave : ∀ n c, next c = none → loop n c = ([], [], c)
  again : ∀ n c found errors c', next c = some (found, errors, c') →
    loop (n + 1) c = (found ++ (loop n c').1, errors ++ (loop n c').2.1, (loop n c').2.2)
  less : ∀ c found errors c', next c = some (found, errors, c') → c'.left < c.left
  errors : ∀ c found errors c', next c = some (found, errors, c') → errors.length + c'.left ≤ c.left

namespace Collects

variable {next : Cursor → Option (Found α)} {loop : Nat → Cursor → Found α}

theorem finishes_from (h : Collects next loop) : ∀ (n : Nat) (found : List α) (errors : List ParseError) (c : Cursor),
    c.left ≤ n → Finishes (·.2.2.left) (collectRound next) (found, errors, c)
      (found ++ (loop n c).1, errors ++ (loop n c).2.1, (loop n c).2.2) := by
  intro n found errors c hn
  cases hnext : next c with
  | none =>
    rw [h.leave n c hnext, List.append_nil, List.append_nil]
    exact .leave (by rw [collectRound, hnext])
  | some r =>
    obtain ⟨more, moreErrors, c'⟩ := r
    have hless := h.less c more moreErrors c' hnext
    match n, hn with
    | 0, hn => exact absurd hn (by omega)
    | n + 1, hn =>
      rw [h.again n c more moreErrors c' hnext, ← List.append_assoc, ← List.append_assoc]
      exact .again (by rw [collectRound, hnext]) hless (h.finishes_from n _ _ c' (by omega))

/-- A loop whose bound is the number of tokens left ends as it does without a bound. -/
theorem finishes (h : Collects next loop) (c : Cursor) :
    Finishes (·.2.2.left) (collectRound next) ([], [], c) (loop c.left c) :=
  h.finishes_from c.left [] [] c (Nat.le_refl _)

/-- No more errors than tokens that were read. -/
theorem errors_le (h : Collects next loop) : ∀ (n : Nat) (c : Cursor), c.left ≤ n →
    (loop n c).2.1.length + (loop n c).2.2.left ≤ c.left := by
  intro n c hn
  cases hnext : next c with
  | none =>
    rw [h.leave n c hnext]
    exact Nat.le_of_eq (Nat.zero_add _)
  | some r =>
    obtain ⟨found, errors, c'⟩ := r
    have hless := h.less c found errors c' hnext
    match n, hn with
    | 0, hn => exact absurd hn (by omega)
    | n + 1, hn =>
      have hrest := h.errors_le n c' (by omega)
      have herrors := h.errors c found errors c' hnext
      rw [h.again n c found errors c' hnext]
      show (errors ++ (loop n c').2.1).length + (loop n c').2.2.left ≤ c.left
      rw [List.length_append]
      omega

theorem errors_of_run (h : Collects next loop) {c c' : Cursor} {found : List α} {errors : List ParseError}
    (hrun : loop c.left c = (found, errors, c')) : errors.length + c'.left ≤ c.left := by
  have hle := h.errors_le c.left c (Nat.le_refl _)
  rwa [hrun] at hle

end Collects

/-- What a rule reads where it is to read something, or its error, behind which reading goes on at `resume`. -/
def nextOf (goes : Cursor → Bool) (rule : Parse α) (resume : Cursor → Cursor) (c : Cursor) : Option (Found α) :=
  if goes c then
    match rule c with
    | .ok a c' => some ([a], [], c')
    | .error e c' => some ([], [e], resume c')
  else none

variable {goes : Cursor → Bool} {rule : Parse α} {resume : Cursor → Cursor}

theorem nextOf_cases {found : List α} {errors : List ParseError} {c' : Cursor}
    (h : nextOf goes rule resume c = some (found, errors, c')) : goes c = true ∧
      ((∃ a, rule c = .ok a c' ∧ found = [a] ∧ errors = []) ∨
        ∃ e c₁, rule c = .error e c₁ ∧ found = [] ∧ errors = [e] ∧ resume c₁ = c') := by
  unfold nextOf at h
  split at h
  · rename_i hgoes
    refine ⟨hgoes, ?_⟩
    cases hrun : rule c with
    | ok a c₁ =>
      rw [hrun] at h
      cases h
      exact .inl ⟨a, rfl, rfl, rfl⟩
    | error e c₁ =>
      rw [hrun] at h
      cases h
      exact .inr ⟨e, c₁, rfl, rfl, rfl, rfl⟩
  · cases h

theorem goes_of_nextOf (h : nextOf goes rule resume c = none) : goes c = false := by
  unfold nextOf at h
  split at h
  · cases hrun : rule c <;> rw [hrun] at h <;> cases h
  · rename_i hgoes
    exact Bool.eq_false_iff.mpr hgoes

/-- A loop over one rule, if the rule reads a token or recovery does. -/
theorem collects_nextOf {loop : Nat → Cursor → Found α} (hleave : ∀ n c, goes c = false → loop n c = ([], [], c))
    (hok : ∀ n c a c', goes c = true → rule c = .ok a c' →
      loop (n + 1) c = (a :: (loop n c').1, (loop n c').2.1, (loop n c').2.2))
    (herror : ∀ n c e c', goes c = true → rule c = .error e c' →
      loop (n + 1) c = ((loop n (resume c')).1, e :: (loop n (resume c')).2.1, (loop n (resume c')).2.2))
    (hless : ∀ c a c', goes c = true → rule c = .ok a c' → c'.left < c.left)
    (hresume : ∀ c e c', goes c = true → rule c = .error e c' → (resume c').left < c.left) :
    Collects (nextOf goes rule resume) loop where
  leave n c h := hleave n c (goes_of_nextOf h)
  again n c found errors c' h := by
    obtain ⟨hgoes, ⟨a, hrun, rfl, rfl⟩ | ⟨e, c₁, hrun, rfl, rfl, rfl⟩⟩ := nextOf_cases h
    · exact hok n c a c' hgoes hrun
    · exact herror n c e c₁ hgoes hrun
  less c found errors c' h := by
    obtain ⟨hgoes, ⟨a, hrun, rfl, rfl⟩ | ⟨e, c₁, hrun, rfl, rfl, rfl⟩⟩ := nextOf_cases h
    · exact hless c a c' hgoes hrun
    · exact hresume c e c₁ hgoes hrun
  errors c found errors c' h := by
    obtain ⟨hgoes, ⟨a, hrun, rfl, rfl⟩ | ⟨e, c₁, hrun, rfl, rfl, rfl⟩⟩ := nextOf_cases h
    · exact Nat.le_trans (Nat.le_of_eq (Nat.zero_add _)) (Nat.le_of_lt (hless c a c' hgoes hrun))
    · exact Nat.le_trans (Nat.le_of_eq (Nat.add_comm _ _)) (hresume c e c₁ hgoes hrun)

end

/-! ### Directives -/

/-- The next directive, or the error of one that is skipped. -/
def usingNext : Cursor → Option (Found String) :=
  nextOf (fun c => c.current = .keyword .using_) usingDirective Cursor.pastSemicolon

/-- The word `using` is read in any case. -/
theorem left_usingDirective (h : c.current = .keyword .using_) : (final (usingDirective c)).left < c.left := by
  have hrest : Forward (do
      let path ← qualifiedName
      expect (.symbol .semicolon)
      return path : Parse String) := Sited.forward (V := Any) fun n =>
    (sited_qualifiedName (Cursor.site_left n)).bind fun path _ =>
      (sited_expect (Cursor.site_left n) _).bind fun _ _ => sited_any path
  have hword : expect (.keyword .using_) c = .ok () c.advance := by rw [expect_apply, if_pos h]
  have hlt := Cursor.left_advance_lt (Cursor.tokens_ne_nil h nofun)
  unfold usingDirective
  rw [bind_of_ok hword]
  exact Nat.lt_of_le_of_lt (hrest c.advance) hlt

theorem collects_usings : Collects usingNext usings := by
  refine collects_nextOf (fun n c h => ?_) (fun n c path c' h hrun => ?_) (fun n c e c' h hrun => ?_)
    (fun c path c' h hrun => ?_) (fun c e c' h hrun => ?_)
  · cases n with
    | zero => rfl
    | succ n => rw [usings, if_neg (of_decide_eq_false h)]
  · rw [usings, if_pos (of_decide_eq_true h), hrun]
  · rw [usings, if_pos (of_decide_eq_true h), hrun]
  · have hlt := left_usingDirective (of_decide_eq_true h)
    rwa [hrun] at hlt
  · have hlt := left_usingDirective (of_decide_eq_true h)
    rw [hrun] at hlt
    exact Nat.lt_of_le_of_lt c'.left_pastSemicolon_le hlt

/-! ### Members -/

/-- A member comes next. -/
def goesMember (c : Cursor) : Bool := !(c.current = .symbol .rightBrace || c.atEnd)

theorem goesMember_iff : goesMember c = true ↔ c.current ≠ .symbol .rightBrace ∧ c.tokens ≠ [] := by
  simp [goesMember, Cursor.atEnd]

/-- The next member, or the error of one that is skipped. -/
def memberNext : Cursor → Option (Found MemberDecl) := nextOf goesMember member Cursor.memberEnd

/-- A member that is well formed has a name. -/
theorem advances_member : Advances member := by
  have hattributes : Forward attributes := Sited.forward fun n => sited_attributes (Cursor.site_left n)
  have hmodifiers : Forward modifiers := Sited.forward fun n => sited_modifiers (Cursor.site_left n)
  have htype : Forward type := Sited.forward fun n => sited_type (Cursor.site_left n)
  intro c
  refine ends_currentSpan ((hattributes.ends c).bind fun attributes c₁ h₁ => ?_)
  refine (hmodifiers.ends c₁).bind fun modifiers c₂ h₂ => (htype.ends c₂).bind fun type c₃ h₃ => ?_
  refine (advances_identifier c₃).bind fun (name, nameSpan) c₄ h₄ => ?_
  have hrest : Forward (do
      let kind ← memberRest type
      return ⟨name, attributes, modifiers, kind, nameSpan, c.currentSpan.through (← previousSpan)⟩ :
        Parse MemberDecl) := Sited.forward (V := Any) fun n =>
    (sited_memberRest (Cursor.site_left n) type).bind fun kind _ =>
      (sited_previousSpan (Cursor.site_left n)).bind fun stop _ => sited_any _
  exact (hrest.ends c₄).imp fun m c₅ h₅ => by omega

/-- A member that is skipped is not empty: if the rule has read nothing, recovery reads a token. -/
theorem left_memberEnd_of_error (hgoes : goesMember c = true) {e : ParseError} {c' : Cursor}
    (h : member c = .error e c') : c'.memberEnd.left < c.left := by
  obtain ⟨hbrace, hc⟩ := goesMember_iff.mp hgoes
  have hsuffix : c'.tokens <:+ c.tokens := by
    have hrun := sited_member (Cursor.site_suffix c.tokens) c List.suffix_rfl
    rw [h] at hrun
    exact hrun.2
  obtain hlt | heq := Nat.lt_or_eq_of_le hsuffix.length_le
  · exact Nat.lt_of_le_of_lt c'.left_memberEnd_le hlt
  · have htokens : c'.tokens = c.tokens := hsuffix.eq_of_length heq
    have hcurrent : c'.current = c.current := by rw [Cursor.current, htokens, Cursor.current]
    exact Nat.lt_of_lt_of_eq (Cursor.left_memberEnd_lt (htokens ▸ hc) (hcurrent ▸ hbrace)) heq

theorem collects_members : Collects memberNext members := by
  have hgoes {c : Cursor} (h : goesMember c = true) : ¬ (c.current = .symbol .rightBrace || c.atEnd) = true := by
    rw [goesMember, Bool.not_eq_true'] at h
    exact Bool.eq_false_iff.mp h
  refine collects_nextOf (fun n c h => ?_) (fun n c m c' h hrun => ?_) (fun n c e c' h hrun => ?_)
    (fun c m c' h hrun => advances_member c m c' hrun) (fun c e c' h hrun => left_memberEnd_of_error h hrun)
  · cases n with
    | zero => rfl
    | succ n =>
      rw [goesMember, Bool.not_eq_false'] at h
      rw [members, if_pos h]
  · rw [members, if_neg (hgoes h), hrun]
  · rw [members, if_neg (hgoes h), hrun]

/-! ### Classes -/

/-- The next class with the errors in it, or the errors of one that is skipped. -/
def classNext (braced : Bool) (c : Cursor) : Option (Found ClassDecl) :=
  if c.atEnd || (braced && c.current = .symbol .rightBrace) then none
  else
    match classDecl c with
    | (some d, errors, c') => some ([d], errors, c')
    | (none, errors, c') => some ([], errors, c'.classStart)

/-- A header has the word `class`. -/
theorem advances_classHeader : Advances classHeader := by
  intro c header c' hrun
  obtain ⟨part, htokens, hwords⟩ := takes_classHeader c header c' hrun
  have hpart : 0 < part.length := Nat.lt_of_lt_of_le (hwords ▸ Nat.zero_lt_one) List.countP_le_length
  rw [Cursor.left, Cursor.left, htokens, List.length_append]
  omega

/-- A class makes no more errors than it reads tokens; one that is skipped may read one token less. -/
theorem left_classDecl (hc : c.tokens ≠ []) {d : Option ClassDecl} {errors : List ParseError} {c' : Cursor}
    (h : classDecl c = (d, errors, c')) : c'.left ≤ c.left ∧ errors.length + (c'.left - 1) ≤ c.left ∧
      (d.isSome = true → errors.length + c'.left < c.left) := by
  have hpos : 0 < c.left := List.length_pos_iff.mpr hc
  unfold classDecl at h
  cases hheader : classHeader c with
  | error e c₁ =>
    rw [hheader] at h
    cases h
    have hle := forward_error (Sited.forward fun n => sited_classHeader (Cursor.site_left n)) hheader
    refine ⟨hle, ?_, nofun⟩
    rw [List.length_singleton]
    omega
  | ok header c₁ =>
    rw [hheader] at h
    have hlt := advances_classHeader c header c₁ hheader
    rcases hrun : members c₁.tokens.length c₁ with ⟨ms, memberErrors, c₂⟩
    simp only [hrun] at h
    have hmembers : memberErrors.length + c₂.left ≤ c₁.left := collects_members.errors_of_run hrun
    cases hend : expect (.symbol .rightBrace) c₂ with
    | error e c₃ =>
      rw [hend] at h
      cases h
      have hle := forward_error (Sited.forward fun n => sited_expect (Cursor.site_left n) _) hend
      rw [List.length_append, List.length_singleton]
      exact ⟨by omega, by omega, nofun⟩
    | ok u c₃ =>
      rw [hend] at h
      cases h
      have hbrace := advances_expect (t := .symbol .rightBrace) nofun c₂ u c' hend
      exact ⟨by omega, by omega, fun _ => by omega⟩

theorem left_classNext {braced : Bool} {found : List ClassDecl} {errors : List ParseError} {c' : Cursor}
    (h : classNext braced c = some (found, errors, c')) : c'.left < c.left ∧ errors.length + c'.left ≤ c.left := by
  unfold classNext at h
  split at h
  · cases h
  · rename_i hgoes
    rw [Bool.or_eq_true, not_or] at hgoes
    have hc : c.tokens ≠ [] := fun hnil => hgoes.1 (List.isEmpty_iff.mpr hnil)
    have hpos : 0 < c.left := List.length_pos_iff.mpr hc
    rcases hrun : classDecl c with ⟨d | d, classErrors, c₁⟩
    · have hleft := left_classDecl hc hrun
      rw [hrun] at h
      cases h
      have hstart := c₁.left_classStart_le
      exact ⟨by omega, by omega⟩
    · have hleft := left_classDecl hc hrun
      rw [hrun] at h
      cases h
      have hlt := hleft.2.2 rfl
      exact ⟨by omega, by omega⟩

theorem collects_classes (braced : Bool) : Collects (classNext braced) (classes braced) where
  leave n c h := by
    cases n with
    | zero => rfl
    | succ n =>
      unfold classNext at h
      split at h
      · rename_i hend
        rw [classes, if_pos hend]
      · rcases hrun : classDecl c with ⟨d | d, classErrors, c₁⟩ <;> rw [hrun] at h <;> cases h
  again n c found errors c' h := by
    unfold classNext at h
    split at h
    · cases h
    · rename_i hgoes
      rcases hrun : classDecl c with ⟨d | d, classErrors, c₁⟩
      · rw [hrun] at h
        cases h
        rw [classes, if_neg hgoes, hrun]
        rfl
      · rw [hrun] at h
        cases h
        rw [classes, if_neg hgoes, hrun]
        rfl
  less _ _ _ _ h := (left_classNext h).1
  errors _ _ _ _ h := (left_classNext h).2

/-! ### Files -/

/-- The clause of a namespace makes at most one error more than it reads tokens; a brace at its end makes up for
that. -/
theorem left_namespaceClause {name : Option String} {braced : Bool} {errors : List ParseError} {c' : Cursor}
    (h : namespaceClause c = (name, braced, errors, c')) :
    errors.length + c'.left + (if braced then 1 else 0) ≤ c.left + (if braced then 0 else 1) := by
  by_cases hword : c.current = .keyword .namespace_
  · have hlt := Cursor.left_advance_lt (Cursor.tokens_ne_nil hword nofun)
    obtain ⟨n, nameErrors, c₁, hname, hclause⟩ := namespaceClause_eq hword
    obtain ⟨hle, hcount⟩ : c₁.left ≤ c.advance.left ∧ nameErrors.length ≤ 1 := by
      have hforward := forward_qualifiedName c.advance
      obtain ⟨_, hrun, rfl⟩ | ⟨_, hrun, rfl⟩ := hname <;> rw [hrun] at hforward
      · exact ⟨hforward, Nat.zero_le 1⟩
      · exact ⟨hforward, Nat.le_refl 1⟩
    rw [hclause] at h
    split at h
    · rename_i hbrace
      cases h
      have hnext := Cursor.left_advance_lt (Cursor.tokens_ne_nil hbrace nofun)
      simp only [if_true]
      omega
    · rw [expect_apply] at h
      split at h
      · rename_i heq
        split at heq
        · cases heq
          cases h
          have hnext := c₁.left_advance_le
          simp only [Bool.false_eq_true, if_false]
          omega
        · cases heq
      · rename_i heq
        split at heq
        · cases heq
        · cases heq
          cases h
          simp only [Bool.false_eq_true, if_false, List.length_append, List.length_singleton]
          omega
  · unfold namespaceClause at h
    rw [if_neg hword] at h
    cases h
    simp

/-- A file has at most one error more than tokens. -/
theorem errors_file_le (c : Cursor) : (file c).2.length ≤ c.left + 1 := by
  rcases hrun₁ : usings c.tokens.length c with ⟨paths, errors₁, c₁⟩
  rcases hrun₂ : namespaceClause c₁ with ⟨name, braced, errors₂, c₂⟩
  rcases hrun₃ : classes braced c₂.tokens.length c₂ with ⟨ds, errors₃, c₃⟩
  have husings : errors₁.length + c₁.left ≤ c.left := collects_usings.errors_of_run hrun₁
  have hclause := left_namespaceClause hrun₂
  have hclasses : errors₃.length + c₃.left ≤ c₂.left := (collects_classes braced).errors_of_run hrun₃
  unfold file
  simp only [hrun₁, hrun₂, hrun₃, List.length_append]
  cases braced with
  | false =>
    simp only [Bool.false_eq_true, if_false, List.length_nil] at hclause ⊢
    omega
  | true =>
    simp only [if_true] at hclause ⊢
    cases expect (.symbol .rightBrace) c₃ with
    | ok u c₄ =>
      rw [List.length_nil]
      omega
    | error e c₄ =>
      rw [List.length_singleton]
      omega

/-! ### Recovery -/

/-- A round of the search for a token. -/
def seekRound (p : Token → Bool) (c : Cursor) : Cursor ⊕ Cursor :=
  if c.atEnd || p c.current then .inl c else .inr c.advance

/-- A round of the search for the end of a member, with the number of open braces. -/
def memberEndRound : Nat × Cursor → Cursor ⊕ (Nat × Cursor)
  | (depth, c) =>
    if c.atEnd then .inl c
    else if c.current = .symbol .leftBrace then .inr (depth + 1, c.advance)
    else if c.current = .symbol .rightBrace then
      match depth with
      | 0 => .inl c
      | 1 => .inl (if c.advance.current = .symbol .semicolon then c.advance.advance else c.advance)
      | d + 2 => .inr (d + 1, c.advance)
    else if c.current = .symbol .semicolon && depth = 0 then .inl c.advance
    else .inr (depth, c.advance)

theorem finishes_skipTo (p : Token → Bool) (stop : Span) : ∀ (ts : Tokens) (previous : Option Span),
    Finishes Cursor.left (seekRound p) ⟨previous, ts, stop⟩ (Cursor.skipTo p previous stop ts)
  | [], _ => .leave rfl
  | t :: ts, previous => by
    unfold Cursor.skipTo
    split
    · rename_i hp
      exact .leave (if_pos hp)
    · rename_i hp
      exact .again (if_neg hp) (Nat.lt_succ_self ts.length) (finishes_skipTo p stop ts (some t.2))

theorem finishes_seek (p : Token → Bool) (c : Cursor) : Finishes Cursor.left (seekRound p) c (c.seek p) :=
  finishes_skipTo p c.stop c.tokens c.previous

theorem finishes_skipMember (stop : Span) : ∀ (ts : Tokens) (depth : Nat) (previous : Option Span),
    Finishes (·.2.left) memberEndRound (depth, ⟨previous, ts, stop⟩) (Cursor.skipMember previous stop depth ts)
  | [], _, _ => .leave rfl
  | (t, s) :: ts, depth, previous => by
    have hagain {depth' : Nat}
        (h : memberEndRound (depth, ⟨previous, (t, s) :: ts, stop⟩) = .inr (depth', ⟨some s, ts, stop⟩)) :
        Finishes (·.2.left) memberEndRound (depth, ⟨previous, (t, s) :: ts, stop⟩)
          (Cursor.skipMember (some s) stop depth' ts) :=
      .again h (Nat.lt_succ_self ts.length) (finishes_skipMember stop ts depth' (some s))
    unfold Cursor.skipMember
    split
    · rename_i hleft
      exact hagain (if_pos hleft)
    · rename_i hleft
      split
      · rename_i hright
        split
        · exact .leave ((if_neg hleft).trans (if_pos hright))
        · exact .leave ((if_neg hleft).trans (if_pos hright))
        · exact hagain ((if_neg hleft).trans (if_pos hright))
      · rename_i hright
        split
        · rename_i hsemicolon
          exact .leave ((if_neg hleft).trans ((if_neg hright).trans (if_pos hsemicolon)))
        · rename_i hsemicolon
          exact hagain ((if_neg hleft).trans ((if_neg hright).trans (if_neg hsemicolon)))

/-! ### Types -/

/-- Items that are read alike where at most `n` tokens are left make lists that are read alike. -/
theorem separated_congr {α : Type} {x y : Parse α} {n : Nat} (hx : Forward x) (h : ∀ c, c.left ≤ n → x c = y c) :
    ∀ (k : Nat) (c : Cursor), c.left ≤ n → separated x k c = separated y k c
  | 0, c, hc => bind_congr_at (h c hc) fun _ _ _ => rfl
  | k + 1, c, hc => by
    refine bind_congr_at (h c hc) fun a c₁ hrun => bind_congr_at rfl fun b c₂ haccept => ?_
    have h₁ := hx.ends c a c₁ hrun
    have h₂ : c₂.left ≤ c₁.left := by
      obtain ⟨-, -, rfl⟩ | ⟨-, rfl⟩ := accept_cases _ c₁ b c₂ haccept
      · exact c₁.left_advance_le
      · exact Nat.le_refl _
    split
    · exact bind_congr_at (separated_congr hx h k c₂ (by omega)) fun _ _ _ => rfl
    · rfl

theorem forward_typeWithin (n : Nat) : Forward (typeWithin n) :=
  Sited.forward fun k => sited_typeWithin (Cursor.site_left k) n

/-- Types are nested no more deeply than there are tokens. -/
theorem typeWithin_eq : ∀ (n m : Nat) (c : Cursor), c.left ≤ n → c.left ≤ m → typeWithin n c = typeWithin m c
  | 0, 0, _, _, _ => rfl
  | 0, m + 1, c, hn, _ => bind_congr_at rfl fun name c' h => absurd (advances_qualifiedName c name c' h) (by omega)
  | n + 1, 0, c, _, hm => bind_congr_at rfl fun name c' h => absurd (advances_qualifiedName c name c' h) (by omega)
  | n + 1, m + 1, c, hn, hm => by
    refine bind_congr_at rfl fun name c₁ hname => bind_congr_at rfl fun b c₂ haccept => ?_
    have h₁ := advances_qualifiedName c name c₁ hname
    have h₂ : c₂.left ≤ c₁.left := by
      obtain ⟨-, -, rfl⟩ | ⟨-, rfl⟩ := accept_cases _ c₁ b c₂ haccept
      · exact c₁.left_advance_le
      · exact Nat.le_refl _
    split
    · refine bind_congr_at rfl fun k c₃ hk => ?_
      cases hk
      refine bind_congr_at ?_ fun _ _ _ => rfl
      have hitem (c : Cursor) (hc : c.left ≤ min n m) : typeWithin n c = typeWithin m c :=
        typeWithin_eq n m c (by omega) (by omega)
      exact separated_congr (forward_typeWithin n) hitem _ c₂ (by omega)
    · rfl

/-! ### All loops -/

/-- Every loop that reads a file ends: repeated without a bound, its rounds end with what the loop gives here, and each
round that goes on leaves fewer tokens than before. -/
structure LoopsFinish : Prop where
  usings (c : Cursor) : Finishes (·.2.2.left) (collectRound usingNext) ([], [], c) (usings c.left c)
  classes (braced : Bool) (c : Cursor) :
    Finishes (·.2.2.left) (collectRound (classNext braced)) ([], [], c) (classes braced c.left c)
  members (c : Cursor) : Finishes (·.2.2.left) (collectRound memberNext) ([], [], c) (members c.left c)
  /-- Groups of attributes, -/
  attributes (c : Cursor) : Finishes (·.2.left) (roundOf attributesRound) ([], c) (attributes c)
  /-- the attributes of a group, -/
  group (c : Cursor) :
    Finishes (·.2.left) (roundOf (separatedRound attributeItem)) ([], c) (separated attributeItem c.left c)
  /-- and the arguments of an attribute. -/
  attributeArgs (c : Cursor) : Finishes (·.2.left) (roundOf (listedRound (.symbol .rightParen) attributeArg)) ([], c)
    (listedBefore (.symbol .rightParen) attributeArg c.left c)
  modifiers (c : Cursor) : Finishes (·.2.left) (roundOf modifiersRound) ([], c) (modifiers c)
  accessors (c : Cursor) :
    Finishes (·.2.left) (roundOf accessorsRound) ((none, none), c) (accessors c.left none none c)
  accessibility (c : Cursor) : Finishes (·.2.left) (roundOf accessibilityRound) ((), c) (skipAccessibility c.left c)
  params (c : Cursor) : Finishes (·.2.left) (roundOf (listedRound (.symbol .rightParen) param)) ([], c)
    (listedBefore (.symbol .rightParen) param c.left c)
  typeParams (c : Cursor) : Finishes (·.2.left) (roundOf (separatedRound (Prod.fst <$> identifier))) ([], c)
    (separated (Prod.fst <$> identifier) c.left c)
  bases (c : Cursor) : Finishes (·.2.left) (roundOf (separatedRound type)) ([], c) (separated type c.left c)
  typeArgs (n : Nat) (c : Cursor) :
    Finishes (·.2.left) (roundOf (separatedRound (typeWithin n))) ([], c) (separated (typeWithin n) c.left c)
  /-- The bound on the nesting of types decides nothing, either. -/
  types (n : Nat) (c : Cursor) (bound : c.left ≤ n) : typeWithin n c = type c
  names (name : String) (c : Cursor) : Finishes (·.2.left) (roundOf dottedRound) (name, c) (dotted name c.left c)
  operators (depth least : Nat) (left : Expr) (c : Cursor) :
    Finishes (·.2.left) (roundOf (chainRound (expressionWithin depth) least)) (left, c)
      (chain (expressionWithin depth) least c.left left c)
  args (depth : Nat) (c : Cursor) :
    Finishes (·.2.left) (roundOf (listedRound (.symbol .rightParen) (expressionWithin depth 0))) ([], c)
      (listedBefore (.symbol .rightParen) (expressionWithin depth 0) c.left c)
  /-- Recovery looks for a token, -/
  seek (p : Token → Bool) (c : Cursor) : Finishes Cursor.left (seekRound p) c (c.seek p)
  /-- or for the end of a member. -/
  memberEnd (c : Cursor) : Finishes (·.2.left) memberEndRound (0, c) c.memberEnd

theorem loopsFinish : LoopsFinish where
  usings c := collects_usings.finishes c
  classes braced c := (collects_classes braced).finishes c
  members c := collects_members.finishes c
  attributes c := unrolls_attributes.collected c
  group c := (unrolls_separated (Sited.forward fun n => sited_attributeItem (Cursor.site_left n))).collected c
  attributeArgs c := (unrolls_listed (Sited.forward fun n => sited_attributeArg (Cursor.site_left n)) _).collected c
  modifiers c := unrolls_modifiers.collected c
  accessors c := unrolls_accessors.finishes c.left (none, none) c (Nat.le_refl _)
  accessibility c := unrolls_accessibility.finishes c.left () c (Nat.le_refl _)
  params c := (unrolls_listed (Sited.forward fun n => sited_param (Cursor.site_left n)) _).collected c
  typeParams c := by
    refine (unrolls_separated (Sited.forward (V := Any) fun n => ?_)).collected c
    rw [map_eq_pure_bind]
    exact (sited_identifier (Cursor.site_left n)).bind fun name _ => sited_any name.1
  bases c := (unrolls_separated (Sited.forward fun n => sited_type (Cursor.site_left n))).collected c
  typeArgs n c := (unrolls_separated (forward_typeWithin n)).collected c
  types n c bound := typeWithin_eq n c.left c bound (Nat.le_refl _)
  names name c := unrolls_dotted.finishes c.left name c (Nat.le_refl _)
  operators depth least left c := by
    refine (unrolls_chain (fun n k => ?_) least).finishes c.left left c (Nat.le_refl _)
    exact sited_expressionWithin (Cursor.site_left n) depth k
  args depth c :=
    (unrolls_listed (Sited.forward fun n => sited_expressionWithin (Cursor.site_left n) depth 0) _).collected c
  seek p c := finishes_seek p c
  memberEnd c := finishes_skipMember c.stop c.tokens 0 c.previous

/-- Reading a file always ends, whatever its tokens are: so does every loop, and there are at most as many errors as
tokens, the end among them. -/
theorem reading_finishes :
    LoopsFinish ∧ ∀ stream : TokenStream, (file stream.cursor).2.length ≤ stream.withEnd.length := by
  refine ⟨loopsFinish, fun stream => ?_⟩
  have herrors := errors_file_le stream.cursor
  rw [TokenStream.withEnd, List.length_append, List.length_singleton]
  exact herrors

/-- The word `namespace` alone makes two errors, one at each of the two tokens. -/
example : (file ⟨none, [(.keyword .namespace_, ⟨0, 9, 1, 1⟩)], ⟨9, 9, 1, 10⟩⟩).2.length = 2 := by decide

end Parse

end Reactive
