import Mathlib.Tactic.Common
import Reactive.Proofs.Finishing

/-!
# Reactive.Proofs.Recovering — where reading goes on behind a member that is not well formed

Recovery counts braces from the token at which the member failed, not from the start of the member.  So it comes to the
end of the member only where no brace of the member is open and nothing but the end of the member ends what is left.

* `Tail ts following`: what is left of a member ends with a semicolon, or with a group in braces and a semicolon that
  may stand behind it, and has neither before.
* `Cursor.tokens_memberEnd`: recovery goes on behind such a tail.
* `Cursor.tokens_memberEnd_inside`: a brace that closes one that was open before stops recovery.
* `Parse.confined_members`: members around one that fails before such a tail are read as if it were absent, and its
  error is the only one; `Parse.confined_class` says it of the class.
-/

namespace Reactive

open Stateful

/-- The token is a brace. -/
def Token.IsBrace (t : Token) : Prop := t = .symbol .leftBrace ∨ t = .symbol .rightBrace

/-- Tokens without braces and without semicolons. -/
def Flat (ts : Tokens) : Prop := ∀ t ∈ ts, ¬t.1.IsBrace ∧ t.1 ≠ .symbol .semicolon

/-- Tokens in which every brace has its counterpart. -/
inductive Balanced : Tokens → Prop
  | nil : Balanced []
  | other {t : Token × Span} {ts : Tokens} (plain : ¬t.1.IsBrace) (rest : Balanced ts) : Balanced (t :: ts)
  | group {s s' : Span} {inner ts : Tokens} (inside : Balanced inner) (rest : Balanced ts) :
    Balanced ((.symbol .leftBrace, s) :: inner ++ (.symbol .rightBrace, s') :: ts)

/-- What is left of a member, before the tokens `following`. -/
inductive Tail : Tokens → Tokens → Prop
  | semicolon {flat following : Tokens} {s : Span} (isFlat : Flat flat) :
    Tail (flat ++ [(.symbol .semicolon, s)]) following
  | group {flat inner following : Tokens} {s s' : Span} (isFlat : Flat flat) (inside : Balanced inner)
    (ends : following.head?.map Prod.fst ≠ some (.symbol .semicolon)) :
    Tail (flat ++ (.symbol .leftBrace, s) :: inner ++ [(.symbol .rightBrace, s')]) following
  | groupSemicolon {flat inner following : Tokens} {s s' s'' : Span} (isFlat : Flat flat) (inside : Balanced inner) :
    Tail (flat ++ (.symbol .leftBrace, s) :: inner ++ [(.symbol .rightBrace, s'), (.symbol .semicolon, s'')]) following

namespace Cursor

variable {previous : Option Span} {stop : Span} {depth : Nat} {ts : Tokens} {c : Cursor}

/-! ### Steps of recovery -/

theorem skipMember_plain {t : Token × Span} (hbrace : ¬t.1.IsBrace)
    (hsemicolon : t.1 = .symbol .semicolon → depth ≠ 0) :
    skipMember previous stop depth (t :: ts) = skipMember (some t.2) stop depth ts := by
  obtain ⟨t, s⟩ := t
  have hend : ¬(decide (t = .symbol .semicolon) && decide (depth = 0)) = true := by simpa using hsemicolon
  rw [skipMember.eq_def]
  dsimp only
  rw [if_neg fun h => hbrace (.inl h), if_neg fun h => hbrace (.inr h), if_neg hend]

theorem skipMember_open (s : Span) : skipMember previous stop depth ((.symbol .leftBrace, s) :: ts) =
    skipMember (some s) stop (depth + 1) ts := by
  rw [skipMember.eq_def]
  exact if_pos rfl

theorem skipMember_close (s : Span) : skipMember previous stop (depth + 2) ((.symbol .rightBrace, s) :: ts) =
    skipMember (some s) stop (depth + 1) ts := by
  rw [skipMember.eq_def]
  exact (if_neg (by simp)).trans (if_pos rfl)

theorem skipMember_last (s : Span) : skipMember previous stop 1 ((.symbol .rightBrace, s) :: ts) =
    if current ⟨some s, ts, stop⟩ = .symbol .semicolon then advance ⟨some s, ts, stop⟩ else ⟨some s, ts, stop⟩ := by
  rw [skipMember.eq_def]
  exact (if_neg (by simp)).trans (if_pos rfl)

theorem skipMember_outside (s : Span) : skipMember previous stop 0 ((.symbol .rightBrace, s) :: ts) =
    ⟨previous, (.symbol .rightBrace, s) :: ts, stop⟩ := by
  rw [skipMember.eq_def]
  exact (if_neg (by simp)).trans (if_pos rfl)

theorem skipMember_semicolon (s : Span) : skipMember previous stop 0 ((.symbol .semicolon, s) :: ts) =
    ⟨some s, ts, stop⟩ := by
  rw [skipMember.eq_def]
  exact (if_neg (by simp)).trans ((if_neg (by simp)).trans (if_pos rfl))

/-! ### Runs of recovery -/

/-- Outside braces recovery goes over everything that is neither a brace nor a semicolon. -/
theorem skipMember_flat (stop : Span) (depth : Nat) (ts : Tokens) : ∀ {flat : Tokens}, Flat flat → ∀ previous : Option Span, ∃ previous',
    skipMember previous stop depth (flat ++ ts) = skipMember previous' stop depth ts
  | [], _, previous => ⟨previous, rfl⟩
  | t :: flat, hflat, previous => by
    have ht := hflat t List.mem_cons_self
    obtain ⟨previous', h⟩ := skipMember_flat stop depth ts (fun u hu => hflat u (List.mem_cons_of_mem t hu)) (some t.2)
    exact ⟨previous', (skipMember_plain ht.1 fun h => absurd h ht.2).trans h⟩

/-- Between braces it goes over everything in which the braces have their counterparts, semicolons among it. -/
theorem skipMember_balanced (stop : Span) {inner : Tokens} (h : Balanced inner) : ∀ (depth : Nat) (ts : Tokens)
    (previous : Option Span), ∃ previous',
      skipMember previous stop (depth + 1) (inner ++ ts) = skipMember previous' stop (depth + 1) ts := by
  induction h with
  | nil => exact fun depth ts previous => ⟨previous, rfl⟩
  | @other t us plain rest ih =>
    intro depth ts previous
    obtain ⟨previous', hrest⟩ := ih depth ts (some t.2)
    exact ⟨previous', (skipMember_plain plain fun _ => Nat.succ_ne_zero depth).trans hrest⟩
  | @group s s' inner us inside rest ihInside ihRest =>
    intro depth ts previous
    obtain ⟨previous₁, h₁⟩ := ihInside (depth + 1) ((.symbol .rightBrace, s') :: (us ++ ts)) (some s)
    obtain ⟨previous₂, h₂⟩ := ihRest depth ts (some s')
    refine ⟨previous₂, ?_⟩
    rw [List.append_assoc, List.cons_append, List.cons_append, skipMember_open, h₁, skipMember_close, h₂]

/-- A group in braces outside all others. -/
theorem skipMember_group {flat inner : Tokens} {s s' : Span} (hflat : Flat flat) (hinside : Balanced inner)
    (previous : Option Span) :
    skipMember previous stop 0 (flat ++ (.symbol .leftBrace, s) :: inner ++ (.symbol .rightBrace, s') :: ts) =
      if current ⟨some s', ts, stop⟩ = .symbol .semicolon then advance ⟨some s', ts, stop⟩
      else ⟨some s', ts, stop⟩ := by
  obtain ⟨previous₁, h₁⟩ := skipMember_flat stop 0
    ((.symbol .leftBrace, s) :: (inner ++ (.symbol .rightBrace, s') :: ts)) hflat previous
  obtain ⟨previous₂, h₂⟩ := skipMember_balanced stop hinside 0 ((.symbol .rightBrace, s') :: ts) (some s)
  rw [List.append_assoc, List.cons_append, h₁, skipMember_open, h₂, skipMember_last]

/-- Recovery goes on behind the end of the member, if what is left of the member has no other end. -/
theorem tokens_memberEnd {tail following : Tokens} (h : Tail tail following) (hc : c.tokens = tail ++ following) :
    c.memberEnd.tokens = following := by
  unfold memberEnd
  rw [hc]
  cases h with
  | semicolon hflat =>
    rw [List.append_assoc]
    obtain ⟨previous', h₁⟩ := skipMember_flat c.stop 0 _ hflat c.previous
    rw [h₁, List.singleton_append, skipMember_semicolon]
  | group hflat hinside hends =>
    rw [List.append_assoc, List.singleton_append, skipMember_group hflat hinside, if_neg]
    intro hcurrent
    cases following with
    | nil => cases hcurrent
    | cons t ts => exact hends (congrArg some hcurrent)
  | groupSemicolon hflat hinside =>
    rw [List.append_assoc, List.cons_append, List.singleton_append, skipMember_group hflat hinside]
    rfl

/-- A member that fails between its braces: a brace that closes them first stops recovery as if it closed the class. -/
theorem tokens_memberEnd_inside {flat ts : Tokens} {s : Span} (hflat : Flat flat)
    (hc : c.tokens = flat ++ (.symbol .rightBrace, s) :: ts) :
    c.memberEnd.tokens = (.symbol .rightBrace, s) :: ts := by
  obtain ⟨previous', h⟩ := skipMember_flat c.stop 0 ((.symbol .rightBrace, s) :: ts) hflat c.previous
  rw [memberEnd, hc, h, skipMember_outside]

end Cursor

namespace Parse

/-! ### Classes with a member that fails -/

/-- Members that are well formed, one after the other. -/
inductive ReadsMembers : Cursor → List MemberDecl → Cursor → Prop
  | nil {c : Cursor} : ReadsMembers c [] c
  | cons {c c' c'' : Cursor} {m : MemberDecl} {ms : List MemberDecl} (goes : goesMember c = true)
    (first : member c = .ok m c') (rest : ReadsMembers c' ms c'') : ReadsMembers c (m :: ms) c''

/-- The bound on the rounds of a loop decides nothing. -/
theorem Collects.loop_eq {α : Type} {next : Cursor → Option (Found α)} {loop : Nat → Cursor → Found α}
    (h : Collects next loop) : ∀ (n m : Nat) (c : Cursor), c.left ≤ n → c.left ≤ m → loop n c = loop m c := by
  intro n m c hn hm
  cases hnext : next c with
  | none => rw [h.leave n c hnext, h.leave m c hnext]
  | some r =>
    obtain ⟨found, errors, c'⟩ := r
    have hless := h.less c found errors c' hnext
    match n, m, hn, hm with
    | 0, _, hn, _ => exact absurd hn (by omega)
    | _, 0, _, hm => exact absurd hm (by omega)
    | n + 1, m + 1, hn, hm =>
      rw [h.again n c found errors c' hnext, h.again m c found errors c' hnext,
        h.loop_eq n m c' (by omega) (by omega)]

/-- A loop does a round, and then what it does behind it. -/
theorem Collects.loop_again {α : Type} {next : Cursor → Option (Found α)} {loop : Nat → Cursor → Found α}
    (h : Collects next loop) {c c' : Cursor} {found : List α} {errors : List ParseError}
    (hnext : next c = some (found, errors, c')) : loop c.left c =
      (found ++ (loop c'.left c').1, errors ++ (loop c'.left c').2.1, (loop c'.left c').2.2) := by
  have hless := h.less c found errors c' hnext
  rw [h.loop_eq c.left (c.left + 1) c (Nat.le_refl _) (Nat.le_succ _), h.again _ c found errors c' hnext,
    h.loop_eq c.left c'.left c' (Nat.le_of_lt hless) (Nat.le_refl _)]

theorem memberNext_of_ok {c c' : Cursor} {m : MemberDecl} (hgoes : goesMember c = true) (hrun : member c = .ok m c') :
    memberNext c = some ([m], [], c') := by
  rw [memberNext, nextOf, if_pos hgoes, hrun]

theorem memberNext_of_error {c c' : Cursor} {e : ParseError} (hgoes : goesMember c = true)
    (hrun : member c = .error e c') : memberNext c = some ([], [e], c'.memberEnd) := by
  rw [memberNext, nextOf, if_pos hgoes, hrun]

theorem memberNext_of_stop {c : Cursor} (hstop : goesMember c = false) : memberNext c = none := by
  rw [memberNext, nextOf, if_neg (Bool.eq_false_iff.mp hstop)]

/-- Well-formed members come before whatever follows them. -/
theorem ReadsMembers.members_eq {c c' : Cursor} {ms : List MemberDecl} (h : ReadsMembers c ms c') :
    members c.left c = (ms ++ (members c'.left c').1, (members c'.left c').2) := by
  induction h with
  | nil => rfl
  | cons goes first rest ih =>
    rw [collects_members.loop_again (memberNext_of_ok goes first), ih]
    rfl

/-- Members around one that fails are read as if it were absent, and its error is the only one, if it fails where no
brace of it is open and what is left of it ends where it does. -/
theorem confined_members {c c₁ c₂ c₃ : Cursor} {ms ms' : List MemberDecl} {e : ParseError} {tail following : Tokens}
    (before : ReadsMembers c ms c₁) (goes : goesMember c₁ = true) (fails : member c₁ = .error e c₂)
    (isTail : Tail tail following) (rest : c₂.tokens = tail ++ following) (after : ReadsMembers c₂.memberEnd ms' c₃)
    (stops : goesMember c₃ = false) :
    c₂.memberEnd.tokens = following ∧ members c.left c = (ms ++ ms', [e], c₃) := by
  refine ⟨Cursor.tokens_memberEnd isTail rest, ?_⟩
  rw [before.members_eq, collects_members.loop_again (memberNext_of_error goes fails), after.members_eq,
    collects_members.leave c₃.left c₃ (memberNext_of_stop stops)]
  simp

/-- So the class is read without the member that fails. -/
theorem confined_class {c c₀ c₁ c₂ c₃ : Cursor} {header : ClassDecl} {ms ms' : List MemberDecl} {e : ParseError}
    {tail following : Tokens} (head : classHeader c = .ok header c₀) (before : ReadsMembers c₀ ms c₁)
    (goes : goesMember c₁ = true) (fails : member c₁ = .error e c₂) (isTail : Tail tail following)
    (rest : c₂.tokens = tail ++ following) (after : ReadsMembers c₂.memberEnd ms' c₃)
    (closes : c₃.current = .symbol .rightBrace) :
    classDecl c =
      (some { header with members := ms ++ ms', span := header.span.through c₃.advance.previousSpan }, [e],
        c₃.advance) := by
  have hstops : goesMember c₃ = false := by rw [goesMember, closes]; rfl
  have hmembers := (confined_members before goes fails isTail rest after hstops).2
  rw [Cursor.left] at hmembers
  have hbrace : expect (.symbol .rightBrace) c₃ = .ok () c₃.advance := by rw [expect_apply, if_pos closes]
  unfold classDecl
  simp only [head, hmembers, hbrace]

/-- A member that fails between its braces makes three errors: recovery stops behind the first semicolon, and what is
left of the accessors fails as a member of its own and ends the class. -/
example : (match SourceFile.parse "class A \x7b int X \x7b get => ; set; \x7d int Y \x7b get; set; \x7d \x7d" with
    | .error (.parse errors) => errors.length
    | _ => 0) = 3 := by
  decide +kernel

end Parse

end Reactive
