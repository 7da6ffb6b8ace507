import Mathlib.Tactic.Common
import Reactive.Proofs.Rounds

/-!
# Reactive.Proofs.Rereading — a part of an expression reads the same by itself

How an expression is read depends on its tokens and on the one behind them, and on that one only as far as it goes on
with the expression.  So the same tokens are read to the same tree where the text ends behind them, with more room for
nesting, and where weaker operators would have been taken up, too.

* `Parse.Rereads n view x y c`: where `x` ends well at the cursor `c`, it has read at least `n` tokens, and `y` reads
  the same tokens in front of the same token, or in front of the end, with the same view of the result; one lemma for
  each rule of expressions.
* `Parse.Listed item k c as c'`: the loop over arguments without its bound; `Listed.again`: they are read again.
* `Parse.Builds sub least c e c'`: an operand and some of the operators behind it have been read; together with an
  operator that binds too weakly, or none, that is what reading an expression is (`expressionWithin_eq_ok`).
* `Parse.Builds.alone`: what has been built anywhere is what its tokens are read as by themselves.
-/

namespace Reactive

open Stateful

theorem Expr.bareList_eq_map (es : List Expr) : bareList es = es.map bare := by
  induction es with
  | nil => rfl
  | cons e es ih => rw [bareList, List.map_cons, ih]

namespace Parse

variable {α β γ δ : Type} {n m : Nat} {view : α → γ} {x y : Parse α} {c : Cursor} {t : Token}

/-- What stands behind the tokens when they are read again: the same token as before, or the end. -/
def Follows (before again : Token) : Prop := again = before ∨ again = .endOfFile

theorem Follows.ne {before again t : Token} (h : Follows before again) (hbefore : before ≠ t) (ht : t ≠ .endOfFile) :
    again ≠ t := by
  obtain rfl | rfl := h
  · exact hbefore
  · exact ht.symm

/-- In front of the end no operator is taken up. -/
theorem Follows.stops {before again : Token} {least : Nat} (h : Follows before again)
    (hstop : continues least before = false) : continues least again = false := by
  obtain rfl | rfl := h
  · exact hstop
  · rfl

/-- Tokens in front of alike tokens begin alike. -/
theorem Follows.append {before rest : List Token} (h : Follows (headToken before) (headToken rest)) (ts : List Token) :
    Follows (headToken (ts ++ before)) (headToken (ts ++ rest)) := by
  cases ts with
  | nil => exact h
  | cons t ts => exact Or.inl rfl

/-- Where `x` ends well, it has read at least `n` tokens, and `y` reads them again, wherever they stand in front of the
same token or of the end. -/
def Rereads (n : Nat) (view : α → γ) (x y : Parse α) (c : Cursor) : Prop :=
  Stateful.Ends x c fun a c' => ∃ ts : List Token, n ≤ ts.length ∧ c.kinds = ts ++ c'.kinds ∧
    ∀ (d : Cursor) (rest : List Token), d.kinds = ts ++ rest → Follows c'.current (headToken rest) →
      ∃ b d', y d = .ok b d' ∧ view b = view a ∧ d'.kinds = rest

/-! ### One after the other -/

theorem Rereads.mono (h : Rereads n view x y c) (hmn : m ≤ n) : Rereads m view x y c := by
  intro a c' hx
  obtain ⟨ts, hn, hts⟩ := h a c' hx
  exact ⟨ts, hmn.trans hn, hts⟩

theorem rereads_pure {a b : α} (h : view b = view a) : Rereads 0 view (pure a) (pure b) c := by
  rintro _ _ ⟨⟩
  exact ⟨[], Nat.le_refl 0, rfl, fun d rest hd _ => ⟨b, d, rfl, h, hd⟩⟩

theorem Rereads.add {f g : α → Parse β} {view' : β → δ} (hx : Rereads n view x y c)
    (hf : ∀ a b c', view b = view a → Rereads m view' (f a) (g b) c') :
    Rereads (n + m) view' (x >>= f) (y >>= g) c := by
  intro r c'' hrun
  obtain ⟨a, c', hxa, hfa⟩ := bind_eq_ok.mp hrun
  obtain ⟨ts, hn, hts, hagain⟩ := hx a c' hxa
  obtain ⟨us, hm, hus, -⟩ := hf a a c' rfl r c'' hfa
  refine ⟨ts ++ us, ?_, by rw [hts, hus, List.append_assoc], fun d rest hd hfollows => ?_⟩
  · rw [List.length_append]
    omega
  have hbehind : Follows c'.current (headToken (us ++ rest)) := by
    rw [Cursor.current_eq, hus]
    rw [Cursor.current_eq] at hfollows
    exact hfollows.append us
  rw [List.append_assoc] at hd
  obtain ⟨b, d', hyb, hview, hd'⟩ := hagain d (us ++ rest) hd hbehind
  obtain ⟨vs, -, hvs, hagain'⟩ := hf a b c' hview r c'' hfa
  -- Both times the second part of the sequence reads the same tokens.
  obtain rfl : vs = us := List.append_cancel_right (hvs.symm.trans hus)
  obtain ⟨s, d'', hgb, hview', hd''⟩ := hagain' d' rest hd' hfollows
  exact ⟨s, d'', by rw [bind_of_ok hyb, hgb], hview', hd''⟩

/-- How many tokens the first part reads does not matter. -/
theorem Rereads.bind {f g : α → Parse β} {view' : β → δ} (hx : Rereads n view x y c)
    (hf : ∀ a b c', view b = view a → Rereads m view' (f a) (g b) c') : Rereads m view' (x >>= f) (y >>= g) c :=
  (hx.add hf).mono (Nat.le_add_left m n)

/-! ### Single steps -/

section

variable {f g : Unit → Parse α}

theorem rereads_currentSpan {f g : Span → Parse α} (h : ∀ s s', Rereads n view (f s) (g s') c) :
    Rereads n view (currentSpan >>= f) (currentSpan >>= g) c := by
  intro a c' hrun
  obtain ⟨ts, hn, hts, -⟩ := h c.currentSpan c.currentSpan a c' hrun
  refine ⟨ts, hn, hts, fun d rest hd hfollows => ?_⟩
  obtain ⟨us, -, hus, hagain⟩ := h c.currentSpan d.currentSpan a c' hrun
  obtain rfl : us = ts := List.append_cancel_right (hus.symm.trans hts)
  exact hagain d rest hd hfollows

theorem rereads_previousSpan {f g : Span → Parse α} (h : ∀ s s', Rereads n view (f s) (g s') c) :
    Rereads n view (previousSpan >>= f) (previousSpan >>= g) c := by
  intro a c' hrun
  obtain ⟨ts, hn, hts, -⟩ := h c.previousSpan c.previousSpan a c' hrun
  refine ⟨ts, hn, hts, fun d rest hd hfollows => ?_⟩
  obtain ⟨us, -, hus, hagain⟩ := h c.previousSpan d.previousSpan a c' hrun
  obtain rfl : us = ts := List.append_cancel_right (hus.symm.trans hts)
  exact hagain d rest hd hfollows

/-- What is done next depends on a token, which is read then. -/
theorem rereads_current {f g : Token → Parse α} (h : Rereads (n + 1) view (f c.current) (g c.current) c) :
    Rereads (n + 1) view (current >>= f) (current >>= g) c := by
  intro a c' hrun
  obtain ⟨ts, hn, hts, hagain⟩ := h a c' hrun
  refine ⟨ts, hn, hts, fun d rest hd hfollows => ?_⟩
  have hcurrent : d.current = c.current := by
    obtain ⟨t, us, rfl⟩ := List.exists_cons_of_length_pos (Nat.lt_of_lt_of_le (Nat.succ_pos n) hn)
    rw [d.current_of_kinds hd, c.current_of_kinds hts]
  obtain ⟨b, d', hg, hresult⟩ := hagain d rest hd hfollows
  refine ⟨b, d', ?_, hresult⟩
  rw [← hcurrent] at hg
  exact hg

/-- A token is read. -/
theorem rereads_advance (h : c.current = t) (ht : t ≠ .endOfFile) (hf : ∀ c', Rereads n view (f ()) (g ()) c') :
    Rereads (n + 1) view (advance >>= f) (advance >>= g) c := by
  have hadvance : Rereads 1 id advance advance c := by
    rintro _ _ ⟨⟩
    exact ⟨[t], Nat.le_refl 1, c.kinds_of_current h ht, fun d rest hd _ =>
      ⟨(), d.advance, rfl, rfl, d.kinds_advance hd⟩⟩
  exact Nat.add_comm n 1 ▸ hadvance.add fun _ _ c' _ => hf c'

theorem rereads_expect (ht : t ≠ .endOfFile) (hf : ∀ c', Rereads n view (f ()) (g ()) c') :
    Rereads (n + 1) view (expect t >>= f) (expect t >>= g) c := by
  have hexpect : Rereads 1 id (expect t) (expect t) c := by
    intro _ c' hrun
    refine ⟨[t], Nat.le_refl 1, ends_expect ht c () c' hrun, fun d rest hd _ => ⟨(), d.advance, ?_, rfl,
      d.kinds_advance hd⟩⟩
    rw [expect_apply, if_pos (d.current_of_kinds hd)]
  exact Nat.add_comm n 1 ▸ hexpect.add fun _ _ c' _ => hf c'

theorem rereads_identifier {f g : String × Span → Parse α}
    (hf : ∀ name s s' c', Rereads n view (f (name, s)) (g (name, s')) c') :
    Rereads (n + 1) view (identifier >>= f) (identifier >>= g) c := by
  have hidentifier : Rereads 1 Prod.fst identifier identifier c := by
    refine rereads_currentSpan fun s s' => rereads_current ?_
    cases h : c.current with
    | identifier name => exact rereads_advance h nofun fun c' => rereads_pure rfl
    | _ => exact nofun
  refine Nat.add_comm n 1 ▸ hidentifier.add fun ⟨name, s⟩ ⟨name', s'⟩ c' hname => ?_
  obtain rfl : name' = name := hname
  exact hf name' s s' c'

/-- A token that may stand there. -/
theorem rereads_accept {f g : Bool → Parse α} (ht : t ≠ .endOfFile) (hf : ∀ b c', Rereads n view (f b) (g b) c') :
    Rereads n view (accept t >>= f) (accept t >>= g) c := by
  have haccept : Rereads 0 id (accept t) (accept t) c := by
    intro b c' hrun
    rw [accept_apply] at hrun
    split at hrun
    · rename_i hcurrent
      cases hrun
      refine ⟨[t], Nat.zero_le 1, c.kinds_of_current hcurrent ht, fun d rest hd _ => ⟨true, d.advance, ?_, rfl,
        d.kinds_advance hd⟩⟩
      rw [accept_apply, if_pos (d.current_of_kinds hd)]
    · rename_i hcurrent
      cases hrun
      refine ⟨[], Nat.le_refl 0, rfl, fun d rest hd hfollows => ⟨false, d, ?_, rfl, hd⟩⟩
      rw [accept_apply, if_neg]
      rw [d.current_eq, hd]
      exact hfollows.ne hcurrent ht
  exact haccept.bind fun b b' c' hb => by
    obtain rfl : b' = b := hb
    exact hf b' c'

/-- Whether an arrow stands behind the next token. -/
theorem rereads_peek {x' y' : Parse α} (h : c.peek = .symbol .arrow → Rereads 2 view x y c)
    (h' : c.peek ≠ .symbol .arrow → Rereads 1 view x' y' c) :
    Rereads 1 view (get >>= fun s => if s.peek = .symbol .arrow then x else x')
      (get >>= fun s => if s.peek = .symbol .arrow then y else y') c := by
  intro a c' hrun
  rw [get_bind] at hrun
  by_cases hpeek : c.peek = .symbol .arrow
  · rw [if_pos hpeek] at hrun
    obtain ⟨ts, hn, hts, hagain⟩ := h hpeek a c' hrun
    refine ⟨ts, Nat.le_of_succ_le hn, hts, fun d rest hd hfollows => ?_⟩
    -- The arrow is among the tokens.
    match ts, hn with
    | t :: u :: us, _ =>
      rw [get_bind, if_pos]
      · exact hagain d rest hd hfollows
      · rw [d.peek_of_kinds hd, ← hpeek, c.peek_of_kinds hts]
        rfl
  · rw [if_neg hpeek] at hrun
    obtain ⟨ts, hn, hts, hagain⟩ := h' hpeek a c' hrun
    refine ⟨ts, hn, hts, fun d rest hd hfollows => ?_⟩
    match ts, hn with
    | t :: us, _ =>
      rw [get_bind, if_neg]
      · exact hagain d rest hd hfollows
      · rw [Cursor.current_eq] at hfollows
        rw [d.peek_of_kinds hd]
        rw [c.peek_of_kinds hts] at hpeek
        exact (hfollows.append us).ne hpeek nofun

end

/-! ### Rules -/

variable {sub sub' : Nat → Parse Expr}

theorem rereads_atom {build : Span → Expr} (h : c.current = t) (ht : t ≠ .endOfFile)
    (hbuild : ∀ s s', (build s').bare = (build s).bare) : Rereads 1 Expr.bare (atom build) (atom build) c :=
  rereads_currentSpan fun s s' => rereads_advance h ht fun _ => rereads_pure (hbuild s s')

section

variable (hsub : ∀ least c, Rereads 0 Expr.bare (sub least) (sub' least) c)

include hsub

theorem rereads_lambda : Rereads 2 Expr.bare (lambda sub) (lambda sub') c := by
  refine rereads_currentSpan fun s s' => rereads_accept nofun fun isStatic _ => rereads_identifier fun name _ _ _ => ?_
  refine rereads_expect nofun fun _ => (hsub 0 _).bind fun body body' _ hbody => rereads_pure ?_
  rw [Expr.bare, Expr.bare, hbody]

theorem rereads_unary (op : UnaryOp) (h : c.current = t) (ht : t ≠ .endOfFile) (s s' : Span) :
    Rereads 1 Expr.bare (advance >>= fun _ => sub 9 >>= fun e => pure (Expr.unary op e (s.through e.span)))
      (advance >>= fun _ => sub' 9 >>= fun e => pure (Expr.unary op e (s'.through e.span))) c := by
  refine rereads_advance h ht fun _ => (hsub 9 _).bind fun e e' _ he => rereads_pure ?_
  rw [Expr.bare, Expr.bare, he]

theorem rereads_group (h : c.current = t) (ht : t ≠ .endOfFile) (s s' : Span) :
    Rereads 1 Expr.bare
      (advance >>= fun _ => sub 0 >>= fun inner => expect (.symbol .rightParen) >>= fun _ =>
        previousSpan >>= fun stop => pure (inner.withSpan (s.through stop)))
      (advance >>= fun _ => sub' 0 >>= fun inner => expect (.symbol .rightParen) >>= fun _ =>
        previousSpan >>= fun stop => pure (inner.withSpan (s'.through stop))) c := by
  refine rereads_advance h ht fun _ => (hsub 0 _).bind fun e e' _ he => ?_
  refine Rereads.mono (rereads_expect (t := .symbol .rightParen) (n := 0) nofun fun _ => ?_) (Nat.zero_le 1)
  refine rereads_previousSpan fun s s' => rereads_pure ?_
  rw [Expr.bare_withSpan, Expr.bare_withSpan, he]

theorem rereads_operand : Rereads 1 Expr.bare (operand sub) (operand sub') c := by
  refine rereads_currentSpan fun s s' => rereads_current ?_
  cases h : c.current with
  | integer v => exact rereads_atom h nofun fun _ _ => rfl
  | float v => exact rereads_atom h nofun fun _ _ => rfl
  | string v => exact rereads_atom h nofun fun _ _ => rfl
  | identifier name =>
    exact rereads_peek (fun _ => rereads_lambda hsub) fun _ => rereads_atom h nofun fun _ _ => rfl
  | keyword k =>
    cases k with
    | true_ | false_ | null | this => exact rereads_atom h nofun fun _ _ => rfl
    | static => exact (rereads_lambda hsub).mono (by omega)
    | _ => exact nofun
  | symbol y =>
    cases y with
    | bang => exact rereads_unary hsub .not h nofun s s'
    | minus => exact rereads_unary hsub .negate h nofun s s'
    | leftParen => exact rereads_group hsub h nofun s s'
    | _ => exact nofun
  | endOfFile => exact nofun

end

/-! ### Arguments -/

/-- Items have been read up to a closing parenthesis, with so many commas between them and perhaps behind the last
one. -/
inductive Listed (item : Parse α) : Nat → Cursor → List α → Cursor → Prop
  | closed {c : Cursor} (hclosed : c.current = .symbol .rightParen) : Listed item 0 c [] c
  | last {c c' : Cursor} {a : α} (hopen : c.current ≠ .symbol .rightParen) (hitem : item c = .ok a c')
    (hclosed : c'.current = .symbol .rightParen) : Listed item 0 c [a] c'
  | more {k : Nat} {c c₁ c' : Cursor} {a : α} {as : List α} (hopen : c.current ≠ .symbol .rightParen)
    (hitem : item c = .ok a c₁) (hcomma : c₁.current = .symbol .comma) (hrest : Listed item k c₁.advance as c') :
    Listed item (k + 1) c (a :: as) c'

section

variable {item item' : Parse α}

theorem Listed.current {k : Nat} {c c' : Cursor} {as : List α} (h : Listed item k c as c') :
    c'.current = .symbol .rightParen := by
  induction h with
  | closed hclosed => exact hclosed
  | last _ _ hclosed => exact hclosed
  | more _ _ _ _ ih => exact ih

theorem listedBefore_of_closed (hclosed : c.current = .symbol .rightParen) (k : Nat) :
    listedBefore (.symbol .rightParen) item k c = .ok [] c := by
  have hcheck : check (.symbol .rightParen) c = .ok true c := by
    rw [check_apply, decide_eq_true hclosed]
  cases k <;>
  · unfold listedBefore
    rw [bind_of_ok hcheck]
    rfl

theorem accept_bind_apply (t : Token) (f : Bool → Parse β) (c : Cursor) :
    (accept t >>= f) c = if c.current = t then f true c.advance else f false c := by
  rw [bind_apply, accept_apply]
  by_cases h : c.current = t
  · rw [if_pos h, if_pos h]
  · rw [if_neg h, if_neg h]

/-- What is done behind an item of the list. -/
def listedBehind (item : Parse α) (a : α) : Nat → Parse (List α)
  | 0 => pure [a]
  | k + 1 => accept (.symbol .comma) >>= fun more =>
      if more then listedBefore (.symbol .rightParen) item k >>= fun as => pure (a :: as) else pure [a]

theorem listedBefore_of_open (hopen : c.current ≠ .symbol .rightParen) (k : Nat) :
    listedBefore (.symbol .rightParen) item k c = (item >>= fun a => listedBehind item a k) c := by
  have hcheck : check (.symbol .rightParen) c = .ok false c := by
    rw [check_apply, decide_eq_false hopen]
  cases k <;>
  · unfold listedBefore
    rw [bind_of_ok hcheck]
    rfl

theorem listedBehind_of_comma {a : α} (hcomma : c.current = .symbol .comma) (k : Nat) :
    listedBehind item a (k + 1) c =
      (listedBefore (.symbol .rightParen) item k >>= fun as => pure (a :: as)) c.advance := by
  rw [listedBehind, accept_bind_apply, if_pos hcomma]
  rfl

theorem listedBehind_of_ne {a : α} (hcomma : c.current ≠ .symbol .comma) (k : Nat) :
    listedBehind item a k c = .ok [a] c := by
  cases k with
  | zero => rfl
  | succ k =>
    rw [listedBehind, accept_bind_apply, if_neg hcomma]
    rfl

theorem listed_of_run : ∀ {k : Nat} {c c' : Cursor} {as : List α},
    listedBefore (.symbol .rightParen) item k c = .ok as c' → c'.current = .symbol .rightParen →
      ∃ commas, Listed item commas c as c'
  | k, c, c', as, hrun, hclosed => by
    by_cases hopen : c.current = .symbol .rightParen
    · rw [listedBefore_of_closed hopen] at hrun
      cases hrun
      exact ⟨0, .closed hopen⟩
    rw [listedBefore_of_open hopen] at hrun
    obtain ⟨a, c₁, hitem, hrun⟩ := bind_eq_ok.mp hrun
    by_cases hcomma : c₁.current = .symbol .comma
    · cases k with
      | zero =>
        cases hrun
        exact ⟨0, .last hopen hitem hclosed⟩
      | succ k =>
        rw [listedBehind_of_comma hcomma] at hrun
        obtain ⟨as, c₂, hrest, hrun⟩ := bind_eq_ok.mp hrun
        cases hrun
        obtain ⟨commas, hlisted⟩ := listed_of_run hrest hclosed
        exact ⟨commas + 1, .more hopen hitem hcomma hlisted⟩
    · rw [listedBehind_of_ne hcomma] at hrun
      cases hrun
      exact ⟨0, .last hopen hitem hclosed⟩

/-- As many rounds are needed as there are commas. -/
theorem Listed.run {k : Nat} {c c' : Cursor} {as : List α} (h : Listed item k c as c') :
    ∀ {m : Nat}, k ≤ m → listedBefore (.symbol .rightParen) item m c = .ok as c' := by
  induction h with
  | closed hclosed => exact fun _ => listedBefore_of_closed hclosed _
  | last hopen hitem hclosed =>
    intro m _
    rw [listedBefore_of_open hopen, bind_of_ok hitem]
    exact listedBehind_of_ne (by rw [hclosed]; nofun) m
  | more hopen hitem hcomma hrest ih =>
    intro m hm
    obtain ⟨m, rfl⟩ := Nat.exists_eq_add_one_of_ne_zero (Nat.ne_zero_of_lt hm)
    rw [listedBefore_of_open hopen, bind_of_ok hitem, listedBehind_of_comma hcomma]
    exact bind_of_ok (ih (Nat.le_of_succ_le_succ hm))

/-- Tokens that do not begin like what stands behind them do so nowhere. -/
theorem current_ne_of_append {c' d : Cursor} {ts rest : List Token} (h : c.current ≠ t) (hc' : c'.current = t)
    (hts : c.kinds = ts ++ c'.kinds) (hd : d.kinds = ts ++ rest) : d.current ≠ t := by
  cases ts with
  | nil =>
    rw [c.current_eq, hts] at h
    exact absurd (c'.current_eq ▸ hc') h
  | cons u us =>
    rw [d.current_of_kinds hd, ← c.current_of_kinds hts]
    exact h

/-- The same items are listed again in front of a closing parenthesis. -/
theorem Listed.again (hitem : ∀ c, Rereads 0 view item item' c) {k : Nat} {c c' : Cursor} {as : List α}
    (h : Listed item k c as c') : ∃ ts : List Token, k ≤ ts.length ∧ c.kinds = ts ++ c'.kinds ∧
      ∀ (d : Cursor) (rest : List Token), d.kinds = ts ++ rest → headToken rest = .symbol .rightParen →
        ∃ bs d', Listed item' k d bs d' ∧ bs.map view = as.map view ∧ d'.kinds = rest := by
  induction h with
  | closed hclosed =>
    refine ⟨[], Nat.le_refl 0, rfl, fun d rest hd hrest => ⟨[], d, .closed ?_, rfl, hd⟩⟩
    rw [d.current_eq, hd]
    exact hrest
  | last hopen hrun hclosed =>
    obtain ⟨ts, -, hts, hagain⟩ := hitem _ _ _ hrun
    refine ⟨ts, Nat.zero_le _, hts, fun d rest hd hrest => ?_⟩
    obtain ⟨b, d', hb, hview, hd'⟩ := hagain d rest hd (Or.inl (hrest.trans hclosed.symm))
    refine ⟨[b], d', .last (current_ne_of_append hopen hclosed hts hd) hb ?_, by simp only [List.map, hview], hd'⟩
    rw [d'.current_eq, hd']
    exact hrest
  | @more k c c₁ c' a as hopen hrun hcomma hlisted ih =>
    obtain ⟨ts, -, hts, hagain⟩ := hitem _ _ _ hrun
    obtain ⟨us, hk, hus, hrest⟩ := ih
    have hall : c.kinds = ts ++ .symbol .comma :: us ++ c'.kinds := by
      rw [hts, Cursor.kinds_of_current hcomma nofun, hus, List.append_assoc, List.cons_append]
    refine ⟨ts ++ .symbol .comma :: us, ?_, hall, fun d rest hd hclosed => ?_⟩
    · rw [List.length_append, List.length_cons]
      omega
    obtain ⟨b, d₁, hb, hview, hd₁⟩ := hagain d (.symbol .comma :: (us ++ rest))
      (by rw [hd, List.append_assoc, List.cons_append]) (Or.inl hcomma.symm)
    obtain ⟨bs, d', hbs, hviews, hd'⟩ := hrest d₁.advance rest (d₁.kinds_advance hd₁) hclosed
    exact ⟨b :: bs, d', .more (current_ne_of_append hopen hlisted.current hall hd) hb (d₁.current_of_kinds hd₁) hbs,
      by rw [List.map_cons, List.map_cons, hview, hviews], hd'⟩

/-- Arguments with their closing parenthesis. -/
abbrev listed (item : Parse α) : Parse (List α) := remaining >>= fun k =>
  listedBefore (.symbol .rightParen) item k >>= fun as => expect (.symbol .rightParen) >>= fun _ => pure as

theorem bind_listed (item : Parse α) (f : List α → Parse β) : (remaining >>= fun k =>
    listedBefore (.symbol .rightParen) item k >>= fun as => expect (.symbol .rightParen) >>= fun _ => f as) =
      listed item >>= f := by
  simp only [listed, bind_assoc, pure_bind]

theorem listed_eq_ok {c' : Cursor} {as : List α} (h : listed item c = .ok as c') :
    ∃ k c₁, Listed item k c as c₁ ∧ c' = c₁.advance := by
  obtain ⟨as, c₁, hlisted, hrest⟩ := bind_eq_ok.mp
    (show (listedBefore (.symbol .rightParen) item c.tokens.length >>= _) c = _ from h)
  rw [bind_apply, expect_apply] at hrest
  by_cases hclosed : c₁.current = .symbol .rightParen
  · rw [if_pos hclosed] at hrest
    cases hrest
    obtain ⟨k, hlisted⟩ := listed_of_run hlisted hclosed
    exact ⟨k, c₁, hlisted, rfl⟩
  · rw [if_neg hclosed] at hrest
    cases hrest

theorem rereads_listed (hitem : ∀ c, Rereads 0 view item item' c) (c : Cursor) :
    Rereads 1 (List.map view) (listed item) (listed item') c := by
  intro as c' hrun
  obtain ⟨k, c₁, hlisted, rfl⟩ := listed_eq_ok hrun
  obtain ⟨ts, hk, hts, hagain⟩ := hlisted.again hitem
  refine ⟨ts ++ [.symbol .rightParen], ?_, ?_, fun d rest hd _ => ?_⟩
  · rw [List.length_append]
    exact Nat.le_add_left _ _
  · rw [hts, Cursor.kinds_of_current hlisted.current nofun, List.append_assoc, List.singleton_append]
  rw [List.append_assoc, List.singleton_append] at hd
  obtain ⟨bs, d₁, hbs, hview, hd₁⟩ := hagain d (.symbol .rightParen :: rest) hd rfl
  refine ⟨bs, d₁.advance, ?_, hview, d₁.kinds_advance hd₁⟩
  have hfuel : k ≤ d.tokens.length := by
    rw [← d.length_kinds, hd, List.length_append]
    exact hk.trans (Nat.le_add_right _ _)
  show (listedBefore (.symbol .rightParen) item' d.tokens.length >>= _) d = _
  rw [bind_of_ok (hbs.run hfuel), bind_apply, expect_apply, if_pos (d₁.current_of_kinds hd₁)]
  rfl

end

/-! ### Operators and their operands -/

section

variable (hsub : ∀ least c, Rereads 0 Expr.bare (sub least) (sub' least) c) {left left' : Expr}
  (hleft : left'.bare = left.bare)

include hleft

theorem rereads_member (h : c.current = t) (ht : t ≠ .endOfFile) :
    let member (left : Expr) : Parse Expr := advance >>= fun _ => identifier >>= fun name =>
      pure (Expr.member left name.1 (left.span.through name.2))
    Rereads 1 Expr.bare (member left) (member left') c := by
  refine Rereads.mono (rereads_advance h ht fun c' => rereads_identifier (n := 0) fun name s s' _ => rereads_pure ?_)
    (Nat.le_succ 1)
  rw [Expr.bare, Expr.bare, hleft]

include hsub

theorem rereads_call (h : c.current = t) (ht : t ≠ .endOfFile) :
    let call (sub : Nat → Parse Expr) (left : Expr) : Parse Expr := advance >>= fun _ => remaining >>= fun n =>
      listedBefore (.symbol .rightParen) (sub 0) n >>= fun args => expect (.symbol .rightParen) >>= fun _ =>
        previousSpan >>= fun stop => pure (Expr.call left args (left.span.through stop))
    Rereads 1 Expr.bare (call sub left) (call sub' left') c := by
  refine rereads_advance h ht fun c' => ?_
  rw [bind_listed, bind_listed]
  refine (rereads_listed (hsub 0) c').bind fun args args' _ hargs => rereads_previousSpan fun s s' => rereads_pure ?_
  rw [Expr.bare, Expr.bare, hleft, Expr.bareList_eq_map, Expr.bareList_eq_map, hargs]

theorem rereads_conditional (h : c.current = t) (ht : t ≠ .endOfFile) :
    let conditional (sub : Nat → Parse Expr) (left : Expr) : Parse Expr := advance >>= fun _ =>
      sub 0 >>= fun thenBranch => expect (.symbol .colon) >>= fun _ => sub 0 >>= fun elseBranch =>
        pure (Expr.conditional left thenBranch elseBranch (left.span.through elseBranch.span))
    Rereads 1 Expr.bare (conditional sub left) (conditional sub' left') c := by
  refine rereads_advance h ht fun c₁ => (hsub 0 c₁).bind fun thenBranch thenBranch' c₂ hthen => ?_
  refine Rereads.mono (rereads_expect (t := .symbol .colon) (n := 0) nofun fun c₃ => ?_) (Nat.zero_le 1)
  refine (hsub 0 c₃).bind fun elseBranch elseBranch' _ helse => rereads_pure ?_
  rw [Expr.bare, Expr.bare, hleft, hthen, helse]

theorem rereads_binary (op : BinaryOp) (h : c.current = t) (ht : t ≠ .endOfFile) :
    let binary (sub : Nat → Parse Expr) (left : Expr) : Parse Expr := advance >>= fun _ =>
      sub op.precedence >>= fun right => pure (Expr.binary op left right (left.span.through right.span))
    Rereads 1 Expr.bare (binary sub left) (binary sub' left') c := by
  refine rereads_advance h ht fun c₁ => (hsub op.precedence c₁).bind fun right right' _ hright => rereads_pure ?_
  rw [Expr.bare, Expr.bare, hleft, hright]

theorem rereads_extend (h : strength c.current ≠ 0) : Rereads 1 Expr.bare (extend sub left) (extend sub' left') c := by
  refine rereads_current ?_
  obtain hcurrent | hcurrent | hcurrent | ⟨op, hcurrent⟩ := operator_cases h
  · rw [hcurrent]
    exact rereads_member hleft hcurrent nofun
  · rw [hcurrent]
    exact rereads_call hsub hleft hcurrent nofun
  · rw [hcurrent]
    exact rereads_conditional hsub hleft hcurrent nofun
  · rw [hcurrent]
    have hbinary := rereads_binary hsub hleft op hcurrent nofun
    cases op <;> exact hbinary

end

/-! ### Whole expressions -/

/-- An operand has been read, and behind it some of the operators that bind more strongly than `least`, with their
further operands. -/
inductive Builds (sub : Nat → Parse Expr) (least : Nat) (c : Cursor) : Expr → Cursor → Prop
  | operand {e : Expr} {c' : Cursor} (h : operand sub c = .ok e c') : Builds sub least c e c'
  | extend {left e : Expr} {c₁ c' : Cursor} (hleft : Builds sub least c left c₁)
    (hgoes : continues least c₁.current = true) (h : extend sub left c₁ = .ok e c') : Builds sub least c e c'

variable {least least' : Nat} {e : Expr} {c' : Cursor}

/-- What has been built is built again, where weaker operators may be taken up, too. -/
theorem Builds.again (hsub : ∀ least c, Rereads 0 Expr.bare (sub least) (sub' least) c) (hle : least' ≤ least)
    (h : Builds sub least c e c') : ∃ ts : List Token, 1 ≤ ts.length ∧ c.kinds = ts ++ c'.kinds ∧
      ∀ (d : Cursor) (rest : List Token), d.kinds = ts ++ rest → Follows c'.current (headToken rest) →
        ∃ e' d', Builds sub' least' d e' d' ∧ e'.bare = e.bare ∧ d'.kinds = rest := by
  induction h with
  | operand hrun =>
    obtain ⟨ts, hn, hts, hagain⟩ := rereads_operand hsub _ _ hrun
    refine ⟨ts, hn, hts, fun d rest hd hfollows => ?_⟩
    obtain ⟨e', d', he', hbare, hd'⟩ := hagain d rest hd hfollows
    exact ⟨e', d', .operand he', hbare, hd'⟩
  | @extend left e c₁ c' hleft hgoes hrun ih =>
    obtain ⟨ts, hn, hts, hagain⟩ := ih
    have hoperator := (continues_iff.mp hgoes).1
    obtain ⟨us, hm, hus, -⟩ := rereads_extend hsub rfl hoperator _ _ hrun
    refine ⟨ts ++ us, ?_, by rw [hts, hus, List.append_assoc], fun d rest hd hfollows => ?_⟩
    · rw [List.length_append]
      omega
    obtain ⟨u, us, rfl⟩ := List.exists_cons_of_length_pos hm
    rw [List.append_assoc] at hd
    have hu : c₁.current = u := c₁.current_of_kinds hus
    obtain ⟨left', d₁, hbuilds, hbare, hd₁⟩ := hagain d (u :: us ++ rest) hd (Or.inl hu.symm)
    obtain ⟨vs, -, hvs, hextend⟩ := rereads_extend hsub hbare hoperator _ _ hrun
    obtain rfl : vs = u :: us := List.append_cancel_right (hvs.symm.trans hus)
    obtain ⟨e', d', he', hbare', hd'⟩ := hextend d₁ rest hd₁ hfollows
    refine ⟨e', d', .extend hbuilds ?_ he', hbare', hd'⟩
    rw [d₁.current_of_kinds hd₁, ← hu]
    exact continues_mono hgoes hle

theorem builds_of_chain : ∀ {n : Nat} {left : Expr} {c₁ : Cursor}, Builds sub least c left c₁ →
    chain sub least n left c₁ = .ok e c' → Builds sub least c e c'
  | 0, _, _, hleft, hrun => by
    cases hrun
    exact hleft
  | n + 1, left, c₁, hleft, hrun => by
    have hrun : (if continues least c₁.current then extend sub left >>= fun e => chain sub least n e
        else pure left : Parse Expr) c₁ = .ok e c' := hrun
    split at hrun
    · rename_i hgoes
      obtain ⟨e₁, c₂, hextend, hrun⟩ := bind_eq_ok.mp hrun
      exact builds_of_chain (.extend hleft hgoes hextend) hrun
    · cases hrun
      exact hleft

/-- What is left of the loop over operators, where some of them have been taken up. -/
theorem Builds.expressionWithin_eq {k : Nat} (h : Builds (expressionWithin k) least c e c') :
    ∃ n, c'.left ≤ n ∧ expressionWithin (k + 1) least c = chain (expressionWithin k) least n e c' := by
  induction h with
  | @operand e c' hrun => exact ⟨c'.left, Nat.le_refl _, bind_of_ok hrun⟩
  | @extend left e c₁ c' hleft hgoes hrun ih =>
    obtain ⟨n, hn, heq⟩ := ih
    have hless : c'.left < c₁.left :=
      less_extend (fun n => sited_expressionWithin (Cursor.site_left n) k) (continues_iff.mp hgoes).1 e c' hrun
    obtain ⟨n, rfl⟩ := Nat.exists_eq_add_one_of_ne_zero (Nat.ne_zero_of_lt (Nat.lt_of_lt_of_le hless hn))
    refine ⟨n, Nat.le_of_lt_succ (Nat.lt_of_lt_of_le hless hn), heq.trans ?_⟩
    show (if continues least c₁.current then Parse.extend (expressionWithin k) left >>= fun e =>
        chain (expressionWithin k) least n e else pure left : Parse Expr) c₁ = _
    rw [if_pos hgoes]
    exact bind_of_ok hrun

/-- Reading an expression is building one up to an operator that binds too weakly. -/
theorem expressionWithin_eq_ok {k : Nat} : expressionWithin (k + 1) least c = .ok e c' ↔
    Builds (expressionWithin k) least c e c' ∧ continues least c'.current = false := by
  constructor
  · intro h
    obtain ⟨-, -, -, hstop⟩ := writes_expressionWithin (k + 1) least c e c' h
    obtain ⟨left, c₁, hoperand, hchain⟩ := bind_eq_ok.mp h
    exact ⟨builds_of_chain (n := c₁.tokens.length) (.operand hoperand) hchain, hstop⟩
  · rintro ⟨hbuilds, hstop⟩
    obtain ⟨n, -, heq⟩ := hbuilds.expressionWithin_eq
    rw [heq]
    cases n with
    | zero => rfl
    | succ n =>
      show (if continues least c'.current then extend (expressionWithin k) e >>= fun e =>
        chain (expressionWithin k) least n e else pure e : Parse Expr) c' = _
      rw [hstop]
      rfl

/-- With as much room for nesting, an expression is read again. -/
theorem rereads_expressionWithin : ∀ {k k' : Nat}, k ≤ k' → ∀ least c,
    Rereads 0 Expr.bare (expressionWithin k least) (expressionWithin k' least) c
  | 0, _, _, _, _ => nofun
  | k + 1, k' + 1, hle, least, c => by
    intro e c' hrun
    obtain ⟨hbuilds, hstop⟩ := expressionWithin_eq_ok.mp hrun
    obtain ⟨ts, -, hts, hagain⟩ :=
      hbuilds.again (rereads_expressionWithin (Nat.le_of_succ_le_succ hle)) (Nat.le_refl least)
    refine ⟨ts, Nat.zero_le _, hts, fun d rest hd hfollows => ?_⟩
    obtain ⟨e', d', hbuilds', hbare, hd'⟩ := hagain d rest hd hfollows
    refine ⟨e', d', expressionWithin_eq_ok.mpr ⟨hbuilds', ?_⟩, hbare, hd'⟩
    rw [d'.current_eq, hd']
    exact hfollows.stops hstop

/-- Where a text has the tokens of what has been built and no others, they are read as the same expression. -/
theorem Builds.alone {k : Nat} (h : Builds (expressionWithin k) least c e c') (hk : k < maxDepth) :
    ∃ ts : List Token, 1 ≤ ts.length ∧ c.kinds = ts ++ c'.kinds ∧ ∀ d : Cursor, d.kinds = ts →
      ∃ e' d', expression d = .ok e' d' ∧ e'.bare = e.bare ∧ d'.kinds = [] := by
  obtain ⟨ts, hn, hts, hagain⟩ := h.again (rereads_expressionWithin (Nat.le_of_lt_succ hk)) (Nat.zero_le least)
  refine ⟨ts, hn, hts, fun d hd => ?_⟩
  obtain ⟨e', d', hbuilds, hbare, hd'⟩ := hagain d [] (by rw [hd, List.append_nil]) (Or.inr rfl)
  refine ⟨e', d', expressionWithin_eq_ok.mpr ⟨hbuilds, ?_⟩, hbare, hd'⟩
  rw [d'.current_eq, hd']
  rfl

end Parse

end Reactive
