import Mathlib.Data.List.TakeWhile
import Mathlib.Tactic.Common
import Reactive.Proofs.Delimiting

/-!
# Reactive.Proofs.Slicing — the span of a node is a slice of the text that says the node

* `Lexer.Local rule cs`: what a rule of the lexer cuts off a text is the same where only a part of what stands behind it
  is left; so it is with every piece that is no fault (`Lexer.local_next`).
* `Lexer.pieces_of_append`: pieces at the start of a text are the pieces of their own text.
* `TokenStream.slice`: consecutive tokens are those of the slice of the text from the first to the last of them.
* `Expr.Delimited text n`: what the span of the node `n` says about the text; `Expr.nodes_delimited`: it does so for
  every node of an expression.
-/

namespace Reactive

namespace Lexer

variable {c : Char} {cs rest : List Char} {p : Char → Bool}

/-! ### What stands behind a piece -/

theorem head_behind_run (h : rest <+: cs.dropWhile p) : ∀ d ∈ rest.head?, p d = false := by
  intro d hd
  obtain ⟨ds, rfl⟩ := List.head?_eq_some_iff.mp hd
  obtain ⟨more, hmore⟩ := h
  have hnot := List.head?_dropWhile_not p cs
  rw [← hmore] at hnot
  simpa using hnot

/-- What a rule cuts off a text is the same where only a part of what stands behind it is left. -/
def Local (rule : List Char → Lexeme × Nat) (cs : List Char) : Prop :=
  ∀ rest, rest <+: cs.drop (rule cs).2 → rule (cs.take (rule cs).2 ++ rest) = rule cs

/-- A run of characters of a kind ends where it did. -/
theorem takeWhile_append (h : rest <+: cs.dropWhile p) : (cs.takeWhile p ++ rest).takeWhile p = cs.takeWhile p :=
  takeWhile_append_of_head (fun _ hd => List.mem_takeWhile_imp hd) (head_behind_run h)

theorem local_run (p : Char → Bool) (f : List Char → Lexeme) (cs : List Char) :
    Local (fun cs => (f (cs.takeWhile p), (cs.takeWhile p).length)) cs := by
  intro rest h
  dsimp only at h ⊢
  rw [(cut_takeWhile p cs).2] at h
  rw [(cut_takeWhile p cs).1, takeWhile_append h]

/-! ### Strings and comments -/

/-- A character that does not escape the next one closes a string, breaks it off or is part of it. -/
theorem stringEnd_plain {d : Char} (hd : d ≠ '\\') (cs : List Char) : stringEnd (d :: cs) =
    if d = '"' then (1, true) else if d = '\n' then (0, false)
      else ((stringEnd cs).1 + 1, (stringEnd cs).2) :=
  stringEnd.eq_4 d cs (fun h _ => hd h) fun _ _ h _ => hd h

/-- The closing quote is in the text, and is found where it was. -/
theorem stringEnd_closed {n : Nat} : stringEnd cs = (n, true) →
    n ≤ cs.length ∧ ∀ rest, stringEnd (cs.take n ++ rest) = (n, true) := by
  induction cs using stringEnd.induct generalizing n with
  | case1 =>
    intro h
    cases h
  | case2 =>
    intro h
    cases h
  | case3 cs =>
    intro h
    rw [stringEnd, if_pos rfl] at h
    cases h
  | case4 d cs hd m closed hrest ih =>
    intro h
    rw [stringEnd, if_neg hd, hrest] at h
    cases h
    obtain ⟨hle, hagain⟩ := ih hrest
    refine ⟨Nat.succ_le_succ (Nat.succ_le_succ hle), fun rest => ?_⟩
    rw [List.take_succ_cons, List.take_succ_cons, List.cons_append, List.cons_append, stringEnd, if_neg hd, hagain]
  | case5 cs _ _ =>
    intro h
    rw [stringEnd_plain (by decide), if_pos rfl] at h
    cases h
    exact ⟨Nat.succ_pos _, fun rest => (stringEnd_plain (by decide) rest).trans (if_pos rfl)⟩
  | case6 cs _ _ hquote =>
    intro h
    rw [stringEnd_plain (by decide), if_neg hquote, if_pos rfl] at h
    cases h
  | case7 d cs hlast hescape hquote hfeed m closed hrest ih =>
    intro h
    have hslash : d ≠ '\\' := fun hd => by
      cases cs with
      | nil => exact hlast hd rfl
      | cons x xs => exact hescape x xs hd rfl
    rw [stringEnd_plain hslash, if_neg hquote, if_neg hfeed, hrest] at h
    cases h
    obtain ⟨hle, hagain⟩ := ih hrest
    refine ⟨Nat.succ_le_succ hle, fun rest => ?_⟩
    rw [List.take_succ_cons, List.cons_append, stringEnd_plain hslash, if_neg hquote, if_neg hfeed, hagain]

theorem local_string (hclosed : (stringEnd cs).2 = true) :
    Local (fun cs => if (stringEnd cs).2 then
      (.token (.string (String.ofList (Text.unescape (cs.take ((stringEnd cs).1 - 1))))), (stringEnd cs).1)
      else (.fault .unterminatedString, (stringEnd cs).1)) cs := by
  intro rest h
  have hend : stringEnd cs = ((stringEnd cs).1, true) := by rw [← hclosed]
  generalize (stringEnd cs).1 = n at hend
  obtain ⟨hle, hagain⟩ := stringEnd_closed hend
  have hlength : n - 1 ≤ (cs.take n).length := by
    rw [List.length_take, Nat.min_eq_left hle]
    exact Nat.sub_le n 1
  dsimp only
  rw [hend]
  dsimp only
  rw [if_pos rfl]
  dsimp only
  rw [hagain]
  dsimp only
  rw [if_pos rfl, List.take_append_of_le_length hlength, List.take_take, Nat.min_eq_left (Nat.sub_le n 1)]

theorem prefix_take_append {n : Nat} (h : rest <+: cs.drop n) : cs.take n ++ rest <+: cs := by
  obtain ⟨more, hmore⟩ := h
  exact ⟨more, by rw [List.append_assoc, hmore, List.take_append_drop]⟩

/-- The end of a comment is found where it was. -/
theorem commentEnd_append : rest <+: cs.drop (commentEnd cs) →
    commentEnd (cs.take (commentEnd cs) ++ rest) = commentEnd cs := by
  induction cs using commentEnd.induct with
  | case1 =>
    intro h
    rw [List.prefix_nil.mp h]
    rfl
  | case2 tail => exact fun _ => rfl
  | case3 d cs hd ih =>
    rw [commentEnd.eq_3 d cs hd]
    intro h
    have hd' (tail : List Char) (hstar : d = '*') (hslash : cs.take (commentEnd cs) ++ rest = '/' :: tail) : False := by
      obtain ⟨more, hmore⟩ : cs.take (commentEnd cs) ++ rest <+: cs := prefix_take_append h
      exact hd (tail ++ more) hstar (by rw [← hmore, hslash, List.cons_append])
    rw [List.take_succ_cons, List.cons_append, commentEnd.eq_3 d _ hd', ih h]

/-- The text begins with a point and a digit. -/
def IsFraction (cs : List Char) : Prop := ∃ d ds, cs = '.' :: d :: ds ∧ d.isDigit = true

theorem number_of_fraction {whole more : List Char} {d : Char} (hwhole : ∀ d ∈ whole, isDigitOrGap d = true)
    (hd : d.isDigit = true) : number c (whole ++ '.' :: d :: more) =
      (.token (.float (Double.ofDigits false (digits (c :: whole)) (digits (d :: more.takeWhile isDigitOrGap)) 0)),
        whole.length + 2 + (more.takeWhile isDigitOrGap).length) := by
  have hpoint : ∀ d ∈ ('.' :: d :: more).head?, isDigitOrGap d = false := by
    rintro _ ⟨⟩
    rfl
  unfold number
  rw [takeWhile_append_of_head hwhole hpoint]
  dsimp only
  rw [List.take_left, List.drop_left]
  exact if_pos hd

theorem number_of_not_fraction {whole : List Char} (hwhole : ∀ d ∈ whole, isDigitOrGap d = true)
    (hrest : ∀ d ∈ rest.head?, isDigitOrGap d = false) (hfraction : ¬ IsFraction rest) :
    number c (whole ++ rest) = (integer (c :: whole), whole.length) := by
  unfold number
  rw [takeWhile_append_of_head hwhole hrest]
  dsimp only
  rw [List.take_left, List.drop_left]
  split
  · rename_i d ds
    exact if_neg fun hd => hfraction ⟨d, ds, rfl, hd⟩
  · rfl

theorem local_number (c : Char) (cs : List Char) : Local (number c) cs := by
  intro rest
  have hwhole : ∀ d ∈ cs.takeWhile isDigitOrGap, isDigitOrGap d = true := fun _ => List.mem_takeWhile_imp
  have hcut : cs.takeWhile isDigitOrGap ++ cs.dropWhile isDigitOrGap = cs := List.takeWhile_append_dropWhile
  by_cases hfraction : IsFraction (cs.dropWhile isDigitOrGap)
  · obtain ⟨d, ds, hds, hd⟩ := hfraction
    rw [hds] at hcut
    generalize cs.takeWhile isDigitOrGap = whole at hwhole hcut
    subst hcut
    rw [number_of_fraction hwhole hd]
    dsimp only
    rw [Nat.add_assoc, List.take_length_add_append, List.drop_length_add_append, Nat.add_comm 2, List.take_succ_cons,
      List.take_succ_cons, List.drop_succ_cons, List.drop_succ_cons, (cut_takeWhile isDigitOrGap ds).1,
      (cut_takeWhile isDigitOrGap ds).2, List.append_assoc, List.cons_append, List.cons_append]
    intro h
    rw [number_of_fraction hwhole hd, takeWhile_append h, Nat.add_assoc, Nat.add_comm 2]
  · have hhead : ∀ d ∈ (cs.dropWhile isDigitOrGap).head?, isDigitOrGap d = false := head_behind_run List.prefix_rfl
    have hnumber := number_of_not_fraction (c := c) hwhole hhead hfraction
    rw [hcut] at hnumber
    rw [hnumber]
    dsimp only
    rw [(cut_takeWhile isDigitOrGap cs).1, (cut_takeWhile isDigitOrGap cs).2]
    intro h
    refine number_of_not_fraction hwhole (head_behind_run h) fun ⟨d, ds, hds, hd⟩ => hfraction ?_
    obtain ⟨more, hmore⟩ := h
    exact ⟨d, ds ++ more, by rw [← hmore, hds]; rfl, hd⟩

/-- Whether two characters are one symbol is seen from the second one. -/
theorem local_symbol (c : Char) (cs : List Char) : Local (symbol c) cs := by
  intro rest
  cases hpair : cs.head?.bind (Symbol.ofPair? c) with
  | some s =>
    obtain ⟨d, hd, hs⟩ := Option.bind_eq_some_iff.mp hpair
    obtain ⟨ds, rfl⟩ := List.head?_eq_some_iff.mp hd
    have hsymbol (ds : List Char) : symbol c (d :: ds) = (.token (.symbol s), 1) := by
      unfold symbol
      rw [show (d :: ds).head?.bind (Symbol.ofPair? c) = some s from hs]
    rw [hsymbol]
    exact fun _ => hsymbol rest
  | none =>
    have hsymbol {cs : List Char} (hpair : cs.head?.bind (Symbol.ofPair? c) = none) : symbol c cs = symbol c [] := by
      simp only [symbol, hpair, List.head?_nil, Option.bind_none]
    have hzero : (symbol c []).2 = 0 := by
      unfold symbol
      cases Symbol.ofChar? c <;> rfl
    rw [hsymbol hpair, hzero]
    intro h
    rw [List.take_zero, List.nil_append]
    refine hsymbol ?_
    cases rest with
    | nil => rfl
    | cons d ds =>
      obtain ⟨more, rfl⟩ := h
      exact hpair

/-- A slash begins a comment, or is a symbol. -/
theorem local_slash (cs : List Char) : Local (next '/') cs := by
  intro rest
  by_cases hcomment : ∃ d ds, cs = d :: ds ∧ (d = '/' ∨ d = '*')
  · obtain ⟨d, ds, rfl, rfl | rfl⟩ := hcomment
    · have hnext (ds : List Char) : next '/' ('/' :: ds) = (.skipped, 1 + (ds.takeWhile (· ≠ '\n')).length) := rfl
      rw [hnext]
      dsimp only
      rw [Nat.add_comm 1, List.take_succ_cons, List.drop_succ_cons, (cut_takeWhile (· ≠ '\n') ds).1,
        (cut_takeWhile (· ≠ '\n') ds).2, List.cons_append]
      intro h
      rw [hnext, takeWhile_append h, Nat.add_comm]
    · have hnext (ds : List Char) : next '/' ('*' :: ds) = (.skipped, 1 + commentEnd ds) := rfl
      rw [hnext]
      dsimp only
      rw [Nat.add_comm 1, List.take_succ_cons, List.drop_succ_cons, List.cons_append]
      intro h
      rw [hnext, commentEnd_append h, Nat.add_comm]
  · have hnext {cs : List Char} (h : ¬ ∃ d ds, cs = d :: ds ∧ (d = '/' ∨ d = '*')) : next '/' cs = symbol '/' cs := by
      unfold next
      rw [if_neg (by decide), if_neg (by decide), if_neg (by decide), if_neg (by decide)]
      split
      · exact absurd ⟨'/', _, rfl, Or.inl rfl⟩ h
      · exact absurd ⟨'*', _, rfl, Or.inr rfl⟩ h
      · rfl
    rw [hnext hcomment]
    intro h
    rw [hnext]
    · exact local_symbol '/' cs rest h
    · rintro ⟨d, ds, hds, hd⟩
      obtain ⟨more, hmore⟩ := prefix_take_append h
      exact hcomment ⟨d, ds ++ more, by rw [← hmore, hds, List.cons_append], hd⟩

/-! ### What the first character says -/

theorem next_space (hspace : isSpace c = true) : next c = fun cs => (.skipped, (cs.takeWhile isSpace).length) := by
  funext cs
  unfold next
  rw [if_pos hspace]

theorem next_name (hspace : isSpace c = false) (hname : isNameStart c = true) : next c =
    fun cs => (.token (word (c :: cs.takeWhile isNameChar)), (cs.takeWhile isNameChar).length) := by
  funext cs
  unfold next
  rw [hspace, if_neg Bool.false_ne_true, if_pos hname]

theorem next_digit (hspace : isSpace c = false) (hname : isNameStart c = false) (hdigit : c.isDigit = true) :
    next c = number c := by
  funext cs
  unfold next
  rw [hspace, if_neg Bool.false_ne_true, hname, if_neg Bool.false_ne_true, if_pos hdigit]

theorem next_quote : next '"' = fun cs => if (stringEnd cs).2 then
    (.token (.string (String.ofList (Text.unescape (cs.take ((stringEnd cs).1 - 1))))), (stringEnd cs).1)
    else (.fault .unterminatedString, (stringEnd cs).1) := rfl

theorem next_symbol (hspace : isSpace c = false) (hname : isNameStart c = false) (hdigit : c.isDigit = false)
    (hquote : c ≠ '"') (hslash : c ≠ '/') : next c = symbol c := by
  funext cs
  unfold next
  rw [hspace, if_neg Bool.false_ne_true, hname, if_neg Bool.false_ne_true, hdigit, if_neg Bool.false_ne_true,
    if_neg hquote]
  split
  · exact absurd rfl hslash
  · exact absurd rfl hslash
  · rfl

/-- A piece that is no fault is cut off by what is seen of it and of the next character. -/
theorem local_next (hsound : ∀ f, (next c cs).1 ≠ .fault f) : Local (next c) cs := by
  cases hspace : isSpace c with
  | true =>
    rw [next_space hspace]
    exact local_run isSpace (fun _ => .skipped) cs
  | false =>
  cases hname : isNameStart c with
  | true =>
    rw [next_name hspace hname]
    exact local_run isNameChar (fun more => .token (word (c :: more))) cs
  | false =>
  cases hdigit : c.isDigit with
  | true =>
    rw [next_digit hspace hname hdigit]
    exact local_number c cs
  | false =>
  by_cases hquote : c = '"'
  · rw [hquote, next_quote] at hsound
    rw [hquote, next_quote]
    cases hclosed : (stringEnd cs).2 with
    | false =>
      dsimp only at hsound
      rw [hclosed] at hsound
      exact absurd rfl (hsound _)
    | true => exact local_string hclosed
  by_cases hslash : c = '/'
  · rw [hslash]
    exact local_slash cs
  · rw [next_symbol hspace hname hdigit hquote hslash]
    exact local_symbol c cs

/-! ### Pieces of a text -/

theorem take_drop_append {n : Nat} (h : rest <+: cs.drop n) :
    (cs.take n ++ rest).take n = cs.take n ∧ (cs.take n ++ rest).drop n = rest := by
  obtain hle | hle := Nat.le_total n cs.length
  · have hlength : (cs.take n).length = n := by rw [List.length_take, Nat.min_eq_left hle]
    exact ⟨List.take_left' hlength, List.drop_left' hlength⟩
  · rw [List.drop_of_length_le hle] at h
    rw [List.prefix_nil.mp h, List.append_nil, List.take_take, Nat.min_self, List.take_of_length_le hle,
      List.drop_of_length_le hle]
    exact ⟨rfl, rfl⟩

/-- The first pieces of a text are the pieces of their own text. -/
theorem pieces_of_append : ∀ {ps qs : List Piece} {cs : List Char}, pieces cs = ps ++ qs → (∀ p ∈ ps, p.Sound) →
    pieces (ps.flatMap Piece.text) = ps
  | [], _, _, _, _ => by rw [List.flatMap_nil, pieces]
  | p :: ps, qs, [], h, _ => by
    rw [pieces] at h
    cases h
  | p :: ps, qs, c :: cs, h, hsound => by
    rw [pieces, List.cons_append] at h
    obtain ⟨rfl, hrest⟩ := List.cons.inj h
    obtain ⟨hpiece, hps⟩ := List.forall_mem_cons.mp hsound
    have hprefix : ps.flatMap Piece.text <+: cs.drop (next c cs).2 := by
      rw [← flatten_pieces (cs.drop (next c cs).2), hrest, List.flatMap_append]
      exact List.prefix_append _ _
    obtain ⟨htake, hdrop⟩ := take_drop_append hprefix
    rw [List.flatMap_cons, List.cons_append, pieces, local_next hpiece _ hprefix, htake, hdrop,
      pieces_of_append hrest hps]

/-- Behind the first pieces of a text are the pieces of the text behind them. -/
theorem pieces_behind : ∀ {ps qs : List Piece} {cs : List Char}, pieces cs = ps ++ qs →
    pieces (qs.flatMap Piece.text) = qs
  | [], qs, cs, h => by
    rw [← List.nil_append qs, ← h, flatten_pieces]
  | p :: ps, qs, [], h => by
    rw [pieces] at h
    cases h
  | p :: ps, qs, c :: cs, h => by
    rw [pieces, List.cons_append] at h
    exact pieces_behind (List.cons.inj h).2

theorem tokens_of_token {piece : Piece} {t : Token} (h : piece.lexeme = .token t) (p : Position) (ps : List Piece) :
    (place p (piece :: ps)).filterMap placedToken? =
      (t, .between p (p.after piece.text)) :: (place (p.after piece.text) ps).filterMap placedToken? := by
  rw [place, h]
  rfl

theorem tokens_of_other {piece : Piece} (h : ∀ t, piece.lexeme ≠ .token t) (p : Position) (ps : List Piece) :
    (place p (piece :: ps)).filterMap placedToken? = (place (p.after piece.text) ps).filterMap placedToken? := by
  rw [place, List.filterMap_cons_none]
  cases hlexeme : piece.lexeme with
  | token t => exact absurd hlexeme (h t)
  | skipped | fault f => rfl

/-- The piece of a token, with the pieces in front of it and behind it. -/
theorem exists_piece : ∀ {ps : List Piece} {p : Position} {before after : Tokens} {w : Token × Span},
    (place p ps).filterMap placedToken? = before ++ w :: after → ∃ qs piece rs, ps = qs ++ piece :: rs ∧
      (place p qs).filterMap placedToken? = before ∧ piece.lexeme = .token w.1 ∧
      w.2 = .between (p.after (qs.flatMap Piece.text)) ((p.after (qs.flatMap Piece.text)).after piece.text) ∧
      (place ((p.after (qs.flatMap Piece.text)).after piece.text) rs).filterMap placedToken? = after
  | [], p, before, after, w, h => by
    cases before <;> cases h
  | piece :: ps, p, before, after, w, h => by
    by_cases htoken : ∃ t, piece.lexeme = .token t
    · obtain ⟨t, htoken⟩ := htoken
      rw [tokens_of_token htoken] at h
      cases before with
      | nil =>
        obtain ⟨rfl, hafter⟩ := List.cons.inj h
        exact ⟨[], piece, ps, rfl, rfl, htoken, rfl, hafter⟩
      | cons x before =>
        obtain ⟨rfl, hrest⟩ := List.cons.inj h
        obtain ⟨qs, piece', rs, rfl, hbefore, hfound⟩ := exists_piece hrest
        refine ⟨piece :: qs, piece', rs, rfl, ?_, ?_⟩
        · rw [tokens_of_token htoken, hbefore]
        · rwa [List.flatMap_cons, Position.after_append]
    · have hother := not_exists.mp htoken
      rw [tokens_of_other hother] at h
      obtain ⟨qs, piece', rs, rfl, hbefore, hfound⟩ := exists_piece h
      refine ⟨piece :: qs, piece', rs, rfl, ?_, ?_⟩
      · rwa [tokens_of_other hother]
      · rwa [List.flatMap_cons, Position.after_append]

/-- The pieces of consecutive tokens, from the first to the last one. -/
theorem exists_pieces {ps : List Piece} {p : Position} {before part after : Tokens} {first last : Token × Span}
    (hsound : ∀ piece ∈ ps, piece.Sound)
    (htokens : (place p ps).filterMap placedToken? = before ++ part ++ after) (hfirst : first ∈ part.head?)
    (hlast : last ∈ part.getLast?) : ∃ front own behind, ps = front ++ (own ++ behind) ∧
      first.2.start = (p.after (front.flatMap Piece.text)).offset ∧
      last.2.stop = (p.after ((front ++ own).flatMap Piece.text)).offset ∧
      own.filterMap Piece.token? = part.map Prod.fst := by
  obtain ⟨more, rfl⟩ := List.head?_eq_some_iff.mp hfirst
  obtain ⟨init, hinit⟩ := List.getLast?_eq_some_iff.mp hlast
  rw [List.append_assoc, List.cons_append] at htokens
  obtain ⟨front, piece, rs, rfl, -, hlexeme, hspan, hrs⟩ := exists_piece htokens
  -- From the first token on, the tokens are cut once more behind the last one.
  have hbehind : (place (p.after (front.flatMap Piece.text)) (piece :: rs)).filterMap placedToken? =
      init ++ last :: after := by
    rw [tokens_of_token hlexeme, hrs, ← hspan, ← List.singleton_append (l := after), ← List.append_assoc, ← hinit,
      List.cons_append]
  obtain ⟨own, piece', behind, hpieces, hown, hlexeme', hspan', -⟩ := exists_piece hbehind
  rw [hpieces] at hsound ⊢
  refine ⟨front, own ++ [piece'], behind, by simp, by rw [hspan]; rfl, ?_, ?_⟩
  · rw [hspan', List.flatMap_append, List.flatMap_append, List.flatMap_singleton, Position.after_append,
      Position.after_append]
    rfl
  · have htoken : piece'.token? = some last.1 := by rw [Piece.token?, hlexeme']
    have hownSound : ∀ piece ∈ own, piece.Sound := fun piece hpiece =>
      hsound piece (List.mem_append_right _ (List.mem_append_left _ hpiece))
    rw [List.filterMap_append, ← (placed_of_sound _ hownSound).2, hown, List.filterMap_cons_some htoken,
      List.filterMap_nil, hinit, List.map_append]
    rfl

end Lexer

/-! ### Slices of a text -/

theorem TokenStream.pieces_of_tokenize {text : String} {stream : TokenStream} (h : tokenize text = .ok stream) :
    (∀ piece ∈ Lexer.pieces text.toList, piece.Sound) ∧
      stream.tokens = (Lexer.place .origin (Lexer.pieces text.toList)).filterMap Lexer.placedToken? := by
  unfold tokenize at h
  dsimp only at h
  split at h
  · rename_i hfaults
    cases h
    exact ⟨Lexer.sound_of_placed hfaults, rfl⟩
  · cases h

/-- Consecutive tokens of a text are the tokens of a slice of the text, from the start of the first to the end of the
last one. -/
theorem TokenStream.slice {text : String} {stream : TokenStream} (h : tokenize text = .ok stream) {part : Tokens}
    (hpart : part <:+: stream.tokens) {s : Span} (hs : s.Covers part) :
    ∃ front slice rest, text.toList = front ++ slice ++ rest ∧ s.start = Text.size front ∧
      s.stop = Text.size (front ++ slice) ∧
      ∃ stream', tokenize (String.ofList slice) = .ok stream' ∧ stream'.tokens.map Prod.fst = part.map Prod.fst := by
  obtain ⟨first, hfirst, last, hlast, rfl⟩ := hs
  obtain ⟨before, after, hstream⟩ := hpart
  obtain ⟨hsound, htokens⟩ := TokenStream.pieces_of_tokenize h
  obtain ⟨front, own, behind, hpieces, hstart, hstop, hkinds⟩ :=
    Lexer.exists_pieces hsound (htokens ▸ hstream.symm) hfirst hlast
  refine ⟨front.flatMap Lexer.Piece.text, own.flatMap Lexer.Piece.text, behind.flatMap Lexer.Piece.text, ?_, ?_, ?_, ?_⟩
  · rw [← Lexer.flatten_pieces text.toList, hpieces, List.flatMap_append, List.flatMap_append, List.append_assoc]
  · exact hstart.trans (Position.offset_after_origin _)
  · rw [← List.flatMap_append]
    exact hstop.trans (Position.offset_after_origin _)
  · have hown : ∀ piece ∈ own, piece.Sound := fun piece hpiece =>
      hsound piece (hpieces ▸ List.mem_append_right _ (List.mem_append_left _ hpiece))
    rw [← hkinds]
    refine Lexer.tokenize_of_spells ⟨own, ?_, rfl, hown⟩
    rw [String.toList_ofList, List.append_nil, Lexer.pieces_of_append (Lexer.pieces_behind hpieces) hown, Lexer.pieces,
      List.append_nil]

/-! ### Nodes -/

/-- The span of a node delimits it: it goes from the start of a token to the end of the same or a later one, contains
the spans of the expressions right inside, which come one behind the other, and the text that it cuts out says the
node. -/
structure Expr.Delimited (text : String) (n : Expr) : Prop where
  tokens : ∃ stream, tokenize text = .ok stream ∧ ∃ part, part <:+: stream.tokens ∧ n.span.Covers part
  proper : n.span.start < n.span.stop
  contains : ∀ child ∈ n.children, n.span.start ≤ child.span.start ∧ child.span.stop ≤ n.span.stop
  apart : n.children.Pairwise fun a b => a.span.stop ≤ b.span.start
  slice : ∃ front slice rest, text.toList = front ++ slice ++ rest ∧ n.span.start = Text.size front ∧
    n.span.stop = Text.size (front ++ slice) ∧ ∃ e, Expr.parse (String.ofList slice) = .ok e ∧ e.bare = n.bare

theorem TokenStream.Placed.inOrder {text : List Char} {stream : TokenStream} (h : stream.Placed text) :
    InOrder stream.tokens :=
  ⟨h.ordered.sublist (List.sublist_append_left _ _), fun t ht => (h.proper t ht).2⟩

theorem Expr.Parted.delimited {text : String} {stream : TokenStream} (h : tokenize text = .ok stream) {n : Expr}
    (hn : n.Parted stream.tokens) : n.Delimited text := by
  obtain ⟨part, hpart, hcovers, hamong, hread⟩ := hn
  have hinOrder : InOrder part := (TokenStream.placed_of_tokenize h).inOrder.of_infix hpart
  refine ⟨⟨stream, h, part, hpart, hcovers⟩, hcovers.proper hinOrder, hamong.within hcovers hinOrder,
    hamong.pairwise hinOrder, ?_⟩
  obtain ⟨front, slice, rest, htext, hstart, hstop, stream', hslice, hkinds⟩ := TokenStream.slice h hpart hcovers
  obtain ⟨e, c, hrun, hbare, hc⟩ := hread stream'.cursor hkinds
  refine ⟨front, slice, rest, htext, hstart, hstop, e, ?_, hbare⟩
  have hend : c.atEnd = true := List.isEmpty_iff.mpr (List.map_eq_nil_iff.mp hc)
  unfold Expr.parse
  rw [hslice]
  dsimp only
  rw [hrun]
  exact if_pos hend

/-- The span of every node of an expression delimits it. -/
theorem Expr.nodes_delimited {text : String} {e n : Expr} (h : Expr.parse text = .ok e) (hn : n ∈ e.nodes) :
    n.Delimited text := by
  unfold Expr.parse at h
  cases hstream : tokenize text with
  | error errors =>
    rw [hstream] at h
    cases h
  | ok stream =>
    rw [hstream] at h
    dsimp only at h
    cases hread : Parse.expression stream.cursor with
    | error err c =>
      rw [hread] at h
      cases h
    | ok e' c =>
      rw [hread] at h
      dsimp only at h
      split at h
      · cases h
        have hinOrder := (TokenStream.placed_of_tokenize hstream).inOrder
        exact (Parse.parted_expression (c := stream.cursor) hinOrder hread n hn).delimited hstream
      · cases h

/-- The span of a sum in parentheses begins and ends with these. -/
theorem Expr.nodes_delimited_group :
    let text := "x - /* both */ (a + b) * c"
    ∃ e n, Expr.parse text = .ok e ∧ n ∈ e.nodes ∧ n.span = ⟨15, 22, 1, 16⟩ ∧ n.Delimited text := by
  intro text
  have hchecked : (Expr.parse text).toOption.any (fun e => e.nodes.any fun n => n.span = ⟨15, 22, 1, 16⟩) = true := by
    decide +kernel
  obtain ⟨e, hparse, hnodes⟩ := Stateful.exists_of_toOption_any hchecked
  obtain ⟨n, hn, hspan⟩ := List.any_eq_true.mp hnodes
  exact ⟨e, n, hparse, hn, of_decide_eq_true hspan, nodes_delimited hparse hn⟩

end Reactive
