import Mathlib.Data.List.Induction
import Mathlib.Data.List.TakeWhile
import Mathlib.Tactic.Common
import Reactive.Proofs.Spelling

/-!
# Reactive.Proofs.Positions — where the tokens and the faults of a text stand

* `Position.after_origin`: what has been counted behind the first characters of a text.
* `Span.Exact`: a span with the bytes, the line and the column of a part of a text.  Every piece of a text gets one
  (`Lexer.exact_of_mem_place`), and the spans of the pieces come one behind the other (`Lexer.pairwise_place`).
* `Lexer.Gap`: white space and comments, in front of a text.  A piece that is skipped is a gap (`Lexer.next_cases`), and so
  is what lies between two tokens (`Lexer.chain_pieces`).
* `positions_exact`: all of it for the tokens of a text, or for its faults if it has some.
-/

namespace Reactive

/-- The bytes of a text in UTF-8. -/
def Text.size (cs : List Char) : Nat := (String.ofList cs).utf8ByteSize

@[simp] theorem Text.size_append (cs ds : List Char) : Text.size (cs ++ ds) = Text.size cs + Text.size ds := by
  simp [Text.size]

@[simp] theorem Text.size_singleton (c : Char) : Text.size [c] = c.utf8Size := by simp [Text.size]

theorem Text.size_pos {cs : List Char} (h : cs ≠ []) : 0 < Text.size cs := by
  obtain ⟨c, ds, rfl⟩ := List.exists_cons_of_ne_nil h
  have hc := c.utf8Size_pos
  rw [← List.singleton_append, Text.size_append, Text.size_singleton]
  omega

theorem Position.offset_after (p : Position) (cs : List Char) : (p.after cs).offset = p.offset + Text.size cs := by
  induction cs using List.reverseRecOn with
  | nil => rfl
  | append_singleton cs c ih =>
    rw [after_append, after_cons, after_nil, offset_step, ih, Text.size_append, Text.size_singleton, Nat.add_assoc]

/-- What has been counted behind a text: its bytes, its line feeds, and the characters behind the last of them. -/
theorem Position.after_origin (cs : List Char) : origin.after cs =
    ⟨Text.size cs, 1 + cs.count '\n', 1 + (cs.reverse.takeWhile (· ≠ '\n')).length⟩ := by
  induction cs using List.reverseRecOn with
  | nil => rfl
  | append_singleton cs c ih =>
    rw [after_append, after_cons, after_nil, ih, step, List.reverse_append, List.reverse_singleton, List.singleton_append,
      List.count_append, Text.size_append, Text.size_singleton]
    by_cases hc : c = '\n'
    · simp [hc, Nat.add_assoc]
    · simp [hc, Nat.add_comm]

theorem Position.offset_after_origin (cs : List Char) : (origin.after cs).offset = Text.size cs := by
  rw [after_origin]

/-- The span has the bytes of a part of the text, and the line and the column of its start. -/
def Span.Exact (text : List Char) (span : Span) : Prop :=
  ∃ before part rest, text = before ++ part ++ rest ∧
    span = ⟨Text.size before, Text.size (before ++ part), 1 + before.count '\n',
      1 + (before.reverse.takeWhile (· ≠ '\n')).length⟩

theorem Span.exact_between (before part rest : List Char) :
    (Span.between (Position.origin.after before) (Position.origin.after (before ++ part))).Exact
      (before ++ part ++ rest) := by
  refine ⟨before, part, rest, rfl, ?_⟩
  rw [Position.after_origin before, Position.after_origin (before ++ part)]
  rfl

namespace Lexer

/-! ### Pieces -/

theorem text_ne_nil (cs : List Char) : ∀ piece ∈ pieces cs, piece.text ≠ [] := by
  induction cs using pieces.induct with
  | case1 => simp [pieces]
  | case2 c cs r ih =>
    rw [pieces, List.forall_mem_cons]
    exact ⟨List.cons_ne_nil _ _, ih⟩

/-- The spans of pieces are those of their texts. -/
theorem exact_of_mem_place {text : List Char} : ∀ (ps : List Piece) (before : List Char),
    before ++ ps.flatMap Piece.text = text →
      ∀ placed ∈ place (Position.origin.after before) ps, placed.2.Exact text
  | [], _, _ => nofun
  | piece :: ps, before, htext => by
    rw [List.flatMap_cons, ← List.append_assoc] at htext
    rw [place, ← Position.after_append, List.forall_mem_cons]
    exact ⟨htext ▸ Span.exact_between before piece.text _, exact_of_mem_place ps _ htext⟩

/-- The spans of pieces come one behind the other, none of them is empty, and they end where the text does. -/
theorem pairwise_place : ∀ {ps : List Piece} (p : Position), (∀ piece ∈ ps, piece.text ≠ []) →
    (∀ placed ∈ place p ps, p.offset ≤ placed.2.start ∧ placed.2.start < placed.2.stop ∧
      placed.2.stop ≤ (p.after (ps.flatMap Piece.text)).offset) ∧
    (place p ps).Pairwise fun a b => a.2.stop ≤ b.2.start
  | [], _, _ => ⟨nofun, List.Pairwise.nil⟩
  | piece :: ps, p, hps => by
    rw [List.forall_mem_cons] at hps
    obtain ⟨hall, hpairs⟩ := pairwise_place (p.after piece.text) hps.2
    have hstep := p.offset_after piece.text
    have hend := (p.after piece.text).offset_after (ps.flatMap Piece.text)
    have hpos := Text.size_pos hps.1
    rw [place, List.flatMap_cons, Position.after_append, List.forall_mem_cons, List.pairwise_cons]
    refine ⟨⟨⟨le_refl _, ?_, ?_⟩, fun placed hplaced => ?_⟩, fun placed hplaced => (hall placed hplaced).1, hpairs⟩
    · show p.offset < (p.after piece.text).offset
      omega
    · show (p.after piece.text).offset ≤ _
      omega
    · obtain ⟨hstart, hproper, hstop⟩ := hall placed hplaced
      exact ⟨by omega, hproper, hstop⟩

/-! ### White space and comments -/

/-- White space and comments, in front of `rest`: a comment goes to the end of its line, or to the first `*/`, or, if
there is none, to the end of the text. -/
inductive Gap : List Char → List Char → Prop
  | nil {rest : List Char} : Gap [] rest
  | space {c : Char} {cs rest : List Char} (hc : isSpace c = true) (h : Gap cs rest) : Gap (c :: cs) rest
  | line {comment cs rest : List Char} (hline : '\n' ∉ comment) (hend : ∀ d ∈ (cs ++ rest).head?, d = '\n')
      (h : Gap cs rest) : Gap ('/' :: '/' :: comment ++ cs) rest
  | block {comment cs rest : List Char} (hopen : ¬ ['*', '/'] <:+: comment) (h : Gap cs rest) :
      Gap ('/' :: '*' :: comment ++ '*' :: '/' :: cs) rest
  | unclosed {comment : List Char} (hopen : ¬ ['*', '/'] <:+: comment) : Gap ('/' :: '*' :: comment) []

theorem Gap.append {cs ds rest : List Char} (h : Gap cs (ds ++ rest)) (h' : Gap ds rest) : Gap (cs ++ ds) rest := by
  generalize hfollowing : ds ++ rest = following at h
  induction h with
  | nil => exact h'
  | space hc _ ih => exact .space hc (ih hfollowing)
  | line hline hend _ ih =>
    subst hfollowing
    rw [List.append_assoc]
    exact .line hline (by rwa [List.append_assoc]) (ih rfl)
  | block hopen _ ih =>
    rw [List.append_assoc]
    exact .block hopen (ih hfollowing)
  | unclosed hopen =>
    obtain ⟨rfl, rfl⟩ := List.append_eq_nil_iff.mp hfollowing
    rw [List.append_nil]
    exact .unclosed hopen

theorem gap_of_isSpace {rest : List Char} : ∀ {cs : List Char}, (∀ c ∈ cs, isSpace c = true) → Gap cs rest
  | [], _ => .nil
  | _ :: _, h => .space (h _ List.mem_cons_self) (gap_of_isSpace fun c hc => h c (List.mem_cons_of_mem _ hc))

/-- A run of characters of a kind, cut off by its length. -/
theorem cut_takeWhile (p : Char → Bool) (cs : List Char) :
    cs.take (cs.takeWhile p).length = cs.takeWhile p ∧ cs.drop (cs.takeWhile p).length = cs.dropWhile p := by
  have htake := (List.prefix_iff_eq_take.mp (List.takeWhile_prefix p (l := cs))).symm
  have hcut := List.take_append_drop (cs.takeWhile p).length cs
  rw [htake] at hcut
  exact ⟨htake, List.append_cancel_left (hcut.trans List.takeWhile_append_dropWhile.symm)⟩

/-- A block comment ends with the first `*/`, if there is one. -/
theorem commentEnd_cases (cs : List Char) :
    (∃ comment rest, cs = comment ++ '*' :: '/' :: rest ∧ commentEnd cs = comment.length + 2 ∧
      ¬ ['*', '/'] <:+: comment) ∨
    commentEnd cs = cs.length ∧ ¬ ['*', '/'] <:+: cs := by
  induction cs using commentEnd.induct with
  | case1 => exact Or.inr ⟨rfl, by simp⟩
  | case2 rest => exact Or.inl ⟨[], rest, rfl, rfl, by simp⟩
  | case3 c cs hc ih =>
    have hhead {tail : List Char} (htail : tail <+: cs) (hfree : ¬ ['*', '/'] <:+: tail) :
        ¬ ['*', '/'] <:+: c :: tail := by
      rw [List.infix_cons_iff, not_or, List.cons_prefix_cons]
      refine ⟨fun ⟨hstar, hslash⟩ => ?_, hfree⟩
      obtain ⟨rest, hrest⟩ := hslash.trans htail
      exact hc rest hstar.symm hrest.symm
    rw [commentEnd.eq_3 c cs hc]
    obtain ⟨comment, rest, rfl, hlength, hfree⟩ | ⟨hlength, hfree⟩ := ih
    · exact Or.inl ⟨c :: comment, rest, rfl, by rw [hlength, List.length_cons], hhead (List.prefix_append _ _) hfree⟩
    · exact Or.inr ⟨by rw [hlength, List.length_cons], hhead List.prefix_rfl hfree⟩

/-- The lexeme is a token before the end of the file, or a fault. -/
def Written : Lexeme → Prop
  | .skipped => False
  | .token t => t ≠ .endOfFile
  | .fault _ => True

theorem written_word (cs : List Char) : Written (.token (word cs)) := by
  show word cs ≠ .endOfFile
  unfold word
  dsimp only
  split <;> exact nofun

theorem written_integer (cs : List Char) : Written (integer cs) := by
  unfold integer
  dsimp only
  split
  · exact nofun
  · trivial

theorem written_number (c : Char) (cs : List Char) : Written (number c cs).1 := by
  unfold number
  dsimp only
  split
  · split
    · exact nofun
    · exact written_integer _
  · exact written_integer _

theorem written_symbol (c : Char) (cs : List Char) : Written (symbol c cs).1 := by
  unfold symbol
  split
  · exact nofun
  · split
    · exact nofun
    · trivial

/-- A piece is a token or a fault, or a gap in front of what follows. -/
theorem next_cases (c : Char) (cs : List Char) : Written (next c cs).1 ∨
    (next c cs).1 = .skipped ∧ Gap (c :: cs.take (next c cs).2) (cs.drop (next c cs).2) := by
  unfold next
  split
  · rename_i hc
    refine Or.inr ⟨rfl, ?_⟩
    rw [(cut_takeWhile isSpace cs).1]
    exact .space hc (gap_of_isSpace fun d hd => List.mem_takeWhile_imp hd)
  split
  · exact Or.inl (written_word _)
  split
  · exact Or.inl (written_number c cs)
  split
  · dsimp only
    split
    · exact Or.inl nofun
    · exact Or.inl trivial
  split
  · rename_i rest _ _ _ _
    refine Or.inr ⟨rfl, ?_⟩
    obtain ⟨htake, hdrop⟩ := cut_takeWhile (· ≠ '\n') rest
    rw [Nat.add_comm, List.take_succ_cons, List.drop_succ_cons, htake, hdrop]
    have hline : '\n' ∉ rest.takeWhile (· ≠ '\n') := fun hmem => by simpa using List.mem_takeWhile_imp hmem
    have hend : ∀ d ∈ (rest.dropWhile (· ≠ '\n')).head?, d = '\n' := fun d hd => by
      have hnot := List.head?_dropWhile_not (· ≠ '\n') rest
      rw [hd] at hnot
      simpa using hnot
    simpa using Gap.line hline hend .nil
  · rename_i rest _ _ _ _
    refine Or.inr ⟨rfl, ?_⟩
    rw [Nat.add_comm, List.take_succ_cons, List.drop_succ_cons]
    obtain ⟨comment, tail, rfl, hlength, hfree⟩ | ⟨hlength, hfree⟩ := commentEnd_cases rest
    · rw [hlength, List.take_length_add_append, List.drop_length_add_append]
      exact .block hfree .nil
    · rw [hlength, List.take_length, List.drop_length]
      exact .unclosed hfree
  · exact Or.inl (written_symbol c cs)

theorem ne_endOfFile_of_mem_pieces {t : Token} (cs : List Char) :
    ∀ piece ∈ pieces cs, piece.lexeme = .token t → t ≠ .endOfFile := by
  induction cs using pieces.induct with
  | case1 => simp [pieces]
  | case2 c cs r ih =>
    rw [pieces, List.forall_mem_cons]
    refine ⟨fun htoken => ?_, ih⟩
    obtain hwritten | ⟨hskipped, -⟩ := next_cases c cs
    · rwa [show (next c cs).1 = .token t from htoken] at hwritten
    · cases hskipped.symm.trans htoken

/-! ### Between the tokens -/

/-- Between two spans, the text has white space and comments only. -/
def Apart (text : List Char) (a b : Span) : Prop :=
  ∃ before gap rest, text = before ++ gap ++ rest ∧ a.stop = Text.size before ∧ b.start = Text.size (before ++ gap) ∧
    Gap gap rest

/-- From a place on that is in a gap, there are only gaps between the tokens. -/
theorem chain_pieces {text : List Char} (cs before gap : List Char) (a : Span) (htext : before ++ gap ++ cs = text)
    (hstop : a.stop = Text.size before) (hgap : Gap gap cs) (hsound : ∀ piece ∈ pieces cs, piece.Sound) :
    (a :: (((place (Position.origin.after (before ++ gap)) (pieces cs)).filterMap placedToken?).map Prod.snd ++
      [.between (Position.origin.after text) (Position.origin.after text)])).IsChain (Apart text) := by
  induction cs using pieces.induct generalizing before gap a with
  | case1 =>
    rw [List.append_nil] at htext
    rw [pieces, place, List.filterMap_nil, List.map_nil, List.nil_append]
    refine List.IsChain.cons_cons ⟨before, gap, [], by rw [htext, List.append_nil], hstop, ?_, hgap⟩ (.singleton _)
    rw [htext]
    exact Position.offset_after_origin text
  | case2 c cs r ih =>
    have hcut : c :: cs.take r.2 ++ cs.drop r.2 = c :: cs := by rw [List.cons_append, List.take_append_drop]
    rw [pieces, List.forall_mem_cons] at hsound
    rw [pieces, place, ← Position.after_append]
    cases hlexeme : r.1 with
    | fault f => exact absurd hlexeme (hsound.1 f)
    | skipped =>
      -- The gap goes on.
      have hpiece := ((next_cases c cs).resolve_left (by rw [show (next c cs).1 = .skipped from hlexeme]; exact id)).2
      rw [List.filterMap_cons_none (by rfl), List.append_assoc]
      refine ih before (gap ++ c :: cs.take r.2) a ?_ hstop (Gap.append (hcut.symm ▸ hgap) hpiece) hsound.2
      rw [← htext, ← hcut]
      simp
    | token t =>
      rw [List.filterMap_cons_some (b := (t, _)) (by rfl), List.map_cons, List.cons_append, List.isChain_cons_cons]
      refine ⟨⟨before, gap, c :: cs, htext.symm, hstop, ?_, hgap⟩, ?_⟩
      · exact Position.offset_after_origin _
      · have hrest := ih (before ++ gap ++ c :: cs.take r.2) []
          (.between (Position.origin.after (before ++ gap)) (Position.origin.after (before ++ gap ++ c :: cs.take r.2)))
          (by rw [← htext, ← hcut]; simp) (Position.offset_after_origin _) .nil hsound.2
        rwa [List.append_nil] at hrest

theorem sound_of_placed : ∀ {ps : List Piece} {p : Position}, (place p ps).filterMap placedFault? = [] →
    ∀ piece ∈ ps, piece.Sound
  | [], _, _ => nofun
  | piece :: ps, p, h => by
    rw [place] at h
    cases hlexeme : piece.lexeme with
    | fault f =>
      rw [hlexeme, List.filterMap_cons_some (b := ⟨f, _⟩) (by rfl)] at h
      cases h
    | skipped =>
      rw [hlexeme, List.filterMap_cons_none (by rfl)] at h
      exact List.forall_mem_cons.mpr ⟨fun f hf => (by rw [hlexeme] at hf; cases hf), sound_of_placed h⟩
    | token t =>
      rw [hlexeme, List.filterMap_cons_none (by rfl)] at h
      exact List.forall_mem_cons.mpr ⟨fun f hf => (by rw [hlexeme] at hf; cases hf), sound_of_placed h⟩

theorem eq_of_placedToken? {placed : Lexeme × Span} {token : Token × Span} (h : placedToken? placed = some token) :
    placed = (.token token.1, token.2) := by
  obtain ⟨lexeme, span⟩ := placed
  cases lexeme <;> cases h
  rfl

theorem eq_of_placedFault? {placed : Lexeme × Span} {e : LexError} (h : placedFault? placed = some e) :
    placed = (.fault e.fault, e.span) := by
  obtain ⟨lexeme, span⟩ := placed
  cases lexeme <;> cases h
  rfl

end Lexer

/-- Tokens that stand where the text has them, with nothing but white space and comments in front of each and behind the
last one. -/
structure TokenStream.Placed (text : List Char) (stream : TokenStream) : Prop where
  exact : ∀ token ∈ stream.withEnd, token.2.Exact text
  ordered : stream.withEnd.Pairwise fun a b => a.2.stop ≤ b.2.start
  proper : ∀ token ∈ stream.tokens, token.1 ≠ .endOfFile ∧ token.2.start < token.2.stop
  stop : stream.stop.start = Text.size text ∧ stream.stop.stop = Text.size text
  apart : (⟨0, 0, 1, 1⟩ :: stream.withEnd.map Prod.snd).IsChain (Lexer.Apart text)

/-- Faults that stand where the text has them. -/
structure LexError.Placed (text : List Char) (errors : List LexError) : Prop where
  found : errors ≠ []
  exact : ∀ e ∈ errors, e.span.Exact text
  ordered : errors.Pairwise fun a b => a.span.stop ≤ b.span.start
  proper : ∀ e ∈ errors, e.span.start < e.span.stop

theorem TokenStream.placed_of_tokenize {text : String} {stream : TokenStream} (h : tokenize text = .ok stream) :
    stream.Placed text.toList := by
  have hexact := Lexer.exact_of_mem_place _ [] (Lexer.flatten_pieces text.toList)
  obtain ⟨hproper, hordered⟩ := Lexer.pairwise_place .origin (Lexer.text_ne_nil text.toList)
  rw [Lexer.flatten_pieces, Position.offset_after_origin] at hproper
  unfold tokenize at h
  dsimp only at h
  split at h
  · rename_i hfaults
    cases h
    have hstop : (Position.origin.after text.toList).offset = Text.size text.toList := Position.offset_after_origin _
    have hmem : ∀ token ∈ (Lexer.place .origin (Lexer.pieces text.toList)).filterMap Lexer.placedToken?,
        (.token token.1, token.2) ∈ Lexer.place .origin (Lexer.pieces text.toList) := fun token htoken => by
      obtain ⟨placed, hplaced, hpt⟩ := List.mem_filterMap.mp htoken
      rwa [Lexer.eq_of_placedToken? hpt] at hplaced
    refine ⟨List.forall_mem_append.mpr ⟨fun token htoken => hexact _ (hmem token htoken), ?_⟩,
      List.pairwise_append.mpr ⟨?_, List.pairwise_singleton _ _, fun token htoken stop hmemstop => ?_⟩,
      fun token htoken => ⟨?_, (hproper _ (hmem token htoken)).2.1⟩, ⟨hstop, hstop⟩, ?_⟩
    · have hend := Span.exact_between text.toList [] []
      rw [List.append_nil, List.append_nil] at hend
      exact List.forall_mem_singleton.mpr hend
    · refine hordered.filterMap _ fun a b hab a' ha' b' hb' => ?_
      rwa [Lexer.eq_of_placedToken? ha', Lexer.eq_of_placedToken? hb'] at hab
    · rw [List.mem_singleton.mp hmemstop]
      exact (hproper _ (hmem token htoken)).2.2.trans hstop.ge
    · obtain ⟨piece, hpiece, hlexeme⟩ := Lexer.lexeme_of_mem_place (hmem token htoken)
      exact Lexer.ne_endOfFile_of_mem_pieces _ piece hpiece hlexeme
    · have hchain := Lexer.chain_pieces text.toList [] [] ⟨0, 0, 1, 1⟩ rfl rfl .nil (Lexer.sound_of_placed hfaults)
      rwa [← List.map_singleton (f := Prod.snd) (a := (Token.endOfFile, _)), ← List.map_append] at hchain
  · cases h

theorem LexError.placed_of_tokenize {text : String} {errors : List LexError} (h : tokenize text = .error errors) :
    Placed text.toList errors := by
  have hexact := Lexer.exact_of_mem_place _ [] (Lexer.flatten_pieces text.toList)
  obtain ⟨hproper, hordered⟩ := Lexer.pairwise_place .origin (Lexer.text_ne_nil text.toList)
  unfold tokenize at h
  dsimp only at h
  split at h
  · cases h
  · rename_i hfound
    cases h
    have hmem : ∀ e ∈ (Lexer.place .origin (Lexer.pieces text.toList)).filterMap Lexer.placedFault?,
        (.fault e.fault, e.span) ∈ Lexer.place .origin (Lexer.pieces text.toList) := fun e he => by
      obtain ⟨placed, hplaced, hpe⟩ := List.mem_filterMap.mp he
      rwa [Lexer.eq_of_placedFault? hpe] at hplaced
    refine ⟨hfound, fun e he => hexact _ (hmem e he), ?_, fun e he => (hproper _ (hmem e he)).2.1⟩
    refine hordered.filterMap _ fun a b hab a' ha' b' hb' => ?_
    rwa [Lexer.eq_of_placedFault? ha', Lexer.eq_of_placedFault? hb'] at hab

/-- **Positions are exact.**  If a text is cut into tokens, the spans of the tokens are those of parts of the text, by
bytes, line and column.  They come one behind the other, with only white space and comments between them; none is empty
but that of the end of the file, which is behind the last character.  If the text is rejected, the spans of its faults
are those of parts of the text, too, and come one behind the other. -/
theorem positions_exact (text : String) :
    match tokenize text with
    | .ok stream => stream.Placed text.toList
    | .error errors => LexError.Placed text.toList errors := by
  cases h : tokenize text with
  | ok stream => exact TokenStream.placed_of_tokenize h
  | error errors => exact LexError.placed_of_tokenize h

end Reactive
