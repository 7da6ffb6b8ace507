import Mathlib.Data.List.TakeWhile
import Mathlib.Tactic.Common
import Reactive.Expr
import Reactive.Token.Lexer

/-!
# Reactive.Proofs.Spelling — texts that are cut into the tokens that they spell

* `Lexer.Spells cs ts rest`: in front of `rest`, the text `cs` is cut into the tokens `ts`, and `rest` is cut as if it
  stood alone.  Texts that spell something are put one behind the other (`Spells.append`).
* What spells a token: a word, digits, digits around a point, a quoted string, a symbol; each with the condition on what
  follows that keeps it from going on (`Lexer.Stops`).
* `tokenize_of_spells`: a text that spells tokens to its end has no fault.
* `Token.Lexed`: what every token of a text is like, whatever the text (`lexed_of_tokenize`).
-/

namespace Reactive

namespace Lexer

/-- The token of a piece. -/
def Piece.token? (p : Piece) : Option Token :=
  match p.lexeme with
  | .token t => some t
  | _ => none

/-- The piece is no fault. -/
def Piece.Sound (p : Piece) : Prop := ∀ f, p.lexeme ≠ .fault f

/-- In front of `rest`, a text is cut into pieces without fault that give the tokens. -/
def Spells (cs : List Char) (ts : List Token) (rest : List Char) : Prop :=
  ∃ ps, pieces (cs ++ rest) = ps ++ pieces rest ∧ ps.filterMap Piece.token? = ts ∧ ∀ p ∈ ps, p.Sound

variable {c : Char} {cs cs' rest : List Char} {ts ts' : List Token} {t : Token}

theorem spells_nil : Spells [] [] rest := ⟨[], rfl, rfl, nofun⟩

theorem Spells.append (h : Spells cs ts (cs' ++ rest)) (h' : Spells cs' ts' rest) :
    Spells (cs ++ cs') (ts ++ ts') rest := by
  obtain ⟨ps, hps, rfl, hsound⟩ := h
  obtain ⟨ps', hps', rfl, hsound'⟩ := h'
  refine ⟨ps ++ ps', ?_, List.filterMap_append, fun p hp => ?_⟩
  · rw [List.append_assoc, hps, hps', List.append_assoc]
  · rcases List.mem_append.mp hp with hp | hp
    · exact hsound p hp
    · exact hsound' p hp

theorem pieces_of_next {l : Lexeme} (h : next c (cs ++ rest) = (l, cs.length)) :
    pieces (c :: cs ++ rest) = ⟨c :: cs, l⟩ :: pieces rest := by
  rw [List.cons_append, pieces, h]
  simp

theorem spells_token (h : next c (cs ++ rest) = (.token t, cs.length)) : Spells (c :: cs) [t] rest := by
  refine ⟨[⟨c :: cs, .token t⟩], pieces_of_next h, rfl, fun p hp f => ?_⟩
  obtain rfl := List.mem_singleton.mp hp
  exact nofun

theorem spells_skipped (h : next c (cs ++ rest) = (.skipped, cs.length)) : Spells (c :: cs) [] rest := by
  refine ⟨[⟨c :: cs, .skipped⟩], pieces_of_next h, rfl, fun p hp f => ?_⟩
  obtain rfl := List.mem_singleton.mp hp
  exact nofun

/-! ### Classes of characters -/

/-- A class without the spaces. -/
theorem isSpace_eq_false {p : Char → Bool} (hp : [' ', '\t', '\n', '\r'].any p = false) (h : p c = true) :
    isSpace c = false := by
  by_contra hspace
  simp only [isSpace, Bool.not_eq_false, Bool.or_eq_true, decide_eq_true_eq] at hspace
  refine Bool.false_ne_true (hp.symm.trans (List.any_eq_true.mpr ⟨c, ?_, h⟩))
  rcases hspace with ((rfl | rfl) | rfl) | rfl <;> simp

theorem isSpace_of_isNameStart (h : isNameStart c = true) : isSpace c = false :=
  isSpace_eq_false (p := isNameStart) (by decide) h

theorem isSpace_of_isDigit (h : c.isDigit = true) : isSpace c = false :=
  isSpace_eq_false (p := Char.isDigit) (by decide) h

theorem isNameStart_of_isDigit (h : c.isDigit = true) : isNameStart c = false := by
  by_contra hstart
  simp only [isNameStart, Bool.not_eq_false, Bool.or_eq_true, decide_eq_true_eq] at hstart
  rcases hstart with halpha | rfl
  · change (decide (48 ≤ c.val) && decide (c.val ≤ 57)) = true at h
    change (decide (65 ≤ c.val ∧ c.val ≤ 90) || (decide (97 ≤ c.val) && decide (c.val ≤ 122))) = true at halpha
    simp only [Bool.or_eq_true, Bool.and_eq_true, decide_eq_true_eq, UInt32.le_iff_toNat_le] at h halpha
    simp at h halpha
    omega
  · exact absurd h (by decide)

theorem isDigitOrGap_of_isDigit (h : c.isDigit = true) : isDigitOrGap c = true := by simp [isDigitOrGap, h]

theorem isNameChar_of_isDigitOrGap (h : isDigitOrGap c = true) : isNameChar c = true := by
  simp only [isDigitOrGap, isNameChar, Bool.or_eq_true, Char.isAlphanum] at h ⊢
  tauto

/-- The text does not go on with a name or a number that stands before it. -/
def Stops (rest : List Char) : Prop :=
  ∀ c cs, rest = c :: cs → isNameChar c = false ∧ (c = '.' → ∀ d ∈ cs.head?, d.isDigit = false)

/-- A run of elements of a kind, such as the characters of a name, ends in front of one of another kind. -/
theorem takeWhile_append_of_head {α : Type} {p : α → Bool} {xs rest : List α} (hxs : ∀ x ∈ xs, p x = true)
    (hrest : ∀ d ∈ rest.head?, p d = false) : (xs ++ rest).takeWhile p = xs := by
  rw [List.takeWhile_append_of_pos hxs]
  cases rest with
  | nil => rw [List.takeWhile_nil, List.append_nil]
  | cons d ds => rw [List.takeWhile_cons_of_neg (by rw [hrest d rfl]; exact Bool.false_ne_true), List.append_nil]

theorem Stops.head_of {p : Char → Bool} (h : Stops rest) (hp : ∀ c, p c = true → isNameChar c = true) :
    ∀ d ∈ rest.head?, p d = false := by
  intro d hd
  obtain ⟨ds, rfl⟩ := List.head?_eq_some_iff.mp hd
  cases hpd : p d with
  | false => rfl
  | true => exact absurd (hp d hpd) (by rw [(h d ds rfl).1]; exact Bool.false_ne_true)

/-! ### Words -/

/-- A name as the rules of spelling have it. -/
def IsName (name : String) : Prop :=
  Keyword.ofText? name = none ∧
    ∃ c cs, name.toList = c :: cs ∧ isNameStart c = true ∧ ∀ d ∈ cs, isNameChar d = true

theorem spells_word (hc : isNameStart c = true) (hcs : ∀ d ∈ cs, isNameChar d = true) (hrest : Stops rest) :
    Spells (c :: cs) [word (c :: cs)] rest := by
  refine spells_token ?_
  have hmore : (cs ++ rest).takeWhile isNameChar = cs := takeWhile_append_of_head hcs (hrest.head_of fun _ h => h)
  unfold next
  rw [isSpace_of_isNameStart hc, if_neg Bool.false_ne_true, if_pos hc]
  dsimp only
  rw [hmore]

theorem spells_name {name : String} (h : IsName name) (hrest : Stops rest) :
    Spells name.toList [.identifier name] rest := by
  obtain ⟨hkeyword, c, cs, hname, hc, hcs⟩ := h
  have hword : word (c :: cs) = .identifier name := by
    unfold word
    rw [← hname, String.ofList_toList]
    dsimp only
    rw [hkeyword]
  rw [hname, ← hword]
  exact spells_word hc hcs hrest

theorem spells_keyword (k : Keyword) (hrest : Stops rest) : Spells k.text.toList [.keyword k] rest := by
  cases k <;> exact spells_word (by decide) (List.all_eq_true.mp (by decide)) hrest

/-! ### Numbers -/

theorem digits_of_isDigit (h : ∀ d ∈ cs, d.isDigit = true) : digits cs = cs := by
  refine List.filter_eq_self.mpr fun d hd => ?_
  have hne : d ≠ '_' := by
    rintro rfl
    exact absurd (h _ hd) (by decide)
  simpa using hne

theorem natOfDigits_toDigits (n : Nat) : Double.natOfDigits (Nat.toDigits 10 n) = n := by
  have h : Nat.ofDigitChars 10 (Nat.toDigits 10 n) 0 = n := Nat.ofDigitChars_toDigits (by omega) (by omega)
  unfold Nat.ofDigitChars at h
  unfold Double.natOfDigits
  simpa only [Nat.mul_comm 10] using h

/-- A text of digits that stops is an integer. -/
theorem number_of_stops (hc : c.isDigit = true) (hcs : ∀ d ∈ cs, d.isDigit = true) (hrest : Stops rest) :
    next c (cs ++ rest) = (integer (c :: cs), cs.length) := by
  have hrun : (cs ++ rest).takeWhile isDigitOrGap = cs :=
    takeWhile_append_of_head (fun d hd => isDigitOrGap_of_isDigit (hcs d hd))
      (hrest.head_of fun _ => isNameChar_of_isDigitOrGap)
  unfold next number
  rw [isSpace_of_isDigit hc, if_neg Bool.false_ne_true, isNameStart_of_isDigit hc, if_neg Bool.false_ne_true, if_pos hc]
  dsimp only
  rw [hrun, List.take_left, List.drop_left]
  split
  · rename_i d ds
    rw [if_neg]
    have := (hrest '.' (d :: ds) rfl).2 rfl d rfl
    rw [this]
    exact Bool.false_ne_true
  · rfl

/-- The digits of an integer that is not negative. -/
theorem spells_integer {i : Int64} (hi : 0 ≤ i.toInt) (hrest : Stops rest) :
    Spells (toString i.toInt).toList [.integer i] rest := by
  obtain ⟨n, hn⟩ := Int.eq_ofNat_of_zero_le hi
  have htext : (toString i.toInt).toList = Nat.toDigits 10 n := by
    rw [hn]
    show (n.repr).toList = _
    rw [Nat.repr_eq_ofList_toDigits, String.toList_ofList]
  have hdigits : ∀ d ∈ Nat.toDigits 10 n, d.isDigit = true := fun d =>
    Nat.isDigit_of_mem_toDigits (by omega) (by omega)
  have hlt : n < 1 <<< 63 := by
    have := i.toInt_lt
    rw [hn] at this
    omega
  have hvalue : Int64.ofNat n = i := by
    rw [← Int64.ofInt_eq_ofNat, ← Int64.ofInt_toInt i, hn]
  rw [htext]
  cases hds : Nat.toDigits 10 n with
  | nil => exact absurd hds Nat.toDigits_ne_nil
  | cons c cs =>
    rw [hds] at hdigits
    have hread : integer (c :: cs) = .token (.integer i) := by
      unfold integer
      rw [digits_of_isDigit hdigits, ← hds, natOfDigits_toDigits]
      dsimp only
      rw [if_pos hlt, hvalue]
    refine spells_token ?_
    rw [number_of_stops (hdigits c List.mem_cons_self) (fun d hd => hdigits d (List.mem_cons_of_mem _ hd)) hrest, hread]

/-- Digits around a point. -/
theorem spells_float {whole fraction : List Char} (hwhole : whole ≠ []) (hfraction : fraction ≠ [])
    (hdigits : ∀ d ∈ whole ++ fraction, d.isDigit = true) (hrest : Stops rest) :
    Spells (whole ++ '.' :: fraction) [.float (Double.ofDigits false whole fraction 0)] rest := by
  obtain ⟨c, cs, rfl⟩ := List.exists_cons_of_ne_nil hwhole
  obtain ⟨d, ds, rfl⟩ := List.exists_cons_of_ne_nil hfraction
  have hc : c.isDigit = true := hdigits c (by simp)
  have hcs : ∀ x ∈ cs, x.isDigit = true := fun x hx => hdigits x (by simp [hx])
  have hd : d.isDigit = true := hdigits d (by simp)
  have hds : ∀ x ∈ ds, x.isDigit = true := fun x hx => hdigits x (by simp [hx])
  rw [List.cons_append]
  refine spells_token ?_
  have hrun : (cs ++ '.' :: d :: (ds ++ rest)).takeWhile isDigitOrGap = cs :=
    takeWhile_append_of_head (fun x hx => isDigitOrGap_of_isDigit (hcs x hx)) fun x hx => by
      obtain rfl : '.' = x := Option.some.inj hx
      rfl
  have hmore : (ds ++ rest).takeWhile isDigitOrGap = ds :=
    takeWhile_append_of_head (fun x hx => isDigitOrGap_of_isDigit (hds x hx))
      (hrest.head_of fun _ => isNameChar_of_isDigitOrGap)
  have htext : cs ++ '.' :: d :: ds ++ rest = cs ++ '.' :: d :: (ds ++ rest) := by simp
  unfold next number
  rw [isSpace_of_isDigit hc, if_neg Bool.false_ne_true, isNameStart_of_isDigit hc, if_neg Bool.false_ne_true, if_pos hc,
    htext]
  dsimp only
  rw [hrun, List.take_left, List.drop_left]
  show (if d.isDigit = true then _ else _) = _
  rw [if_pos hd, hmore, digits_of_isDigit fun x hx => hdigits x (List.mem_append_left _ hx),
    digits_of_isDigit fun x hx => hdigits x (List.mem_append_right _ hx)]
  simp
  omega

/-! ### Strings -/

/-- A character of a literal is a backslash with something behind it, or stands for itself. -/
theorem escapeChar_cases (c : Char) : (∃ d, d ≠ '\n' ∧ Text.escapeChar c = ['\\', d]) ∨
    (Text.escapeChar c = [c] ∧ c ≠ '"' ∧ c ≠ '\\' ∧ c ≠ '\n') := by
  by_cases hquote : c = '"'
  · exact Or.inl ⟨'"', by decide, by rw [hquote]; rfl⟩
  by_cases hslash : c = '\\'
  · exact Or.inl ⟨'\\', by decide, by rw [hslash]; rfl⟩
  by_cases hfeed : c = '\n'
  · exact Or.inl ⟨'n', by decide, by rw [hfeed]; rfl⟩
  by_cases hreturn : c = '\r'
  · exact Or.inl ⟨'r', by decide, by rw [hreturn]; rfl⟩
  by_cases htab : c = '\t'
  · exact Or.inl ⟨'t', by decide, by rw [htab]; rfl⟩
  by_cases hnull : c = '\x00'
  · exact Or.inl ⟨'0', by decide, by rw [hnull]; rfl⟩
  · refine Or.inr ⟨?_, hquote, hslash, hfeed⟩
    unfold Text.escapeChar
    rw [if_neg hquote, if_neg hslash, if_neg hfeed, if_neg hreturn, if_neg htab, if_neg hnull]

/-- The first quote outside of the items of a literal is the one that ends it. -/
theorem stringEnd_escape : ∀ (s rest : List Char),
    stringEnd (Text.escape s ++ '"' :: rest) = ((Text.escape s).length + 1, true)
  | [], rest => rfl
  | c :: s, rest => by
    have ih := stringEnd_escape s rest
    unfold Text.escape at ih ⊢
    rw [List.flatMap_cons]
    obtain ⟨d, hd, hchar⟩ | ⟨hchar, hquote, hslash, hfeed⟩ := escapeChar_cases c
    · rw [hchar]
      show stringEnd ('\\' :: d :: (s.flatMap Text.escapeChar ++ '"' :: rest)) = _
      rw [stringEnd, if_neg hd, ih]
      simp
    · rw [hchar]
      show stringEnd (c :: (s.flatMap Text.escapeChar ++ '"' :: rest)) = _
      rw [stringEnd.eq_4 _ _ (fun h _ => hslash h) (fun _ _ h _ => hslash h), if_neg hquote, if_neg hfeed, ih]
      simp

theorem spells_string (s : String) : Spells (Text.quoted s).toList [.string s] rest := by
  have htext : (Text.quoted s).toList = '"' :: (Text.escape s.toList ++ ['"']) := by
    unfold Text.quoted
    simp
  rw [htext]
  refine spells_token ?_
  have hend : stringEnd (Text.escape s.toList ++ ['"'] ++ rest) = ((Text.escape s.toList).length + 1, true) := by
    rw [List.append_assoc]
    exact stringEnd_escape s.toList rest
  unfold next
  dsimp only
  rw [hend]
  dsimp only
  have htake : (Text.escape s.toList ++ ['"'] ++ rest).take ((Text.escape s.toList).length + 1 - 1)
      = Text.escape s.toList := by
    rw [List.append_assoc, Nat.add_sub_cancel, List.take_left]
  rw [htake, Text.unescape_escape, String.ofList_toList]
  simp [isSpace, isNameStart]

/-! ### Symbols -/

theorem spells_space (hrest : ∀ d ∈ rest.head?, isSpace d = false) : Spells [' '] [] rest := by
  refine spells_skipped ?_
  have hrun : rest.takeWhile isSpace = [] := by
    cases rest with
    | nil => rfl
    | cons d ds => exact List.takeWhile_cons_of_neg (by rw [hrest d rfl]; exact Bool.false_ne_true)
  show (Lexeme.skipped, (rest.takeWhile isSpace).length) = _
  rw [hrun, List.length_nil]

/-- An operator between spaces. -/
theorem spells_operator (s : Symbol) : Spells s.text.toList [.symbol s] (' ' :: rest) := by
  cases s <;> exact spells_token rfl

/-- A delimiter, whatever follows. -/
theorem spells_delimiter {s : Symbol} (hs : s = .leftParen ∨ s = .rightParen ∨ s = .dot ∨ s = .comma) :
    Spells s.text.toList [.symbol s] rest := by
  rcases hs with rfl | rfl | rfl | rfl <;> (refine spells_token ?_; cases rest <;> rfl)

/-- The sign of an operand that does not begin with `=`. -/
theorem spells_sign (op : UnaryOp) (hrest : ∀ d ∈ rest.head?, d ≠ '=') :
    Spells op.symbol.text.toList [.symbol op.symbol] rest := by
  cases op with
  | negate => exact spells_token (by cases rest <;> rfl)
  | not =>
    refine spells_token (c := '!') ?_
    show symbol '!' rest = _
    have hpair : rest.head?.bind (Symbol.ofPair? '!') = none := by
      cases hd : rest.head? with
      | none => rfl
      | some d =>
        have := hrest d hd
        show Symbol.ofPair? '!' d = none
        unfold Symbol.ofPair?
        split <;> simp_all
    unfold symbol
    rw [hpair]
    rfl

/-! ### Whole texts -/

/-- What the pieces of a text give wherever they are placed. -/
theorem placed_of_sound : ∀ {ps : List Piece} (p : Position), (∀ piece ∈ ps, piece.Sound) →
    (place p ps).filterMap placedFault? = [] ∧
      ((place p ps).filterMap placedToken?).map Prod.fst = ps.filterMap Piece.token?
  | [], _, _ => ⟨rfl, rfl⟩
  | piece :: ps, p, h => by
    obtain ⟨hfault, htoken⟩ := placed_of_sound (p.after piece.text) fun q hq => h q (List.mem_cons_of_mem _ hq)
    have hsound := h piece List.mem_cons_self
    rw [place]
    cases hl : piece.lexeme with
    | fault f => exact absurd hl (hsound f)
    | skipped =>
      refine ⟨hfault, ?_⟩
      rw [List.filterMap_cons_none (by rfl), List.filterMap_cons_none (by rw [Piece.token?, hl])]
      exact htoken
    | token t =>
      refine ⟨hfault, ?_⟩
      rw [List.filterMap_cons_some (b := (t, _)) (by rfl), List.filterMap_cons_some (b := t) (by rw [Piece.token?, hl]),
        List.map_cons, htoken]

/-- A text that spells tokens to its end has no fault. -/
theorem tokenize_of_spells {text : String} (h : Spells text.toList ts []) :
    ∃ stream, tokenize text = .ok stream ∧ stream.tokens.map Prod.fst = ts := by
  obtain ⟨ps, hps, rfl, hsound⟩ := h
  rw [List.append_nil, pieces, List.append_nil] at hps
  obtain ⟨hfault, htoken⟩ := placed_of_sound .origin hsound
  refine ⟨⟨(place .origin ps).filterMap placedToken?, .between (Position.origin.after text.toList)
    (Position.origin.after text.toList)⟩, ?_, htoken⟩
  subst hps
  unfold tokenize
  dsimp only
  rw [hfault]

end Lexer

/-! ### What the tokens of a text are like -/

namespace Double

/-- A double whose magnitude is given by 63 bits has the sign that it was given. -/
theorem isNegative_withSign_false {magnitude : Nat} (h : magnitude < 1 <<< 63) :
    (withSign false magnitude).isNegative = false := by
  have hbits : (UInt64.ofNat magnitude).toNat = magnitude := UInt64.toNat_ofNat_of_lt' (by
    have : UInt64.size = 2 * 1 <<< 63 := by decide
    omega)
  unfold withSign isNegative
  rw [if_neg Bool.false_ne_true, hbits]
  exact decide_eq_false (by omega)

theorem isNegative_zero : (withSign false 0).isNegative = false := by decide

theorem isNegative_infinity : (infinity false).isNegative = false := by decide

theorem isNegative_bounded (magnitude : Nat) :
    (if magnitude ≥ infinityBits then infinity false else withSign false magnitude).isNegative = false := by
  have hinfinity : infinityBits < 1 <<< 63 := by decide
  split
  · exact isNegative_infinity
  · exact isNegative_withSign_false (by omega)

theorem isNegative_ofRatio (num den : Nat) : (ofRatio false num den).isNegative = false := by
  unfold ofRatio
  split
  · exact isNegative_zero
  · exact isNegative_bounded _

/-- What is read without a sign is not negative. -/
theorem isNegative_ofDigits (whole fraction : List Char) (exponent : Int) :
    (ofDigits false whole fraction exponent).isNegative = false := by
  unfold ofDigits ofDecimal
  split
  · exact isNegative_zero
  split
  · exact isNegative_infinity
  split
  · exact isNegative_zero
  split <;> exact isNegative_ofRatio _ _

end Double

/-- The token is one that a text may have: names are spelled as names, and numbers have no sign. -/
def Token.Lexed : Token → Prop
  | .identifier name => Lexer.IsName name
  | .integer i => 0 ≤ i.toInt
  | .float x => x.isNegative = false
  | _ => True

namespace Lexer

variable {c : Char} {cs : List Char} {t : Token}

theorem lexed_word (hc : isNameStart c = true) (hcs : ∀ d ∈ cs, isNameChar d = true) : (word (c :: cs)).Lexed := by
  unfold word
  dsimp only
  cases hkeyword : Keyword.ofText? (String.ofList (c :: cs)) with
  | some k => trivial
  | none => exact ⟨hkeyword, c, cs, String.toList_ofList, hc, hcs⟩

theorem lexed_integer (h : integer cs = .token t) : t.Lexed := by
  unfold integer at h
  dsimp only at h
  split at h
  · rename_i hlt
    cases h
    show 0 ≤ (Int64.ofNat _).toInt
    rw [Int64.toInt_ofNat_of_lt (by omega)]
    omega
  · cases h

theorem lexed_number (h : (number c cs).1 = .token t) : t.Lexed := by
  unfold number at h
  dsimp only at h
  split at h
  · split at h
    · cases h
      exact Double.isNegative_ofDigits _ _ _
    · exact lexed_integer h
  · exact lexed_integer h

theorem lexed_symbol (h : (symbol c cs).1 = .token t) : t.Lexed := by
  unfold symbol at h
  split at h
  · cases h
    trivial
  · split at h <;> cases h
    trivial

/-- One piece of a text at its start. -/
theorem lexed_next (h : (next c cs).1 = .token t) : t.Lexed := by
  unfold next at h
  split at h
  · cases h
  split at h
  · rename_i hc
    cases h
    exact lexed_word hc fun d hd => List.mem_takeWhile_imp hd
  split at h
  · exact lexed_number h
  split at h
  · dsimp only at h
    split at h <;> cases h
    trivial
  split at h
  · cases h
  · cases h
  · exact lexed_symbol h

theorem lexed_pieces (cs : List Char) : ∀ p ∈ pieces cs, ∀ t, p.lexeme = .token t → t.Lexed := by
  induction h : cs.length using Nat.strongRecOn generalizing cs with
  | _ n ih =>
    cases cs with
    | nil => simp [pieces]
    | cons c cs =>
      intro p hp t ht
      rw [pieces] at hp
      rcases List.mem_cons.mp hp with rfl | hp
      · exact lexed_next ht
      · refine ih _ ?_ _ rfl p hp t ht
        simp only [List.length_drop, List.length_cons] at h ⊢
        omega

theorem lexeme_of_mem_place : ∀ {ps : List Piece} {p : Position} {placed : Lexeme × Span}, placed ∈ place p ps →
    ∃ piece ∈ ps, piece.lexeme = placed.1
  | [], _, _, h => by cases h
  | piece :: ps, p, placed, h => by
    rw [place] at h
    rcases List.mem_cons.mp h with rfl | h
    · exact ⟨piece, List.mem_cons_self, rfl⟩
    · obtain ⟨other, hother, hl⟩ := lexeme_of_mem_place h
      exact ⟨other, List.mem_cons_of_mem _ hother, hl⟩

/-- Every token of a text is as the rules of spelling have it. -/
theorem lexed_of_tokenize {text : String} {stream : TokenStream} (h : tokenize text = .ok stream) :
    ∀ token ∈ stream.tokens, token.1.Lexed := by
  unfold tokenize at h
  dsimp only at h
  split at h
  · cases h
    intro token htoken
    obtain ⟨⟨lexeme, span⟩, hplaced, htoken⟩ := List.mem_filterMap.mp htoken
    obtain ⟨piece, hpiece, hl⟩ := lexeme_of_mem_place hplaced
    cases lexeme with
    | token t =>
      cases htoken
      exact lexed_pieces _ piece hpiece t hl
    | skipped => cases htoken
    | fault f => cases htoken
  · cases h

end Lexer

end Reactive
