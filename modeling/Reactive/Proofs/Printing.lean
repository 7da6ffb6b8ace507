import Reactive.Expr.Printer
import Reactive.Proofs.Spelling

/-!
# Reactive.Proofs.Printing — the tokens of a printed expression

* `Expr.tokensAt`: the tokens that an expression is printed as, with the parentheses of its text.
* `Token.Printed`: what its text has to be like for a word to be cut out of it again.  For a double the text has to be
  plain (`Double.IsPlain`): it is then a point between digits.
* `spells_textAt`: the text of an expression spells these tokens, whatever follows that does not go on with its last
  word; so no two words of it run together.
-/

namespace Reactive

open Lexer

/-! ### Numbers with a point -/

namespace Double

/-- The text of the double is neither that of an infinity or of no number, nor has it an exponent. -/
def IsPlain (x : Double) : Prop := x.isNaN = false ∧ x.isInfinite = false ∧ 'e' ∉ x.sourceText.toList

instance (x : Double) : Decidable x.IsPlain := inferInstanceAs (Decidable (_ ∧ _ ∧ _))

end Double

namespace Decimal

theorem isDigit_of_mem_digitsOf {n : Nat} {c : Char} (h : c ∈ digitsOf n) : c.isDigit = true :=
  Nat.isDigit_of_mem_toDigits (by omega) (by omega) h

theorem digitsOf_ne_nil (n : Nat) : digitsOf n ≠ [] := Nat.toDigits_ne_nil

/-- Two runs of digits around a point. -/
def IsPointed (cs : List Char) : Prop :=
  ∃ whole fraction : List Char, whole ≠ [] ∧ fraction ≠ [] ∧ (∀ c ∈ whole ++ fraction, c.isDigit = true) ∧
    cs = whole ++ '.' :: fraction

theorem isDigit_of_mem_zeros {n : Nat} {c : Char} (h : c ∈ List.replicate n '0') : c.isDigit = true := by
  rw [List.eq_of_mem_replicate h]
  rfl

/-- A point in front of the last of more digits than that. -/
theorem isPointed_split {padded : List Char} {places : Nat} (hdigits : ∀ c ∈ padded, c.isDigit = true)
    (hplaces : 0 < places) (hlength : places < padded.length) :
    IsPointed (padded.take (padded.length - places) ++ '.' :: padded.drop (padded.length - places)) := by
  refine ⟨padded.take (padded.length - places), padded.drop (padded.length - places), ?_, ?_, ?_, rfl⟩
  · refine List.ne_nil_of_length_pos ?_
    rw [List.length_take]
    omega
  · refine List.ne_nil_of_length_pos ?_
    rw [List.length_drop]
    omega
  · rw [List.take_append_drop]
    exact hdigits

theorem isPointed_positionalText (d : Decimal) : IsPointed (positionalText d true).toList := by
  unfold positionalText
  dsimp only
  split
  · refine ⟨if d.digits = 0 then digitsOf d.digits else digitsOf d.digits ++ List.replicate d.exponent.natAbs '0',
      ['0'], ?_, by simp, ?_, by simp⟩
    · split <;> simp [digitsOf_ne_nil]
    · intro c hc
      rcases List.mem_append.mp hc with hc | hc
      · split at hc
        · exact isDigit_of_mem_digitsOf hc
        · exact (List.mem_append.mp hc).elim isDigit_of_mem_digitsOf isDigit_of_mem_zeros
      · exact isDigit_of_mem_zeros (n := 1) hc
  · rename_i hexponent
    have hdigits : ∀ c ∈ List.replicate (d.exponent.natAbs + 1 - (digitsOf d.digits).length) '0' ++ digitsOf d.digits,
        c.isDigit = true := fun c hc => (List.mem_append.mp hc).elim isDigit_of_mem_zeros isDigit_of_mem_digitsOf
    have hlength : d.exponent.natAbs < (List.replicate (d.exponent.natAbs + 1 - (digitsOf d.digits).length) '0' ++
        digitsOf d.digits).length := by
      rw [List.length_append, List.length_replicate]
      omega
    have hpointed := isPointed_split hdigits (by omega) hlength
    simpa using hpointed

end Decimal

namespace Double

variable {x : Double}

/-- A plain text is a point between digits. -/
theorem IsPlain.isPointed (h : x.IsPlain) (hsign : x.isNegative = false) : Decimal.IsPointed x.sourceText.toList := by
  obtain ⟨hnan, hinfinite, hplain⟩ := h
  have hrender (l : Decimal.Layout) : render l x = "" ++ Decimal.text l (Decimal.shortest l.tie x) := by
    unfold render
    rw [hnan, hsign, hinfinite, if_neg Bool.false_ne_true, if_neg Bool.false_ne_true, if_neg Bool.false_ne_true]
  unfold sourceText at hplain ⊢
  rw [hrender, String.empty_append] at hplain ⊢
  unfold Decimal.text at hplain ⊢
  dsimp only at hplain ⊢
  split at hplain
  · rename_i hpositional
    rw [if_pos hpositional]
    exact Decimal.isPointed_positionalText _
  · exact absurd (by simp [Decimal.scientificText]) hplain

/-- What is read back from a plain text is what its digits say. -/
theorem ofDigits_of_ofText? {s : String} {whole fraction : List Char} (hwhole : whole ≠ [])
    (hdigits : ∀ c ∈ whole ++ fraction, c.isDigit = true) (hs : s.toList = whole ++ '.' :: fraction)
    (hread : ofText? s = some x) : ofDigits false whole fraction 0 = x := by
  have hrun : (whole ++ '.' :: fraction).takeWhile Char.isDigit = whole :=
    takeWhile_append_of_head (fun c hc => hdigits c (List.mem_append_left _ hc)) fun c hc => by
      obtain rfl : '.' = c := Option.some.inj hc
      rfl
  have hfraction' : ∀ c ∈ fraction, c.isDigit = true := fun c hc => hdigits c (List.mem_append_right _ hc)
  have hrest : (whole ++ '.' :: fraction).dropWhile Char.isDigit = '.' :: fraction := by
    have := List.takeWhile_append_dropWhile (p := Char.isDigit) (l := whole ++ '.' :: fraction)
    rw [hrun] at this
    exact List.append_cancel_left this
  have hmore : fraction.takeWhile Char.isDigit = fraction := List.takeWhile_eq_self_iff.mpr hfraction'
  have hnone : fraction.dropWhile Char.isDigit = [] := List.dropWhile_eq_nil_iff.mpr hfraction'
  obtain ⟨c, cs, rfl⟩ := List.exists_cons_of_ne_nil hwhole
  have hc : c.isDigit = true := hdigits c (by simp)
  unfold ofText? at hread
  rw [hs] at hread
  split at hread
  rename_i heq
  split at heq
  · rename_i hcs
    cases hcs
    exact absurd hc (by decide)
  · cases heq
    rw [if_neg, if_neg] at hread
    · dsimp only at hread
      rw [hrun, hrest] at hread
      simpa [hmore, hnone] using hread
    · intro hnan
      obtain rfl : c = 'N' := by simpa using congrArg List.head? hnan
      exact absurd hc (by decide)
    · intro hinf
      obtain rfl : c = 'i' := by simpa using congrArg List.head? hinf
      exact absurd hc (by decide)

end Double

/-! ### Words -/

/-- The token of a constant. -/
def Literal.token : Literal → Token
  | null => .keyword .null
  | bool b => .keyword (if b then .true_ else .false_)
  | int i => .integer i
  | float x => .float x
  | string s => .string s

/-- The word is one that a text may have, and that is cut out of its own text again. -/
def Token.Printed : Token → Prop
  | .float x => x.isNegative = false ∧ x.IsPlain ∧ Double.ofText? x.sourceText = some x
  | t => t.Lexed

/-- The double that a word is. -/
def Token.double? : Token → Option Double
  | .float x => some x
  | _ => none

namespace Literal

variable {v : Literal} {least : Nat} {rest : List Char}

/-- An integer that is not negative is printed as its digits. -/
theorem textAt_int {i : Int64} (hi : 0 ≤ i.toInt) : (int i).textAt least = toString i.toInt := by
  have hsign : (i < 0 && decide (least ≥ 9)) = false := by
    rw [Bool.and_eq_false_iff]
    refine Or.inl (decide_eq_false ?_)
    rw [Int64.lt_iff_toInt_lt]
    simpa using hi
  unfold textAt
  dsimp only
  rw [hsign, if_neg Bool.false_ne_true]

theorem textAt_float {x : Double} (hx : x.isNegative = false) : (float x).textAt least = x.sourceText := by
  unfold textAt
  dsimp only
  rw [hx, Bool.false_and, if_neg Bool.false_ne_true]

/-- A constant without a sign is never put in parentheses. -/
theorem spells_textAt (hv : v.token.Printed) (hrest : Stops rest) : Spells (v.textAt least).toList [v.token] rest := by
  cases v with
  | null => exact spells_keyword .null hrest
  | bool b =>
    cases b
    · exact spells_keyword .false_ hrest
    · exact spells_keyword .true_ hrest
  | int i =>
    rw [textAt_int hv]
    exact spells_integer hv hrest
  | float x =>
    obtain ⟨hsign, hplain, hread⟩ := hv
    obtain ⟨whole, fraction, hwhole, hfraction, hdigits, htext⟩ := hplain.isPointed hsign
    rw [textAt_float hsign, htext, token, ← Double.ofDigits_of_ofText? hwhole hdigits htext hread]
    exact spells_float hwhole hfraction hdigits hrest
  | string s => exact spells_string s

end Literal

namespace Expr

mutual

/-- The words of an expression: its constants and the names in it. -/
def words : Expr → List Token
  | literal v _ => [v.token]
  | name n _ => [.identifier n]
  | this _ => []
  | member o n _ => words o ++ [.identifier n]
  | call c args _ => words c ++ wordsAll args
  | unary _ e _ => words e
  | binary _ l r _ => words l ++ words r
  | conditional c t e _ => words c ++ words t ++ words e
  | lambda _ p b _ => .identifier p :: words b

/-- The words of expressions. -/
def wordsAll : List Expr → List Token
  | [] => []
  | e :: es => words e ++ wordsAll es

end

/-- The doubles among the words. -/
def doubles (e : Expr) : List Double := e.words.filterMap Token.double?

theorem mem_doubles {e : Expr} {x : Double} (h : .float x ∈ e.words) : x ∈ e.doubles :=
  List.mem_filterMap.mpr ⟨.float x, h, rfl⟩

/-! ### Tokens -/

/-- The tokens in parentheses, if they are needed. -/
def enclosed (needed : Bool) (ts : List Token) : List Token :=
  if needed then .symbol .leftParen :: (ts ++ [.symbol .rightParen]) else ts

mutual

/-- The tokens of an expression where operators weaker than `least` need parentheses. -/
def tokensAt (least : Nat) : Expr → List Token
  | literal v _ => [v.token]
  | name n _ => [.identifier n]
  | this _ => [.keyword .this]
  | member o n _ => tokensAt 10 o ++ [.symbol .dot, .identifier n]
  | call c args _ => tokensAt 10 c ++ .symbol .leftParen :: (tokensList args ++ [.symbol .rightParen])
  | unary op e _ =>
    enclosed (least > 9) <|
      .symbol op.symbol :: if op = .negate && e.isNegation then enclosed true (tokensAt 0 e) else tokensAt 9 e
  | binary op l r _ =>
    enclosed (op.precedence < least) <|
      tokensAt (operandStrengths op).1 l ++ .symbol op.symbol :: tokensAt (operandStrengths op).2 r
  | conditional c t e _ =>
    enclosed (least > 1) <|
      tokensAt 2 c ++ .symbol .question :: (tokensAt 1 t ++ .symbol .colon :: tokensAt 1 e)
  | lambda isStatic p b _ =>
    enclosed (least > 0) <|
      (if isStatic then [.keyword .static] else []) ++ .identifier p :: .symbol .arrow :: tokensAt 0 b

/-- The tokens of arguments. -/
def tokensList : List Expr → List Token
  | [] => []
  | e :: es => tokensAt 0 e ++ tokensRest es

/-- The tokens of further arguments, each behind a comma. -/
def tokensRest : List Expr → List Token
  | [] => []
  | e :: es => .symbol .comma :: (tokensAt 0 e ++ tokensRest es)

end

/-- The words of an expression are cut out of their own texts again. -/
def Printed (e : Expr) : Prop := ∀ t ∈ e.words, t.Printed

/-! ### The first character -/

/-- The text begins with a character that neither is a space nor goes on with an exclamation mark. -/
def Begins (cs : List Char) : Prop := ∃ c ds, cs = c :: ds ∧ isSpace c = false ∧ c ≠ '='

theorem Begins.append {cs : List Char} (h : Begins cs) (ds : List Char) : Begins (cs ++ ds) := by
  obtain ⟨c, cs, rfl, hc⟩ := h
  exact ⟨c, cs ++ ds, rfl, hc⟩

theorem begins_of_isNameStart {c : Char} {cs : List Char} (h : isNameStart c = true) : Begins (c :: cs) := by
  refine ⟨c, cs, rfl, isSpace_of_isNameStart h, ?_⟩
  rintro rfl
  exact absurd h (by decide)

theorem begins_of_isDigit {c : Char} {cs : List Char} (h : c.isDigit = true) : Begins (c :: cs) := by
  refine ⟨c, cs, rfl, isSpace_of_isDigit h, ?_⟩
  rintro rfl
  exact absurd h (by decide)

theorem begins_name {name : String} (h : IsName name) : Begins name.toList := by
  obtain ⟨-, c, cs, hname, hc, -⟩ := h
  rw [hname]
  exact begins_of_isNameStart hc

theorem begins_parenthesized {needed : Bool} {text : String} (h : Begins text.toList) :
    Begins (parenthesized needed text).toList := by
  unfold parenthesized
  split
  · rw [String.append_assoc, String.toList_append]
    exact Begins.append ⟨'(', [], rfl, by decide, by decide⟩ _
  · exact h

theorem begins_keyword (k : Keyword) : Begins k.text.toList := by
  cases k <;> exact begins_of_isNameStart (by decide)

theorem begins_literal {v : Literal} (least : Nat) (hv : v.token.Printed) : Begins (v.textAt least).toList := by
  cases v with
  | null => exact begins_keyword .null
  | bool b =>
    cases b
    · exact begins_keyword .false_
    · exact begins_keyword .true_
  | int i =>
    obtain ⟨n, hn⟩ := Int.eq_ofNat_of_zero_le hv
    rw [Literal.textAt_int hv, hn]
    show Begins n.repr.toList
    rw [Nat.repr_eq_ofList_toDigits, String.toList_ofList]
    obtain ⟨c, cs, hcs⟩ := List.exists_cons_of_ne_nil (Nat.toDigits_ne_nil (n := n) (b := 10))
    rw [hcs]
    exact begins_of_isDigit (Nat.isDigit_of_mem_toDigits (by omega) (by omega) (hcs ▸ List.mem_cons_self))
  | float x =>
    obtain ⟨hsign, hplain, -⟩ := hv
    obtain ⟨whole, fraction, hwhole, -, hdigits, htext⟩ := hplain.isPointed hsign
    obtain ⟨c, cs, rfl⟩ := List.exists_cons_of_ne_nil hwhole
    rw [Literal.textAt_float hsign, htext]
    exact begins_of_isDigit (hdigits c (by simp))
  | string s =>
    show Begins (Text.quoted s).toList
    unfold Text.quoted
    rw [String.append_assoc, String.toList_append]
    exact Begins.append ⟨'"', [], rfl, by decide, by decide⟩ _

theorem begins_textAt : ∀ (e : Expr) (least : Nat), e.Printed → Begins (textAt least e).toList
  | literal v _, least, h => begins_literal least (h _ (by simp [words]))
  | name n _, _, h => begins_name (h (.identifier n) (by simp [words]))
  | this _, _, _ => by
    rw [textAt]
    exact begins_keyword .this
  | member o n _, _, h => by
    rw [textAt, String.append_assoc, String.toList_append]
    exact (begins_textAt o 10 fun t ht => h t (by simp [words, ht])).append _
  | call c args _, _, h => by
    rw [textAt, String.append_assoc, String.append_assoc, String.toList_append]
    exact (begins_textAt c 10 fun t ht => h t (by simp [words, ht])).append _
  | unary op e _, _, h => by
    rw [textAt]
    refine begins_parenthesized ?_
    rw [String.toList_append]
    refine Begins.append ?_ _
    cases op <;> exact ⟨_, [], rfl, by decide, by decide⟩
  | binary op l r _, _, h => by
    rw [textAt]
    refine begins_parenthesized ?_
    simp only [String.append_assoc]
    rw [String.toList_append]
    exact (begins_textAt l _ fun t ht => h t (by simp [words, ht])).append _
  | conditional c t e _, _, h => by
    rw [textAt]
    refine begins_parenthesized ?_
    simp only [String.append_assoc]
    rw [String.toList_append]
    exact (begins_textAt c _ fun t ht => h t (by simp [words, ht])).append _
  | lambda isStatic p b _, _, h => by
    rw [textAt]
    refine begins_parenthesized ?_
    simp only [String.append_assoc]
    cases isStatic
    · rw [if_neg Bool.false_ne_true, String.empty_append, String.toList_append]
      exact (begins_name (h (.identifier p) (by simp [words]))).append _
    · rw [if_pos rfl, String.toList_append]
      exact Begins.append ⟨'s', "tatic ".toList, rfl, by decide, by decide⟩ _

/-! ### The whole text -/

theorem stops_nil : Stops [] := nofun

theorem stops_cons {c : Char} {cs : List Char} (hc : isNameChar c = false) (hpoint : c ≠ '.') : Stops (c :: cs) := by
  intro d ds h
  cases h
  exact ⟨hc, fun h => absurd h hpoint⟩

variable {cs : List Char} {ts : List Token} {rest : List Char}

theorem stops_space : Stops (' ' :: cs) := stops_cons (by decide) (by decide)

theorem stops_rightParen : Stops (')' :: cs) := stops_cons (by decide) (by decide)

theorem spells_enclosed {needed : Bool} {text : String} (h : ∀ rest, Stops rest → Spells text.toList ts rest)
    (hrest : Stops rest) : Spells (parenthesized needed text).toList (enclosed needed ts) rest := by
  unfold parenthesized enclosed
  split
  · have hinner : Spells (text.toList ++ [')']) (ts ++ [.symbol .rightParen]) rest :=
      (h (')' :: rest) stops_rightParen).append (spells_delimiter (Or.inr (Or.inl rfl)))
    have htext : ("(" ++ text ++ ")").toList = ['('] ++ (text.toList ++ [')']) := by simp
    rw [htext]
    exact Spells.append (spells_delimiter (Or.inl rfl)) hinner
  · exact h rest hrest

theorem Begins.head (h : Begins cs) : ∀ d ∈ (cs ++ rest).head?, isSpace d = false ∧ d ≠ '=' := by
  obtain ⟨c, ds, rfl, hspace, hassign⟩ := h
  intro d hd
  obtain rfl : c = d := Option.some.inj hd
  exact ⟨hspace, hassign⟩

theorem spells_spaced (hcs : Begins cs) (h : Spells cs ts rest) : Spells (' ' :: cs) ts rest :=
  Spells.append (spells_space fun d hd => (hcs.head d hd).1) h

/-- A symbol between spaces, and what follows it. -/
theorem spells_between (s : Symbol) (hcs : Begins cs) (h : Spells cs ts rest) :
    Spells (' ' :: (s.text.toList ++ ' ' :: cs)) (.symbol s :: ts) rest := by
  have hsymbol : Spells (s.text.toList ++ ' ' :: cs) ([.symbol s] ++ ts) rest :=
    (spells_operator s).append (spells_spaced hcs h)
  refine Spells.append (spells_space fun d hd => ?_) hsymbol
  cases s <;> (obtain rfl := Option.some.inj hd; rfl)

theorem spells_signed (op : UnaryOp) (hcs : Begins cs) (h : Spells cs ts rest) :
    Spells (op.symbol.text.toList ++ cs) (.symbol op.symbol :: ts) rest :=
  (spells_sign op fun d hd => (hcs.head d hd).2).append h

/-- A name behind a point. -/
theorem stops_point {name : String} (h : IsName name) : Stops ('.' :: (name.toList ++ cs)) := by
  obtain ⟨-, c, ds, hname, hc, -⟩ := h
  intro d es heq
  cases heq
  refine ⟨by decide, fun _ d hd => ?_⟩
  rw [hname] at hd
  obtain rfl : c = d := Option.some.inj hd
  cases hdigit : c.isDigit with
  | false => rfl
  | true => exact absurd hc (by rw [isNameStart_of_isDigit hdigit]; exact Bool.false_ne_true)

/-- Further arguments begin with a comma. -/
theorem stops_textRest (es : List Expr) (hrest : Stops rest) : Stops ((textRest es).toList ++ rest) := by
  cases es with
  | nil =>
    rw [textRest]
    exact hrest
  | cons e es =>
    have htext : (textRest (e :: es)).toList ++ rest = ',' :: (' ' :: (textAt 0 e ++ textRest es).toList ++ rest) := by
      simp [textRest]
    rw [htext]
    exact stops_cons (by decide) (by decide)

theorem mem_wordsAll {t : Token} : ∀ {es : List Expr}, t ∈ wordsAll es ↔ ∃ e ∈ es, t ∈ e.words
  | [] => by simp [wordsAll]
  | e :: es => by simp [wordsAll, mem_wordsAll]

mutual

/-- The text of an expression spells its tokens, with the parentheses that it needs. -/
theorem spells_textAt : ∀ (e : Expr) {least : Nat} {rest : List Char}, e.Printed → Stops rest →
    Spells (textAt least e).toList (tokensAt least e) rest
  | literal v _, _, _, h, hrest => by
    rw [textAt, tokensAt]
    exact Literal.spells_textAt (h _ (by simp [words])) hrest
  | name n _, _, _, h, hrest => by
    rw [textAt, tokensAt]
    exact spells_name (h (.identifier n) (by simp [words])) hrest
  | this _, _, _, _, hrest => by
    rw [textAt, tokensAt]
    exact spells_keyword .this hrest
  | member o n _, _, rest, h, hrest => by
    have hn : IsName n := h (.identifier n) (by simp [words])
    have htext : (textAt 10 o ++ "." ++ n).toList = (textAt 10 o).toList ++ (['.'] ++ n.toList) := by simp
    rw [textAt, tokensAt, htext]
    refine (spells_textAt o (fun t ht => h t (by simp [words, ht])) (stops_point hn)).append ?_
    exact Spells.append (spells_delimiter (Or.inr (Or.inr (Or.inl rfl)))) (spells_name hn hrest)
  | call c args _, _, rest, h, hrest => by
    have htext : (textAt 10 c ++ "(" ++ textList args ++ ")").toList =
        (textAt 10 c).toList ++ (['('] ++ ((textList args).toList ++ [')'])) := by simp
    rw [textAt, tokensAt, htext]
    refine (spells_textAt c (fun t ht => h t (by simp [words, ht])) (stops_cons (by decide) (by decide))).append ?_
    refine Spells.append (spells_delimiter (Or.inl rfl)) ?_
    have hargs : ∀ arg ∈ args, arg.Printed := fun arg harg t ht =>
      h t (List.mem_append_right _ (mem_wordsAll.mpr ⟨arg, harg, ht⟩))
    exact (spells_textList args hargs stops_rightParen).append
      (spells_delimiter (Or.inr (Or.inl rfl)))
  | unary op e _, _, rest, h, hrest => by
    rw [textAt, tokensAt]
    refine spells_enclosed (fun rest hrest => ?_) hrest
    have he : e.Printed := fun t ht => h t (by simp [words, ht])
    rw [String.toList_append]
    split
    · have htext : "(" ++ textAt 0 e ++ ")" = parenthesized true (textAt 0 e) := by rw [parenthesized, if_pos rfl]
      rw [htext]
      exact spells_signed op (begins_parenthesized (begins_textAt e 0 he))
        (spells_enclosed (fun _ => spells_textAt e he) hrest)
    · exact spells_signed op (begins_textAt e 9 he) (spells_textAt e he hrest)
  | binary op l r _, _, rest, h, hrest => by
    rw [textAt, tokensAt]
    refine spells_enclosed (fun rest hrest => ?_) hrest
    have hr : r.Printed := fun t ht => h t (by simp [words, ht])
    have htext : (textAt (operandStrengths op).1 l ++ " " ++ op.symbol.text ++ " " ++
        textAt (operandStrengths op).2 r).toList = (textAt (operandStrengths op).1 l).toList ++
          ' ' :: (op.symbol.text.toList ++ ' ' :: (textAt (operandStrengths op).2 r).toList) := by simp
    rw [htext]
    exact (spells_textAt l (fun t ht => h t (by simp [words, ht])) stops_space).append
      (spells_between op.symbol (begins_textAt r _ hr) (spells_textAt r hr hrest))
  | conditional c t e _, _, rest, h, hrest => by
    rw [textAt, tokensAt]
    refine spells_enclosed (fun rest hrest => ?_) hrest
    have ht : t.Printed := fun w hw => h w (by simp [words, hw])
    have he : e.Printed := fun w hw => h w (by simp [words, hw])
    have htext : (textAt 2 c ++ " ? " ++ textAt 1 t ++ " : " ++ textAt 1 e).toList = (textAt 2 c).toList ++
        (' ' :: (Symbol.question.text.toList ++ ' ' :: (textAt 1 t).toList) ++
          ' ' :: (Symbol.colon.text.toList ++ ' ' :: (textAt 1 e).toList)) := by simp [Symbol.text]
    have htokens : tokensAt 2 c ++ .symbol .question :: (tokensAt 1 t ++ .symbol .colon :: tokensAt 1 e) =
        tokensAt 2 c ++ (.symbol .question :: tokensAt 1 t ++ .symbol .colon :: tokensAt 1 e) := by simp
    rw [htext, htokens]
    refine (spells_textAt c (fun w hw => h w (by simp [words, hw])) stops_space).append ?_
    exact (spells_between .question (begins_textAt t 1 ht) (spells_textAt t ht stops_space)).append
      (spells_between .colon (begins_textAt e 1 he) (spells_textAt e he hrest))
  | lambda isStatic p b _, _, rest, h, hrest => by
    rw [textAt, tokensAt]
    refine spells_enclosed (fun rest hrest => ?_) hrest
    have hp : IsName p := h (.identifier p) (by simp [words])
    have hb : b.Printed := fun t ht => h t (by simp [words, ht])
    have harrow : Spells (p.toList ++ ' ' :: (Symbol.arrow.text.toList ++ ' ' :: (textAt 0 b).toList))
        (.identifier p :: .symbol .arrow :: tokensAt 0 b) rest :=
      (spells_name hp stops_space).append (spells_between .arrow (begins_textAt b 0 hb) (spells_textAt b hb hrest))
    cases isStatic with
    | false =>
      have htext : ((if false = true then "static " else "") ++ p ++ " => " ++ textAt 0 b).toList =
          p.toList ++ ' ' :: (Symbol.arrow.text.toList ++ ' ' :: (textAt 0 b).toList) := by simp [Symbol.text]
      rw [htext]
      exact harrow
    | true =>
      have htext : ((if true = true then "static " else "") ++ p ++ " => " ++ textAt 0 b).toList =
          Keyword.static.text.toList ++
            ' ' :: (p.toList ++ ' ' :: (Symbol.arrow.text.toList ++ ' ' :: (textAt 0 b).toList)) := by
        simp [Symbol.text, Keyword.text]
      rw [htext]
      exact (spells_keyword .static stops_space).append (spells_spaced ((begins_name hp).append _) harrow)

/-- The text of arguments spells their tokens. -/
theorem spells_textList : ∀ (es : List Expr) {rest : List Char}, (∀ e ∈ es, e.Printed) → Stops rest →
    Spells (textList es).toList (tokensList es) rest
  | [], _, _, _ => by
    rw [textList, tokensList]
    exact spells_nil
  | e :: es, rest, h, hrest => by
    rw [textList, tokensList, String.toList_append]
    have hes := spells_textRest es (fun e' he' => h e' (List.mem_cons_of_mem _ he')) hrest
    exact (spells_textAt e (h e List.mem_cons_self) (stops_textRest es hrest)).append hes

/-- The text of further arguments spells their tokens. -/
theorem spells_textRest : ∀ (es : List Expr) {rest : List Char}, (∀ e ∈ es, e.Printed) → Stops rest →
    Spells (textRest es).toList (tokensRest es) rest
  | [], _, _, _ => by
    rw [textRest, tokensRest]
    exact spells_nil
  | e :: es, rest, h, hrest => by
    have htext : (", " ++ textAt 0 e ++ textRest es).toList =
        [','] ++ (' ' :: (textAt 0 e).toList ++ (textRest es).toList) := by simp
    rw [textRest, tokensRest, htext]
    have he := h e List.mem_cons_self
    have hes := spells_textRest es (fun e' he' => h e' (List.mem_cons_of_mem _ he')) hrest
    refine Spells.append (spells_delimiter (Or.inr (Or.inr (Or.inr rfl)))) ?_
    exact (spells_spaced (begins_textAt e 0 he) (spells_textAt e he (stops_textRest es hrest))).append hes

end

/-- The text of an expression is cut into its tokens. -/
theorem tokenize_text {e : Expr} (h : e.Printed) :
    ∃ stream, tokenize e.text = .ok stream ∧ stream.tokens.map Prod.fst = tokensAt 0 e :=
  tokenize_of_spells (spells_textAt e h stops_nil)

end Expr

end Reactive
