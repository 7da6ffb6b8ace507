import Reactive.Proofs.Outputs
import Reactive.Proofs.Parsing
import Reactive.Proofs.Printing

/-!
# Reactive.Proofs.TypeTexts — types are read back from their texts

* `TypeTokens t ts`: the grammar of types; the tokens `ts` are those of the type `t`.
* `Parse.Derives P x`: from tokens of a text, what a rule gives stands in the relation `P` to the tokens that it has
  read.  What is read as a type has tokens by the grammar (`Parse.derives_type`).
* `spells_type`: the text of a type is cut into its tokens.
* `Parse.reads_type`: the tokens of a type are read as that type, in front of what does not go on with it.
* `type_text_reads_back`: the text of a type that was read is read as that type, to its end.
-/

namespace Reactive

open Stateful

/-- The name `name` is carried on by the tokens to the name `whole`. -/
inductive Pointed : String → String → List Token → Prop
  | nil (name : String) : Pointed name name []
  | cons {name segment whole : String} {ts : List Token} (spelled : Lexer.IsName segment)
      (rest : Pointed (name ++ "." ++ segment) whole ts) :
      Pointed name whole (.symbol .dot :: .identifier segment :: ts)

/-- The tokens of a dotted name. -/
inductive NameTokens : String → List Token → Prop
  | mk {first whole : String} {ts : List Token} (spelled : Lexer.IsName first) (rest : Pointed first whole ts) :
      NameTokens whole (.identifier first :: ts)

/-- The question mark of a type that is nullable. -/
def markTokens (nullable : Bool) : List Token := if nullable then [.symbol .question] else []

mutual

/-- The tokens of a type. -/
inductive TypeTokens : TypeRef → List Token → Prop
  | plain {name : String} {ts : List Token} (named : NameTokens name ts) (nullable : Bool) :
      TypeTokens ⟨name, [], nullable⟩ (ts ++ markTokens nullable)
  | generic {name : String} {arg : TypeRef} {args : List TypeRef} {ts us vs : List Token} (named : NameTokens name ts)
      (first : TypeTokens arg us) (more : MoreTokens args vs) (nullable : Bool) :
      TypeTokens ⟨name, arg :: args, nullable⟩
        (ts ++ .symbol .less :: (us ++ (vs ++ .symbol .greater :: markTokens nullable)))

/-- The tokens of further type arguments, each behind a comma. -/
inductive MoreTokens : List TypeRef → List Token → Prop
  | nil : MoreTokens [] []
  | cons {arg : TypeRef} {args : List TypeRef} {us vs : List Token} (first : TypeTokens arg us)
      (more : MoreTokens args vs) : MoreTokens (arg :: args) (.symbol .comma :: (us ++ vs))

end

namespace Parse

variable {α β : Type} {P : α → List Token → Prop} {Q : β → List Token → Prop} {x : Parse α} {f : α → Parse β}

/-! ### What is read is derived by the grammar -/

/-- From tokens of a text, what a rule gives stands in a relation to the tokens that it has read. -/
def Derives (P : α → List Token → Prop) (x : Parse α) : Prop :=
  ∀ c : Cursor, c.Lexed → Stateful.Ends x c fun a c' => ∃ ts, P a ts ∧ c.kinds = ts ++ c'.kinds

theorem Derives.bind (h : Derives P x) (hf : ∀ a ts, P a ts → Derives (fun b us => Q b (ts ++ us)) (f a)) :
    Derives Q (x >>= f) := by
  intro c hc
  refine (h c hc).bind fun a c' ⟨ts, ha, hts⟩ => ?_
  have hc' : c'.Lexed := fun t ht => hc t (hts ▸ List.mem_append_right ts ht)
  refine (hf a ts ha c' hc').imp fun b c'' ⟨us, hb, hus⟩ => ?_
  exact ⟨ts ++ us, hb, by rw [hts, hus, List.append_assoc]⟩

theorem Derives.mono {P' : α → List Token → Prop} (h : Derives P x) (hP : ∀ a ts, P a ts → P' a ts) : Derives P' x := by
  intro c hc
  exact (h c hc).imp fun a c' ⟨ts, ha, hts⟩ => ⟨ts, hP a ts ha, hts⟩

theorem derives_pure {a : α} (h : P a []) : Derives P (pure a) := fun _ _ => ends_pure ⟨[], h, rfl⟩

theorem derives_remaining {f : Nat → Parse α} (h : ∀ k, Derives P (f k)) : Derives P (remaining >>= f) :=
  fun c hc => ends_remaining (h c.tokens.length c hc)

theorem derives_accept (s : Symbol) :
    Derives (fun b ts => ts = if b then [.symbol s] else []) (accept (.symbol s)) := by
  intro c _
  have hs : Token.symbol s ≠ .endOfFile := nofun
  refine (ends_accept hs c).imp fun b c' hread => ⟨_, rfl, ?_⟩
  cases b with
  | true => exact hread
  | false =>
    obtain rfl : c' = c := hread
    rfl

theorem derives_expect (s : Symbol) : Derives (fun _ ts => ts = [.symbol s]) (expect (.symbol s)) := by
  intro c _
  have hs : Token.symbol s ≠ .endOfFile := nofun
  exact (ends_expect hs c).imp fun _ _ hread => ⟨[.symbol s], rfl, hread⟩

theorem derives_identifier : Derives (fun n ts => ts = [.identifier n.1] ∧ Lexer.IsName n.1) identifier := by
  intro c hc n c' hrun
  have hread := ends_identifier c n c' hrun
  have hname : Lexer.IsName n.1 := (gives_identifier c hc n c' hrun).1
  exact ⟨_, ⟨rfl, hname⟩, hread⟩

theorem derives_dotted (name : String) (k : Nat) : Derives (Pointed name) (dotted name k) := by
  induction k generalizing name with
  | zero => exact derives_pure (.nil name)
  | succ k ih =>
    refine (derives_accept _).bind fun b ts hts => ?_
    subst hts
    cases b with
    | false => exact derives_pure (.nil name)
    | true =>
      refine derives_identifier.bind fun (segment, _) us ⟨hus, hsegment⟩ => ?_
      subst hus
      exact (ih (name ++ "." ++ segment)).mono fun whole vs hrest => .cons hsegment hrest

theorem derives_qualifiedName : Derives NameTokens qualifiedName := by
  refine derives_identifier.bind fun (first, _) ts ⟨hts, hfirst⟩ => derives_remaining fun k => ?_
  subst hts
  exact (derives_dotted first k).mono fun whole us hrest => .mk hfirst hrest

/-- The tokens of one or more type arguments. -/
inductive ArgTokens : List TypeRef → List Token → Prop
  | mk {arg : TypeRef} {args : List TypeRef} {us vs : List Token} (first : TypeTokens arg us)
      (more : MoreTokens args vs) : ArgTokens (arg :: args) (us ++ vs)

theorem derives_separated {x : Parse TypeRef} (h : Derives TypeTokens x) (k : Nat) :
    Derives ArgTokens (separated x k) := by
  induction k with
  | zero => exact h.bind fun t us ht => derives_pure (.mk ht .nil)
  | succ k ih =>
    refine h.bind fun t us ht => (derives_accept _).bind fun b ts hts => ?_
    subst hts
    cases b with
    | false => exact derives_pure (.mk ht .nil)
    | true =>
      refine ih.bind fun args vs hargs => derives_pure ?_
      obtain ⟨hfirst, hmore⟩ := hargs
      rw [if_pos rfl, List.append_nil, List.singleton_append]
      exact .mk ht (.cons hfirst hmore)

theorem derives_nullable {f : Bool → TypeRef} {P : TypeRef → List Token → Prop}
    (h : ∀ nullable, P (f nullable) (markTokens nullable)) :
    Derives P (do return f (← accept (.symbol .question))) := by
  refine (derives_accept _).bind fun b ts hts => derives_pure ?_
  subst hts
  rw [List.append_nil]
  exact h b

theorem derives_typeWithin (depth : Nat) : Derives TypeTokens (typeWithin depth) := by
  induction depth with
  | zero => exact derives_qualifiedName.bind fun name ts hname => derives_nullable fun q => .plain hname q
  | succ depth ih =>
    refine derives_qualifiedName.bind fun name ts hname => (derives_accept _).bind fun b us hus => ?_
    subst hus
    cases b with
    | false => exact derives_nullable fun q => .plain hname q
    | true =>
      refine derives_remaining fun k => (derives_separated ih k).bind fun args vs hargs => ?_
      refine (derives_expect _).bind fun _ ws hws => derives_nullable fun q => ?_
      subst hws
      obtain ⟨hfirst, hmore⟩ := hargs
      have hgeneric := TypeTokens.generic hname hfirst hmore q
      simpa only [if_true, List.singleton_append, List.append_assoc] using hgeneric

theorem derives_type : Derives TypeTokens type := derives_remaining derives_typeWithin

end Parse

/-! ### The text of a type is cut into its tokens -/

namespace Lexer

variable {name whole : String} {t : TypeRef} {args : List TypeRef} {ts us : List Token} {rest : List Char}

/-- What may stand behind the name of a type. -/
def Closes (rest : List Char) : Prop := ∀ d ∈ rest.head?, d = ',' ∨ d = '>' ∨ d = '?' ∨ d = '<'

theorem Closes.stops (h : Closes rest) : Stops rest := by
  intro c cs hrest
  subst hrest
  have hc : isNameChar c = false ∧ c ≠ '.' := by
    rcases h c rfl with rfl | rfl | rfl | rfl <;> decide
  exact ⟨hc.1, fun hpoint => absurd hpoint hc.2⟩

/-- What may stand behind a type: nothing, or a comma or a bracket. -/
def Separates (rest : List Char) : Prop := ∀ d ∈ rest.head?, d = ',' ∨ d = '>'

theorem Separates.closes (h : Separates rest) : Closes rest := fun d hd => (h d hd).imp_right Or.inl

/-- A mark of a type that does not make another symbol with what follows. -/
theorem spells_mark {c : Char} {s : Symbol} (hc : (c, s) ∈ [('<', Symbol.less), ('>', .greater), ('?', .question)])
    (hpair : ∀ d ∈ rest.head?, Symbol.ofPair? c d = none) : Spells [c] [.symbol s] rest := by
  have hnone : rest.head?.bind (Symbol.ofPair? c) = none := by
    cases hd : rest.head? with
    | none => rfl
    | some d => exact hpair d hd
  have hnext : next c rest = symbol c rest := by
    simp only [List.mem_cons, Prod.mk.injEq, List.not_mem_nil, or_false] at hc
    rcases hc with ⟨rfl, -⟩ | ⟨rfl, -⟩ | ⟨rfl, -⟩ <;> rfl
  have hone : Symbol.ofChar? c = some s := by
    simp only [List.mem_cons, Prod.mk.injEq, List.not_mem_nil, or_false] at hc
    rcases hc with ⟨rfl, rfl⟩ | ⟨rfl, rfl⟩ | ⟨rfl, rfl⟩ <;> rfl
  have hread : next c ([] ++ rest) = (.token (.symbol s), 0) := by
    rw [List.nil_append, hnext, symbol, hnone]
    dsimp only
    rw [hone]
  exact spells_token hread

theorem spells_pointed (h : Pointed name whole ts) (hrest : Stops rest) :
    ∃ cs, whole.toList = name.toList ++ cs ∧ Spells cs ts rest ∧ Stops (cs ++ rest) := by
  induction h with
  | nil name => exact ⟨[], by rw [List.append_nil], spells_nil, hrest⟩
  | @cons name segment whole ts spelled _ ih =>
    obtain ⟨cs, hwhole, hcs, hstops⟩ := ih
    have hsegment : Spells (segment.toList ++ cs) (.identifier segment :: ts) rest :=
      (spells_name spelled hstops).append hcs
    have hpoint : Spells ['.'] [.symbol .dot] (segment.toList ++ cs ++ rest) :=
      spells_delimiter (Or.inr (Or.inr (Or.inl rfl)))
    refine ⟨'.' :: (segment.toList ++ cs), ?_, hpoint.append hsegment, ?_⟩
    · rw [hwhole]
      simp
    · rw [List.cons_append, List.append_assoc]
      exact Expr.stops_point spelled

theorem spells_nameTokens (h : NameTokens name ts) (hrest : Stops rest) : Spells name.toList ts rest := by
  obtain ⟨hfirst, hmore⟩ := h
  obtain ⟨cs, hname, hcs, hstops⟩ := spells_pointed hmore hrest
  rw [hname]
  exact (spells_name hfirst hstops).append hcs

theorem spells_nullable (nullable : Bool) (hrest : Separates rest) :
    Spells (if nullable then "?" else "").toList (markTokens nullable) rest ∧
      Closes ((if nullable then "?" else "").toList ++ rest) := by
  cases nullable with
  | false => exact ⟨spells_nil, hrest.closes⟩
  | true =>
    refine ⟨spells_mark (by decide) fun d hd => ?_, ?_⟩
    · rcases hrest d hd with rfl | rfl <;> decide
    · rintro _ ⟨⟩
      exact Or.inr (Or.inr (Or.inl rfl))

theorem starts_nameTokens (h : NameTokens name ts) : ∃ c cs, name.toList = c :: cs ∧ isNameStart c = true := by
  obtain ⟨⟨-, c, cs, hfirst, hc, -⟩, hmore⟩ := h
  obtain ⟨ds, hname, -⟩ := spells_pointed hmore Expr.stops_nil
  exact ⟨c, cs ++ ds, by rw [hname, hfirst, List.cons_append], hc⟩

theorem named_of_typeTokens (h : TypeTokens t ts) : ∃ us, NameTokens t.name us := by
  cases h with
  | plain named | generic named => exact ⟨_, named⟩

/-- A type begins as a name does. -/
theorem head_type (h : TypeTokens t ts) (rest : List Char) :
    ∀ d ∈ (t.text.toList ++ rest).head?, isNameStart d = true := by
  obtain ⟨us, hnamed⟩ := named_of_typeTokens h
  obtain ⟨c, cs, hname, hc⟩ := starts_nameTokens hnamed
  obtain ⟨name, args, nullable⟩ := t
  intro d hd
  rw [TypeRef.text, String.toList_append, String.toList_append, hname] at hd
  obtain rfl : c = d := Option.some.inj hd
  exact hc

theorem ofPair?_of_isNameStart {c d : Char} (h : isNameStart d = true) : Symbol.ofPair? c d = none := by
  unfold Symbol.ofPair?
  split <;> first | rfl | exact absurd h (by decide)

mutual

-- Whether `>` and `?` stand alone depends on what follows, so what follows goes along with the type: behind an argument
-- there is a comma or a bracket, and behind the bracket there may be a question mark.

/-- The text of a type spells the tokens of the type. -/
theorem spells_type : ∀ {t : TypeRef} {ts : List Token} {rest : List Char}, TypeTokens t ts → Separates rest →
    Spells t.text.toList ts rest
  | _, _, _, .plain named nullable, hrest => by
    obtain ⟨hmark, hcloses⟩ := spells_nullable nullable hrest
    rw [TypeRef.text, TypeRef.textArgs, String.append_empty, String.toList_append]
    exact (spells_nameTokens named hcloses.stops).append hmark
  | _, _, rest, @TypeTokens.generic name arg args ts us vs named first more nullable, hrest => by
    obtain ⟨hmark, hcloses⟩ := spells_nullable nullable hrest
    obtain ⟨hmore, hseparates⟩ := spells_more more hcloses
    have hargs := ((spells_type first hseparates).append hmore).append hmark
    have hless : Spells ['<'] [.symbol .less]
        (arg.text.toList ++ (TypeRef.textRest args).toList ++ (if nullable then "?" else "").toList ++ rest) := by
      refine spells_mark (by decide) fun d hd => ?_
      rw [List.append_assoc, List.append_assoc] at hd
      exact ofPair?_of_isNameStart (head_type first _ d hd)
    have hcloses' : Closes (['<'] ++ (arg.text.toList ++ (TypeRef.textRest args).toList ++
        (if nullable then "?" else "").toList) ++ rest) := by
      rintro _ ⟨⟩
      exact Or.inr (Or.inr (Or.inr rfl))
    have hspells := (spells_nameTokens named hcloses'.stops).append (hless.append hargs)
    simpa [TypeRef.text, TypeRef.textArgs] using hspells

/-- Further type arguments and the bracket behind them. -/
theorem spells_more : ∀ {args : List TypeRef} {ts : List Token} {rest : List Char}, MoreTokens args ts → Closes rest →
    Spells (TypeRef.textRest args).toList (ts ++ [.symbol .greater]) rest ∧
      Separates ((TypeRef.textRest args).toList ++ rest)
  | _, _, rest, .nil, hrest => by
    refine ⟨spells_mark (by decide) fun d hd => ?_, ?_⟩
    · rcases hrest d hd with rfl | rfl | rfl | rfl <;> decide
    · rintro _ ⟨⟩
      exact Or.inr rfl
  | _, _, rest, @MoreTokens.cons arg args us vs first more, hrest => by
    obtain ⟨hmore, hseparates⟩ := spells_more more hrest
    have hargs := (spells_type first hseparates).append hmore
    have hspace : Spells [' '] [] (arg.text.toList ++ (TypeRef.textRest args).toList ++ rest) := by
      refine spells_space fun d hd => ?_
      rw [List.append_assoc] at hd
      exact isSpace_of_isNameStart (head_type first _ d hd)
    have hcomma :
        Spells [','] [.symbol .comma] ([' '] ++ (arg.text.toList ++ (TypeRef.textRest args).toList) ++ rest) :=
      spells_delimiter (Or.inr (Or.inr (Or.inr rfl)))
    have hspells := hcomma.append (hspace.append hargs)
    refine ⟨by simpa [TypeRef.textRest] using hspells, ?_⟩
    have htext : (TypeRef.textRest (arg :: args)).toList ++ rest =
        ',' :: ' ' :: (arg.text ++ TypeRef.textRest args).toList ++ rest := by simp [TypeRef.textRest]
    rw [htext]
    rintro _ ⟨⟩
    exact Or.inl rfl

end

end Lexer

/-! ### The tokens of a type are read as that type -/

namespace Parse

variable {name whole : String} {t : TypeRef} {args : List TypeRef} {ts us vs rest : List Token} {c : Cursor}

/-- What stands behind a type does not go on with it. -/
structure Behind (rest : List Token) : Prop where
  dot : headToken rest ≠ .symbol .dot
  less : headToken rest ≠ .symbol .less
  question : headToken rest ≠ .symbol .question

theorem behind_nil : Behind [] := ⟨nofun, nofun, nofun⟩

theorem behind_comma : Behind (.symbol .comma :: rest) := ⟨nofun, nofun, nofun⟩

theorem behind_greater : Behind (.symbol .greater :: rest) := ⟨nofun, nofun, nofun⟩

/-- Reading ends with `a` and leaves `rest`. -/
def Reaches {α : Type} (x : Parse α) (c : Cursor) (a : α) (rest : List Token) : Prop :=
  Within True x c fun b c' => b = a ∧ c'.kinds = rest

theorem Reaches.bind {α β : Type} {x : Parse α} {f : α → Parse β} {a : α} {b : β} (h : Reaches x c a us)
    (hf : ∀ c', c'.kinds = us → Reaches (f a) c' b rest) : Reaches (x >>= f) c b rest :=
  h.bind_true fun _ c' ⟨ha, hc'⟩ => ha ▸ hf c' hc'

theorem reads_pointed (h : Pointed name whole ts) {k : Nat} (hk : ts.length ≤ k) (hrest : headToken rest ≠ .symbol .dot)
    (hc : c.kinds = ts ++ rest) : Reaches (dotted name k) c whole rest := by
  induction h generalizing k c with
  | nil name =>
    have hend : headToken c.kinds ≠ .symbol .dot := hc ▸ hrest
    cases k with
    | zero => exact within_of_ok rfl ⟨rfl, hc⟩
    | succ k => exact within_accept_of_ne hend (within_of_ok rfl ⟨rfl, hc⟩)
  | cons spelled more ih =>
    cases k with
    | zero => simp at hk
    | succ k =>
      refine within_accept hc fun c₁ hc₁ => within_identifier hc₁ fun span c₂ hc₂ => ?_
      exact ih (by simp at hk; omega) hc₂

/-- As many rounds are allowed as there are tokens. -/
theorem reaches_remaining {α : Type} {f : Nat → Parse α} {a : α} (hc : c.kinds = ts ++ us)
    (h : ∀ k, ts.length ≤ k → Reaches (f k) c a rest) : Reaches (remaining >>= f) c a rest := by
  have hremaining : remaining c = .ok c.tokens.length c := rfl
  have hlength : ts.length ≤ c.tokens.length := by
    rw [← c.length_kinds, hc, List.length_append]
    exact Nat.le_add_right _ _
  exact within_bind_of_ok hremaining (h _ hlength)

theorem reads_nameTokens (h : NameTokens name ts) (hrest : headToken rest ≠ .symbol .dot) (hc : c.kinds = ts ++ rest) :
    Reaches qualifiedName c name rest := by
  cases h with
  | @mk first whole ts hfirst hmore =>
    refine within_identifier hc fun span c₁ hc₁ => reaches_remaining hc₁ fun k hk => ?_
    exact reads_pointed hmore hk hrest hc₁

/-- What is behind the arguments of a type is its question mark, if it has one. -/
theorem reads_nullable (f : Bool → TypeRef) {nullable : Bool} (hrest : Behind rest)
    (hc : c.kinds = markTokens nullable ++ rest) :
    Reaches (do return f (← accept (.symbol .question))) c (f nullable) rest := by
  cases nullable with
  | true => exact within_accept hc fun c₁ hc₁ => within_of_ok rfl ⟨rfl, hc₁⟩
  | false =>
    have hend : headToken c.kinds ≠ .symbol .question := by
      rw [hc]
      exact hrest.question
    exact within_accept_of_ne hend (within_of_ok rfl ⟨rfl, hc⟩)

theorem headToken_markTokens {s : Symbol} {nullable : Bool} (hs : s ≠ .question) (hrest : headToken rest ≠ .symbol s) :
    headToken (markTokens nullable ++ rest) ≠ .symbol s := by
  cases nullable with
  | true => exact fun h => hs (Token.symbol.inj h).symm
  | false => exact hrest

/-- A rule reads the types that have at most `depth` tokens. -/
def ReadsTypes (depth : Nat) (x : Parse TypeRef) : Prop :=
  ∀ {t : TypeRef} {ts rest : List Token} {c : Cursor}, TypeTokens t ts → ts.length ≤ depth → Behind rest →
    c.kinds = ts ++ rest → Reaches x c t rest

/-- The tokens of type arguments are read as the arguments. -/
theorem reads_separated {depth : Nat} {x : Parse TypeRef} (hx : ReadsTypes depth x) {arg : TypeRef} {k : Nat}
    (first : TypeTokens arg us) (more : MoreTokens args vs) (hus : us.length ≤ depth) (hvs : vs.length ≤ depth)
    (hk : vs.length ≤ k) (hc : c.kinds = us ++ (vs ++ .symbol .greater :: rest)) :
    Reaches (separated x k) c (arg :: args) (.symbol .greater :: rest) := by
  induction args generalizing arg us vs k c with
  | nil =>
    cases more
    have hfirst := hx first hus behind_greater hc
    cases k with
    | zero => exact hfirst.bind fun c₁ hc₁ => within_of_ok rfl ⟨rfl, hc₁⟩
    | succ k =>
      refine hfirst.bind fun c₁ hc₁ => within_accept_of_ne ?_ (within_of_ok rfl ⟨rfl, hc₁⟩)
      rw [hc₁]
      nofun
  | cons arg' args ih =>
    obtain ⟨⟩ | @⟨_, _, us', vs', second, more⟩ := more
    simp only [List.length_append, List.length_cons] at hvs hk
    obtain ⟨k, rfl⟩ : ∃ j, k = j + 1 := ⟨k - 1, by omega⟩
    have hkinds : c.kinds = us ++ .symbol .comma :: (us' ++ (vs' ++ .symbol .greater :: rest)) := by simpa using hc
    have hfirst := hx first hus behind_comma hkinds
    refine hfirst.bind fun c₁ hc₁ => within_accept hc₁ fun c₂ hc₂ => ?_
    have hmore := ih second more (by omega) (by omega) (by omega : vs'.length ≤ k) hc₂
    exact hmore.bind fun c₃ hc₃ => within_of_ok rfl ⟨rfl, hc₃⟩

/-- The tokens of a type are read as the type. -/
theorem reads_typeWithin (depth : Nat) : ReadsTypes depth (typeWithin depth) := by
  induction depth with
  | zero =>
    -- There is no type without tokens.
    intro t ts rest c htokens hdepth
    obtain ⟨named, nullable⟩ | ⟨named, first, more, nullable⟩ := htokens
    · obtain ⟨hfirst, hmore⟩ := named
      simp at hdepth
    · simp at hdepth
  | succ depth ih =>
    intro t ts rest c htokens hdepth hrest hc
    cases htokens with
    | @plain name ts named nullable =>
      rw [List.append_assoc] at hc
      have hname := reads_nameTokens named (headToken_markTokens nofun hrest.dot) hc
      refine hname.bind fun c₁ hc₁ => within_accept_of_ne ?_ ?_
      · rw [hc₁]
        exact headToken_markTokens nofun hrest.less
      · exact reads_nullable (fun q => ⟨name, [], q⟩) hrest hc₁
    | @generic name arg args ts us vs named first more nullable =>
      simp only [List.length_append, List.length_cons] at hdepth
      have hkinds : c.kinds =
          ts ++ .symbol .less :: (us ++ (vs ++ .symbol .greater :: (markTokens nullable ++ rest))) := by simpa using hc
      have hname := reads_nameTokens named (by nofun) hkinds
      refine hname.bind fun c₁ hc₁ => within_accept hc₁ fun c₂ hc₂ => ?_
      have hc₂' : c₂.kinds = (us ++ vs) ++ .symbol .greater :: (markTokens nullable ++ rest) := by
        rw [hc₂, List.append_assoc]
      refine reaches_remaining hc₂' fun k hk => ?_
      rw [List.length_append] at hk
      have hargs := reads_separated ih first more (by omega) (by omega) (by omega : vs.length ≤ k) hc₂
      refine hargs.bind fun c₃ hc₃ => within_expect hc₃ fun c₄ hc₄ => ?_
      exact reads_nullable (fun q => ⟨name, arg :: args, q⟩) hrest hc₄

theorem reads_type (h : TypeTokens t ts) (hrest : Behind rest) (hc : c.kinds = ts ++ rest) : Reaches type c t rest :=
  reaches_remaining hc fun k hk => reads_typeWithin k h hk hrest hc

end Parse

/-! ### Back from the text -/

variable {text : String} {stream : TokenStream} {c c' : Cursor} {t t' : TypeRef} {ts ts' : List Token}

/-- The text of a type that has tokens is read as that type, to its end. -/
theorem TypeTokens.reads_text (h : TypeTokens t ts) : ∃ stream c', tokenize t.text = .ok stream ∧
    Parse.type stream.cursor = .ok t c' ∧ c'.tokens = [] := by
  have hend : Lexer.Separates [] := nofun
  obtain ⟨stream, hstream, hkinds⟩ := Lexer.tokenize_of_spells (Lexer.spells_type h hend)
  have hc : stream.cursor.kinds = ts ++ [] := by
    rw [List.append_nil]
    exact hkinds
  obtain ⟨-, t', c', hread, rfl, hc'⟩ | ⟨hdeep, -⟩ := Parse.reads_type h Parse.behind_nil hc
  · exact ⟨stream, c', hstream, hread, List.map_eq_nil_iff.mp hc'⟩
  · exact absurd trivial hdeep

/-- Types that have tokens are told apart by their texts. -/
theorem TypeTokens.eq_of_text (h : TypeTokens t ts) (h' : TypeTokens t' ts') (htext : t.text = t'.text) : t = t' := by
  obtain ⟨stream, c, hstream, hread, -⟩ := h.reads_text
  obtain ⟨stream', c', hstream', hread', -⟩ := h'.reads_text
  rw [← htext, hstream] at hstream'
  cases hstream'
  rw [hread] at hread'
  cases hread'
  rfl

/-- **Types are read back from their texts.**  Where a type is read from the tokens of a text, its own text has no
fault, and reading a type from that gives the same type and leaves nothing. -/
theorem type_text_reads_back (lexed : tokenize text = .ok stream) (within : c.tokens <:+ stream.tokens)
    (read : Parse.type c = .ok t c') : ∃ stream' c'', tokenize t.text = .ok stream' ∧
      Parse.type stream'.cursor = .ok t c'' ∧ c''.tokens = [] := by
  obtain ⟨before, hbefore⟩ := within
  have hlexed : c.Lexed := (Cursor.lexed_of_tokenize lexed).behind hbefore.symm
  obtain ⟨ts, htokens, -⟩ := Parse.derives_type c hlexed t c' read
  exact htokens.reads_text

/-- A type with marks and arguments inside each other, in front of the name of a member. -/
theorem nested_type_reads_back : ∃ stream t c', tokenize "Map<A.B<int?, C<D>>?, E>? Items" = .ok stream ∧
    Parse.type stream.cursor = .ok t c' ∧ t.text = "Map<A.B<int?, C<D>>?, E>?" ∧
      ∃ stream' c'', tokenize t.text = .ok stream' ∧ Parse.type stream'.cursor = .ok t c'' ∧ c''.tokens = [] := by
  have hchecked : (tokenize "Map<A.B<int?, C<D>>?, E>? Items").toOption.any (fun stream =>
      (Parse.type.run' stream.cursor).any (·.text = "Map<A.B<int?, C<D>>?, E>?")) = true := by decide +kernel
  obtain ⟨stream, hstream, hchecked⟩ := exists_of_toOption_any hchecked
  obtain ⟨t, hrun, htext⟩ := (Option.any_eq_true _ _).mp hchecked
  have hread := eq_ok_of_run' hrun
  exact ⟨stream, t, _, hstream, hread, of_decide_eq_true htext,
    type_text_reads_back hstream (List.suffix_refl _) hread⟩

end Reactive
