import Mathlib.Data.List.TakeWhile
import Reactive.Json.Number
import Reactive.Json.Reader
import Reactive.Proofs.Spelling

/-!
# Reactive.Proofs.Written — written JSON is read back

* `Ends`: what may follow a number; in front of it an integer is read up to its last digit (`readNumber_int`).
* `readString_written`: the characters of a string are read off their escaped forms, whatever they are.
* `Plain j`: the value has a text of its own, and its numbers are integers.
* `Reads fuel text j`: behind white space the text is read as the value; `ReadsItems` and `ReadsFields` say it of the
  items of an array and of the fields of an object, each with one rule for the last of them and one for the others.
* `parse?_pretty`: the text of a plain value, on several lines, is read as that value.
-/

namespace Reactive.Json

variable {c : Char} {cs s rest : List Char}

/-! ### Integers -/

theorem isDigit_of_mem_toDigits {n : Nat} (h : c ∈ Nat.toDigits 10 n) : c.isDigit = true :=
  Nat.isDigit_of_mem_toDigits (by omega) (by omega) h

/-- The digits of a number that is not zero do not begin with one. -/
theorem head?_toDigits {n : Nat} (h : 0 < n) : (Nat.toDigits 10 n).head? ≠ some '0' := by
  induction n using Nat.strong_induction_on with
  | _ n ih =>
    rw [Nat.toDigits_eq_if (by omega)]
    split
    · rename_i hlt
      have hdigit : ∀ d < 10, 0 < d → Nat.digitChar d ≠ '0' := by decide
      simpa using hdigit n hlt h
    · rw [List.head?_append, Option.or_of_isSome]
      · exact ih (n / 10) (by omega) (by omega)
      · exact List.isSome_head?.mpr Nat.toDigits_ne_nil

/-- The text of an integer: its digits, with a sign before those of a negative one. -/
theorem toList_toString_int (i : Int) :
    (toString i).toList = (if i < 0 then ['-'] else []) ++ Nat.toDigits 10 i.natAbs := by
  cases i with
  | ofNat n =>
    rw [if_neg (by simp)]
    show (Nat.repr n).toList = _
    rw [Nat.repr_eq_ofList_toDigits, String.toList_ofList]
    rfl
  | negSucc n =>
    rw [if_pos (Int.negSucc_lt_zero n)]
    show ("-" ++ Nat.repr (n + 1)).toList = _
    rw [String.toList_append, Nat.repr_eq_ofList_toDigits]
    exact congrArg ('-' :: ·) String.toList_ofList

theorem toList_toString_nat (n : Nat) : (toString n).toList = Nat.toDigits 10 n := by
  rw [Nat.toString_eq_ofList_toDigits, String.toList_ofList]

/-- The text does not go on with a number that stands before it. -/
def Ends (rest : List Char) : Prop := ∀ c ∈ rest.head?, c.isDigit = false ∧ c ≠ '.' ∧ c ≠ 'e' ∧ c ≠ 'E'

theorem readWhole_toDigits (n : Nat) (hrest : Ends rest) :
    readWhole (Nat.toDigits 10 n ++ rest) = some (Nat.toDigits 10 n, rest) := by
  have htake : (Nat.toDigits 10 n ++ rest).takeWhile Char.isDigit = Nat.toDigits 10 n :=
    Lexer.takeWhile_append_of_head (fun _ => isDigit_of_mem_toDigits) fun d hd => (hrest d hd).1
  have hdrop : (Nat.toDigits 10 n ++ rest).dropWhile Char.isDigit = rest := by
    have hsplit := List.takeWhile_append_dropWhile (p := Char.isDigit) (l := Nat.toDigits 10 n ++ rest)
    rw [htake] at hsplit
    exact List.append_cancel_left hsplit
  have hdigits : readDigits (Nat.toDigits 10 n ++ rest) = some (Nat.toDigits 10 n, rest) := by
    unfold readDigits
    rw [htake, hdrop]
    cases hds : Nat.toDigits 10 n with
    | nil => exact absurd hds Nat.toDigits_ne_nil
    | cons d ds => rfl
  have hzero : ((Nat.toDigits 10 n).head? = some '0' && decide ((Nat.toDigits 10 n).length > 1)) = false := by
    by_cases hn : n = 0
    · subst hn
      rfl
    · simp [head?_toDigits (Nat.pos_of_ne_zero hn)]
  unfold readWhole
  rw [hdigits]
  show (if _ then none else some (Nat.toDigits 10 n, rest)) = _
  rw [hzero]
  rfl

theorem readFraction_of_ends (hrest : Ends rest) : readFraction rest = some ([], rest) := by
  cases rest with
  | nil => rfl
  | cons c cs =>
    unfold readFraction
    split
    · exact absurd rfl (hrest '.' (by simp_all)).2.1
    · rfl

theorem readExponent_of_ends (hrest : Ends rest) : readExponent rest = some ([], rest) := by
  cases rest with
  | nil => rfl
  | cons c cs =>
    obtain ⟨-, -, he, hE⟩ := hrest c rfl
    simp [readExponent, he, hE]

/-- An integer is read up to where it ends. -/
theorem readNumber_int (i : Int) (hrest : Ends rest) :
    readNumber ((toString i).toList ++ rest) = some ((toString i).toList, rest) := by
  have hread (sign : List Char) : ((readWhole (Nat.toDigits 10 i.natAbs ++ rest)).bind fun whole =>
      (readFraction whole.2).bind fun fraction => (readExponent fraction.2).bind fun exponent =>
        some (sign ++ whole.1 ++ fraction.1 ++ exponent.1, exponent.2)) =
      some (sign ++ Nat.toDigits 10 i.natAbs, rest) := by
    rw [readWhole_toDigits _ hrest, Option.bind_some, readFraction_of_ends hrest, Option.bind_some,
      readExponent_of_ends hrest, Option.bind_some, List.append_nil, List.append_nil]
  rw [toList_toString_int]
  split
  · exact hread ['-']
  · obtain ⟨d, ds, hds⟩ := List.exists_cons_of_ne_nil (Nat.toDigits_ne_nil (n := i.natAbs) (b := 10))
    have hd : d.isDigit = true := isDigit_of_mem_toDigits (hds ▸ List.mem_cons_self)
    rw [hds] at hread ⊢
    unfold readNumber
    split
    rename_i sign cs hsign
    split at hsign
    · rename_i hminus
      cases hminus
      exact absurd hd (by decide)
    · cases hsign
      exact hread []

/-! ### Strings -/

theorem hexDigit?_digitChar : ∀ d < 16, hexDigit? (Nat.digitChar d) = some d := by decide

theorem hexUnit?_low {n : Nat} (h : n < 32) :
    hexUnit? '0' '0' (Nat.digitChar (n / 16)) (Nat.digitChar (n % 16)) = some n := by
  unfold hexUnit?
  rw [hexDigit?_digitChar (n / 16) (by omega), hexDigit?_digitChar (n % 16) (by omega)]
  show some (((0 * 16 + 0) * 16 + n / 16) * 16 + n % 16) = some n
  congr 1
  omega

theorem readString_escape {d : Char} (hd : simpleEscape? d = some c) (h : readString cs = some (s, rest)) :
    readString ('\\' :: d :: cs) = some (c :: s, rest) := by
  rw [readString, hd, h]
  · rfl
  · rintro a b c' d' cs' ⟨⟩
    cases hd

theorem readString_unit (hc : c.toNat < 32) (h : readString cs = some (s, rest)) :
    readString ('\\' :: 'u' :: '0' :: '0' :: Nat.digitChar (c.toNat / 16) :: Nat.digitChar (c.toNat % 16) :: cs) =
      some (c :: s, rest) := by
  rw [readString, hexUnit?_low hc, Option.bind_eq_bind, Option.bind_some, if_neg (by omega), h, Char.ofNat_toNat]
  rfl

theorem readString_plain (hquote : c ≠ '"') (hslash : c ≠ '\\') (hc : ¬ c.toNat < 32)
    (h : readString cs = some (s, rest)) : readString (c :: cs) = some (c :: s, rest) := by
  rw [readString, if_neg hquote, if_neg (by simpa [hslash] using hc), h]
  · rfl
  · intro a b c' d' cs' hcs _
    exact hslash hcs
  · intro d cs' hcs _
    exact hslash hcs

/-- Whatever a character is written as, it is read off it. -/
theorem readString_writeChar (c : Char) (h : readString cs = some (s, rest)) :
    readString (writeChar c ++ cs) = some (c :: s, rest) := by
  unfold writeChar
  split_ifs with hquote hslash
  · subst hquote
    exact readString_escape rfl h
  · subst hslash
    exact readString_escape rfl h
  iterate 5
    · subst_vars
      exact readString_escape rfl h
  · rename_i hc
    exact readString_unit hc h
  · rename_i hc
    exact readString_plain hquote hslash hc h

theorem readString_written : ∀ (s rest : List Char), readString (s.flatMap writeChar ++ '"' :: rest) = some (s, rest)
  | [], rest => readString_quote rest
  | c :: s, rest => by
    rw [List.flatMap_cons, List.append_assoc]
    exact readString_writeChar c (readString_written s rest)

theorem readText_written (s : String) (rest : List Char) :
    readText (s.toList.flatMap writeChar ++ '"' :: rest) = some (some s, rest) := by
  rw [readText, readString_written]
  simp

theorem toList_writeString (s : String) (rest : List Char) :
    (writeString s).toList ++ rest = '"' :: (s.toList.flatMap writeChar ++ '"' :: rest) := by
  rw [writeString, String.toList_append, String.toList_append, String.toList_ofList]
  simp

/-! ### Plain values -/

mutual

/-- The value has a text of its own, and its numbers are integers. -/
def Plain : Json → Prop
  | null | bool _ | string _ => True
  | number text => ∃ i : Int, text = toString i
  | array items => PlainAll items
  | object fields => PlainFields fields
  | textless => False

/-- The items are plain. -/
def PlainAll : List Json → Prop
  | [] => True
  | j :: js => Plain j ∧ PlainAll js

/-- The values of the fields are plain. -/
def PlainFields : List (String × Json) → Prop
  | [] => True
  | (_, j) :: fs => Plain j ∧ PlainFields fs

end

theorem skipBlank_newLine (depth : Nat) (cs : List Char) :
    skipBlank ((newLine depth).toList ++ cs) = skipBlank cs := by
  unfold skipBlank newLine
  rw [String.toList_append, List.append_assoc, String.toList_ofList]
  have hblank : ∀ n : Nat, (List.replicate n ' ' ++ cs).dropWhile isBlank = cs.dropWhile isBlank := by
    intro n
    induction n with
    | zero => rfl
    | succ n ih => exact ih
  rw [String.toList_ofList]
  exact hblank (2 * depth)

/-- A text that begins neither with white space nor with the end of a list. -/
def Begins (cs : List Char) : Prop := ∃ c cs', cs = c :: cs' ∧ isBlank c = false ∧ c ≠ ']'

theorem Begins.append (h : Begins cs) (rest : List Char) : Begins (cs ++ rest) := by
  obtain ⟨c, cs', rfl, hc⟩ := h
  exact ⟨c, cs' ++ rest, rfl, hc⟩

theorem Begins.skipBlank_eq (h : Begins cs) : skipBlank cs = cs := by
  obtain ⟨c, cs', rfl, hc, -⟩ := h
  exact List.dropWhile_cons_of_neg (by simp [hc])

theorem exists_cons_int (i : Int) : ∃ c s, (toString i).toList = c :: s ∧ (c.isDigit = true ∨ c = '-') := by
  rw [toList_toString_int]
  split
  · exact ⟨_, _, rfl, .inr rfl⟩
  · obtain ⟨d, ds, hds⟩ := List.exists_cons_of_ne_nil (Nat.toDigits_ne_nil (n := i.natAbs) (b := 10))
    exact ⟨d, ds, hds, .inl (isDigit_of_mem_toDigits (hds ▸ List.mem_cons_self))⟩

theorem begins_int (i : Int) : Begins (toString i).toList := by
  obtain ⟨c, s, hc, hstart⟩ := exists_cons_int i
  refine ⟨c, s, hc, ?_, ?_⟩
  · by_contra hblank
    simp only [isBlank, Bool.not_eq_false, Bool.or_eq_true, decide_eq_true_eq] at hblank
    rcases hblank with ((rfl | rfl) | rfl) | rfl <;> exact absurd hstart (by decide)
  · rintro rfl
    exact absurd hstart (by decide)

theorem begins_prettyAt (depth : Nat) : ∀ {j : Json}, j.Plain → Begins (prettyAt depth j).toList
  | null, _ => ⟨'n', "ull".toList, by rw [prettyAt]; rfl, by decide, by decide⟩
  | bool false, _ => ⟨'f', "alse".toList, by rw [prettyAt]; rfl, by decide, by decide⟩
  | bool true, _ => ⟨'t', "rue".toList, by rw [prettyAt]; rfl, by decide, by decide⟩
  | number _, ⟨i, hi⟩ => by
    subst hi
    rw [prettyAt]
    exact begins_int i
  | string s, _ => by
    rw [prettyAt, writeString, String.toList_append, String.toList_append]
    exact ⟨'"', _, rfl, by decide, by decide⟩
  | array [], _ => ⟨'[', "]".toList, by rw [prettyAt]; rfl, by decide, by decide⟩
  | array (j :: js), _ => by
    rw [prettyAt, String.toList_append, String.toList_append, String.toList_append]
    exact ⟨'[', _, rfl, by decide, by decide⟩
  | object [], _ => ⟨'\x7b', "\x7d".toList, by rw [prettyAt]; rfl, by decide, by decide⟩
  | object (f :: fs), _ => by
    rw [prettyAt, String.toList_append, String.toList_append, String.toList_append]
    exact ⟨'\x7b', _, rfl, by decide, by decide⟩

theorem skipBlank_prettyAt (depth : Nat) {j : Json} (hj : j.Plain) (rest : List Char) :
    skipBlank ((prettyAt depth j).toList ++ rest) = (prettyAt depth j).toList ++ rest :=
  ((begins_prettyAt depth hj).append rest).skipBlank_eq

theorem ends_cons {c : Char} (hc : c.isDigit = false ∧ c ≠ '.' ∧ c ≠ 'e' ∧ c ≠ 'E') (cs : List Char) :
    Ends (c :: cs) := by
  rintro d ⟨⟩
  exact hc

theorem ends_newLine (depth : Nat) (cs : List Char) : Ends ((newLine depth).toList ++ cs) := by
  rw [newLine, String.toList_append, List.append_assoc]
  exact ends_cons (by decide) _

/-! ### One step of the reader -/

section

variable {fuel : Nat} {j : Json} {items : List Json} {fields : List (Option String × Json)}

theorem readValue_bracket (hcs : skipBlank cs = '[' :: s) : readValue (fuel + 1) cs =
    match skipBlank s with
    | ']' :: rest => some (array [], rest)
    | _ => (readItems (readValue fuel) s.length s).map fun (items, rest) => (array items, rest) := by
  rw [readValue, hcs]
  rfl

theorem readValue_array (hcs : skipBlank cs = '[' :: s) (hnext : ∀ tail, skipBlank s ≠ ']' :: tail)
    (h : readItems (readValue fuel) s.length s = some (items, rest)) :
    readValue (fuel + 1) cs = some (array items, rest) := by
  rw [readValue_bracket hcs]
  split
  · rename_i hend
    exact absurd hend (hnext _)
  · rw [h]
    rfl

theorem readValue_brace (hcs : skipBlank cs = '\x7b' :: s) : readValue (fuel + 1) cs =
    match skipBlank s with
    | '\x7d' :: rest => some (object [], rest)
    | _ => (readFields (readValue fuel) s.length s).map fun (fields, rest) => (ofFields fields, rest) := by
  rw [readValue, hcs]
  rfl

theorem readValue_object (hcs : skipBlank cs = '\x7b' :: s) (hnext : ∀ tail, skipBlank s ≠ '\x7d' :: tail)
    (h : readFields (readValue fuel) s.length s = some (fields, rest)) :
    readValue (fuel + 1) cs = some (ofFields fields, rest) := by
  rw [readValue_brace hcs]
  split
  · rename_i hend
    exact absurd hend (hnext _)
  · rw [h]
    rfl

theorem readValue_number (hcs : skipBlank cs = c :: s) (hc : c.isDigit = true ∨ c = '-') {text : List Char}
    (h : readNumber (c :: s) = some (text, rest)) :
    readValue (fuel + 1) cs = some (number (String.ofList text), rest) := by
  rw [readValue, hcs]
  split
  case h_8 =>
    rw [h]
    rfl
  all_goals
    rename_i heq
    cases heq <;> exact absurd hc (by decide)

/-- An item and what follows it. -/
theorem readItems_succ {value : List Char → Option (Json × List Char)} (n : Nat) (h : value cs = some (j, s)) :
    readItems value (n + 1) cs = match skipBlank s with
      | ',' :: cs => do
        let (items, rest) ← readItems value n cs
        return (j :: items, rest)
      | ']' :: rest => some ([j], rest)
      | _ => none := by
  rw [readItems, h]
  rfl

/-- A field and what follows it. -/
theorem readFields_succ {value : List Char → Option (Json × List Char)} (n : Nat) {name : String} {s' : List Char}
    (hcs : skipBlank cs = (writeString name).toList ++ ':' :: s') (h : value s' = some (j, s)) :
    readFields value (n + 1) cs = match skipBlank s with
      | ',' :: cs => do
        let (fields, rest) ← readFields value n cs
        return ((some name, j) :: fields, rest)
      | '\x7d' :: rest => some ([(some name, j)], rest)
      | _ => none := by
  have hcolon : skipBlank (':' :: s') = ':' :: s' := rfl
  rw [toList_writeString] at hcs
  rw [readFields, hcs]
  simp only [readText_written, hcolon, Option.bind_eq_bind, Option.bind_some]
  rw [h]
  rfl

end

/-! ### The lines of items and fields -/

theorem prettyItems_cons (depth : Nat) (j : Json) (js : List Json) :
    (prettyItems depth (j :: js)).toList = (newLine depth).toList ++ ((prettyAt depth j).toList ++
      if js = [] then [] else ',' :: (prettyItems depth js).toList) := by
  cases js with
  | nil => simp [prettyItems]
  | cons j' js => simp [prettyItems]

theorem prettyFields_cons (depth : Nat) (name : String) (j : Json) (fs : List (String × Json)) :
    (prettyFields depth ((name, j) :: fs)).toList = (newLine depth).toList ++ ((writeString name).toList ++
      ':' :: ' ' :: ((prettyAt depth j).toList ++ if fs = [] then [] else ',' :: (prettyFields depth fs).toList)) := by
  cases fs with
  | nil => simp [prettyFields]
  | cons f fs => simp [prettyFields]

/-- If each value is read back, so is a list of them. -/
theorem mapM_map {α β : Type} {write : α → β} {read : β → Option α} : ∀ {xs : List α},
    (∀ x ∈ xs, read (write x) = some x) → (xs.map write).mapM read = some xs
  | [], _ => rfl
  | x :: xs, h => by
    rw [List.map_cons, List.mapM_cons, h x List.mem_cons_self,
      mapM_map fun y hy => h y (List.mem_cons_of_mem x hy)]
    rfl

/-- The fields of an object that are read off its text have their names. -/
theorem ofFields_named (fields : List (String × Json)) :
    ofFields (fields.map fun f => (some f.1, f.2)) = object fields := by
  have hnames : (fields.map fun f => (some f.1, f.2)).mapM (fun f => f.1.map (·, f.2)) = some fields :=
    mapM_map fun _ _ => rfl
  rw [ofFields, hnames]

theorem begins_prettyItems (depth : Nat) {j : Json} (hj : j.Plain) (js : List Json) (rest : List Char) :
    Begins (skipBlank ((prettyItems depth (j :: js)).toList ++ rest)) := by
  rw [prettyItems_cons, List.append_assoc, List.append_assoc, skipBlank_newLine, skipBlank_prettyAt depth hj]
  exact (begins_prettyAt depth hj).append _

theorem skipBlank_prettyFields (depth : Nat) (name : String) (j : Json) (fs : List (String × Json)) (rest : List Char) :
    ∃ cs, skipBlank ((prettyFields depth ((name, j) :: fs)).toList ++ rest) = '"' :: cs := by
  rw [prettyFields_cons, List.append_assoc, List.append_assoc, skipBlank_newLine, toList_writeString]
  exact ⟨_, rfl⟩

theorem length_prettyItems_pos (depth : Nat) (j : Json) (js : List Json) :
    0 < (prettyItems depth (j :: js)).toList.length := by
  rw [prettyItems_cons, newLine, String.toList_append]
  exact Nat.succ_pos _

theorem length_prettyFields_pos (depth : Nat) (name : String) (j : Json) (fs : List (String × Json)) :
    0 < (prettyFields depth ((name, j) :: fs)).toList.length := by
  rw [prettyFields_cons, newLine, String.toList_append]
  exact Nat.succ_pos _

/-! ### Reading a text off its front -/

section

variable {fuel depth : Nat} {j : Json} {js : List Json} {name : String} {fs : List (String × Json)}

/-- Behind white space, the text is read as the value. -/
def Reads (fuel : Nat) (text : List Char) (j : Json) : Prop :=
  ∀ cs rest, skipBlank cs = text ++ rest → Ends rest → readValue fuel cs = some (j, rest)

/-- In front of the end of an array, the text is read as its items. -/
def ReadsItems (fuel : Nat) (text : List Char) (items : List Json) : Prop :=
  ∀ n tail rest, text.length ≤ n → skipBlank tail = ']' :: rest → Ends tail →
    readItems (readValue fuel) n (text ++ tail) = some (items, rest)

/-- In front of the end of an object, the text is read as its fields. -/
def ReadsFields (fuel : Nat) (text : List Char) (fields : List (String × Json)) : Prop :=
  ∀ n tail rest, text.length ≤ n → skipBlank tail = '\x7d' :: rest → Ends tail →
    readFields (readValue fuel) n (text ++ tail) = some (fields.map fun f => (some f.1, f.2), rest)

theorem reads_int (fuel : Nat) (i : Int) : Reads (fuel + 1) (toString i).toList (number (toString i)) := by
  intro cs rest hcs hrest
  have hread := readNumber_int i hrest
  obtain ⟨c, s, hc, hstart⟩ := exists_cons_int i
  rw [hc, List.cons_append] at hcs hread
  rw [readValue_number hcs hstart hread, ← hc, String.ofList_toList]

theorem reads_string (fuel : Nat) (s : String) : Reads (fuel + 1) (writeString s).toList (string s) := by
  intro cs rest hcs _
  rw [toList_writeString] at hcs
  rw [readValue, hcs]
  show (readText (s.toList.flatMap writeChar ++ '"' :: rest)).map _ = _
  rw [readText_written]
  rfl

theorem readsItems_one (hj : j.Plain) (h : Reads fuel (prettyAt depth j).toList j) :
    ReadsItems fuel (prettyItems depth [j]).toList [j] := by
  intro n tail rest hn htail hends
  have hpos := length_prettyItems_pos depth j []
  obtain ⟨n, rfl⟩ := Nat.exists_eq_add_one_of_ne_zero (n := n) (by omega)
  rw [prettyItems_cons, if_pos rfl, List.append_nil, List.append_assoc, readItems_succ n (h _ tail ?_ hends), htail]
  · rfl
  · rw [skipBlank_newLine, skipBlank_prettyAt depth hj]

theorem readsItems_cons (hj : j.Plain) (h : Reads fuel (prettyAt depth j).toList j) {j' : Json}
    (hmore : ReadsItems fuel (prettyItems depth (j' :: js)).toList (j' :: js)) :
    ReadsItems fuel (prettyItems depth (j :: j' :: js)).toList (j :: j' :: js) := by
  intro n tail rest hn htail hends
  have hpos := length_prettyItems_pos depth j (j' :: js)
  obtain ⟨n, rfl⟩ := Nat.exists_eq_add_one_of_ne_zero (n := n) (by omega)
  rw [prettyItems_cons, if_neg (List.cons_ne_nil _ _)] at hn ⊢
  simp only [List.length_append, List.length_cons] at hn
  simp only [List.append_assoc, List.cons_append]
  rw [readItems_succ n (h _ _ ?_ (ends_cons (c := ',') (by decide) _))]
  · show (do
      let (items, rest) ← readItems (readValue fuel) n ((prettyItems depth (j' :: js)).toList ++ tail)
      return (j :: items, rest)) = _
    rw [hmore n tail rest (by omega) htail hends]
    rfl
  · rw [skipBlank_newLine, skipBlank_prettyAt depth hj]

theorem reads_array (hj : j.Plain) (h : ReadsItems fuel (prettyItems (depth + 1) (j :: js)).toList (j :: js)) :
    Reads (fuel + 1) (prettyAt depth (array (j :: js))).toList (array (j :: js)) := by
  intro cs rest hcs _
  simp only [prettyAt, String.toList_append, List.append_assoc] at hcs
  refine readValue_array hcs (fun tail => ?_) (h _ _ rest (by simp) (skipBlank_newLine _ _) (ends_newLine _ _))
  obtain ⟨c, cs', hc, -, hne⟩ := begins_prettyItems (depth + 1) hj js ((newLine depth).toList ++ ']' :: rest)
  show skipBlank ((prettyItems (depth + 1) (j :: js)).toList ++ ((newLine depth).toList ++ ']' :: rest)) ≠ _
  rw [hc]
  rintro ⟨⟩
  exact hne rfl

theorem skipBlank_field (depth : Nat) (name : String) (text : List Char) :
    skipBlank ((newLine depth).toList ++ ((writeString name).toList ++ text)) = (writeString name).toList ++ text := by
  rw [skipBlank_newLine, toList_writeString]
  rfl

theorem readsFields_one (hj : j.Plain) (h : Reads fuel (prettyAt depth j).toList j) :
    ReadsFields fuel (prettyFields depth [(name, j)]).toList [(name, j)] := by
  intro n tail rest hn htail hends
  have hpos := length_prettyFields_pos depth name j []
  obtain ⟨n, rfl⟩ := Nat.exists_eq_add_one_of_ne_zero (n := n) (by omega)
  rw [prettyFields_cons, if_pos rfl, List.append_nil]
  simp only [List.append_assoc, List.cons_append]
  have hvalue : readValue fuel (' ' :: ((prettyAt depth j).toList ++ tail)) = some (j, tail) :=
    h _ tail (skipBlank_prettyAt depth hj tail) hends
  rw [readFields_succ n (skipBlank_field depth name _) hvalue, htail]
  rfl

theorem readsFields_cons (hj : j.Plain) (h : Reads fuel (prettyAt depth j).toList j) {f : String × Json}
    (hmore : ReadsFields fuel (prettyFields depth (f :: fs)).toList (f :: fs)) :
    ReadsFields fuel (prettyFields depth ((name, j) :: f :: fs)).toList ((name, j) :: f :: fs) := by
  intro n tail rest hn htail hends
  have hpos := length_prettyFields_pos depth name j (f :: fs)
  obtain ⟨n, rfl⟩ := Nat.exists_eq_add_one_of_ne_zero (n := n) (by omega)
  rw [prettyFields_cons, if_neg (List.cons_ne_nil _ _)] at hn ⊢
  simp only [List.length_append, List.length_cons] at hn
  simp only [List.append_assoc, List.cons_append]
  have hvalue : readValue fuel (' ' :: ((prettyAt depth j).toList ++
      ',' :: ((prettyFields depth (f :: fs)).toList ++ tail))) =
        some (j, ',' :: ((prettyFields depth (f :: fs)).toList ++ tail)) :=
    h _ _ (skipBlank_prettyAt depth hj _) (ends_cons (by decide) _)
  rw [readFields_succ n (skipBlank_field depth name _) hvalue]
  show (do
    let (fields, rest) ← readFields (readValue fuel) n ((prettyFields depth (f :: fs)).toList ++ tail)
    return ((some name, j) :: fields, rest)) = _
  rw [hmore n tail rest (by omega) htail hends]
  rfl

theorem reads_object (h : ReadsFields fuel (prettyFields (depth + 1) ((name, j) :: fs)).toList ((name, j) :: fs)) :
    Reads (fuel + 1) (prettyAt depth (object ((name, j) :: fs))).toList (object ((name, j) :: fs)) := by
  intro cs rest hcs _
  simp only [prettyAt, String.toList_append, List.append_assoc] at hcs
  rw [← ofFields_named]
  refine readValue_object hcs (fun tail => ?_) (h _ _ rest (by simp) (skipBlank_newLine _ _) (ends_newLine _ _))
  obtain ⟨cs', hc⟩ := skipBlank_prettyFields (depth + 1) name j fs ((newLine depth).toList ++ '\x7d' :: rest)
  show skipBlank ((prettyFields (depth + 1) ((name, j) :: fs)).toList ++ ((newLine depth).toList ++ '\x7d' :: rest)) ≠ _
  rw [hc]
  rintro ⟨⟩

end

mutual

/-- Every value is read off its text, if there is enough fuel for the text. -/
theorem reads_prettyAt (depth fuel : Nat) : ∀ (j : Json), j.Plain → (prettyAt depth j).toList.length ≤ fuel + 1 →
    Reads (fuel + 1) (prettyAt depth j).toList j
  | null, _, _ | bool false, _, _ | bool true, _, _ | array [], _, _ | object [], _, _ => by
    intro cs rest hcs _
    rw [prettyAt] at hcs
    rw [readValue, hcs]
    rfl
  | number text, hj, _ => by
    obtain ⟨i, rfl⟩ := hj
    rw [prettyAt]
    exact reads_int fuel i
  | string s, _, _ => by
    rw [prettyAt]
    exact reads_string fuel s
  | array (j :: js), hj, hfuel => by
    simp only [prettyAt, String.toList_append, List.append_assoc, List.length_append] at hfuel
    change 1 + _ ≤ _ at hfuel
    have hpos := length_prettyItems_pos (depth + 1) j js
    obtain ⟨fuel, rfl⟩ := Nat.exists_eq_add_one_of_ne_zero (n := fuel) (by omega)
    exact reads_array hj.1 (readsItems_prettyItems (depth + 1) fuel j js hj (by omega))
  | object ((name, j) :: fs), hj, hfuel => by
    simp only [prettyAt, String.toList_append, List.append_assoc, List.length_append] at hfuel
    change 1 + _ ≤ _ at hfuel
    have hpos := length_prettyFields_pos (depth + 1) name j fs
    obtain ⟨fuel, rfl⟩ := Nat.exists_eq_add_one_of_ne_zero (n := fuel) (by omega)
    exact reads_object (readsFields_prettyFields (depth + 1) fuel name j fs hj (by omega))
termination_by j => sizeOf j

theorem readsItems_prettyItems (depth fuel : Nat) : ∀ (j : Json) (js : List Json), PlainAll (j :: js) →
    (prettyItems depth (j :: js)).toList.length ≤ fuel + 1 →
      ReadsItems (fuel + 1) (prettyItems depth (j :: js)).toList (j :: js)
  | j, [], hj, hfuel => by
    rw [prettyItems_cons, List.length_append, List.length_append] at hfuel
    exact readsItems_one hj.1 (reads_prettyAt depth fuel j hj.1 (by omega))
  | j, j' :: js, hj, hfuel => by
    rw [prettyItems_cons, if_neg (List.cons_ne_nil _ _)] at hfuel
    simp only [List.length_append, List.length_cons] at hfuel
    exact readsItems_cons hj.1 (reads_prettyAt depth fuel j hj.1 (by omega))
      (readsItems_prettyItems depth fuel j' js hj.2 (by omega))
termination_by j js => 1 + sizeOf j + sizeOf js

theorem readsFields_prettyFields (depth fuel : Nat) : ∀ (name : String) (j : Json) (fs : List (String × Json)),
    PlainFields ((name, j) :: fs) → (prettyFields depth ((name, j) :: fs)).toList.length ≤ fuel + 1 →
      ReadsFields (fuel + 1) (prettyFields depth ((name, j) :: fs)).toList ((name, j) :: fs)
  | name, j, [], hj, hfuel => by
    rw [prettyFields_cons] at hfuel
    simp only [List.length_append, List.length_cons] at hfuel
    exact readsFields_one hj.1 (reads_prettyAt depth fuel j hj.1 (by omega))
  | _, j, (name', j') :: fs, hj, hfuel => by
    rw [prettyFields_cons, if_neg (List.cons_ne_nil _ _)] at hfuel
    simp only [List.length_append, List.length_cons] at hfuel
    exact readsFields_cons hj.1 (reads_prettyAt depth fuel j hj.1 (by omega))
      (readsFields_prettyFields depth fuel name' j' fs hj.2 (by omega))
termination_by _ j fs => 1 + sizeOf j + sizeOf fs

end

/-- A plain value is read back from its text. -/
theorem parse?_pretty {j : Json} (hj : j.Plain) : parse? j.pretty = some j := by
  have hread : readValue (j.pretty.toList.length + 1) j.pretty.toList = some (j, []) := by
    refine reads_prettyAt 0 _ j hj (Nat.le_succ _) _ [] ?_ nofun
    have hskip := skipBlank_prettyAt 0 hj []
    rwa [List.append_nil] at hskip ⊢
  unfold parse?
  dsimp only
  rw [hread]
  rfl

end Reactive.Json
