import Reactive.Proofs.Printing
import Reactive.Proofs.Written

/-!
# Reactive.Proofs.Cutting — texts whose parts are known from the whole

* `Text.IsLine`, `Text.IsWord`: a text without line breaks, and one without blanks as well.
* `Text.eq_of_append`: two texts that are equal are cut into the same parts, if one can tell where a part ends; by the
  first separator (`eq_of_append_first`), or by the last one (`eq_of_append_last`).
* `toDigits_inj`: no two numbers have the same digits; the texts of numbers, those of doubles as well, are lines.
* `Text.listed_inj`: no two strings are quoted alike, and a quoted string is a line.
-/

namespace Reactive

/-! ### Cutting texts -/

namespace Text

/-- The text is within one line. -/
def IsLine (s : String) : Prop := '\n' ∉ s.toList

/-- The text is one word. -/
def IsWord (s : String) : Prop := IsLine s ∧ ' ' ∉ s.toList

instance : DecidablePred IsLine := fun s => inferInstanceAs (Decidable ('\n' ∉ s.toList))

instance : DecidablePred IsWord := fun s => inferInstanceAs (Decidable (IsLine s ∧ ' ' ∉ s.toList))

theorem eq_of_append {α : Type} {p : α → Bool} {xs ys rest rest' : List α} (hxs : ∀ x ∈ xs, p x = true)
    (hys : ∀ y ∈ ys, p y = true) (hrest : ∀ d ∈ rest.head?, p d = false) (hrest' : ∀ d ∈ rest'.head?, p d = false)
    (h : xs ++ rest = ys ++ rest') : xs = ys ∧ rest = rest' := by
  have hcut := congrArg (List.takeWhile p) h
  rw [Lexer.takeWhile_append_of_head hxs hrest, Lexer.takeWhile_append_of_head hys hrest'] at hcut
  subst hcut
  exact ⟨rfl, List.append_cancel_left h⟩

variable {a : Char} {cs ds rest rest' : List Char}

/-- What stands before the first separator, or before the end, and what follows are known. -/
theorem eq_of_append_first (hcs : a ∉ cs) (hds : a ∉ ds) (hrest : ∀ d ∈ rest.head?, d = a)
    (hrest' : ∀ d ∈ rest'.head?, d = a) (h : cs ++ rest = ds ++ rest') : cs = ds ∧ rest = rest' := by
  refine eq_of_append (p := (· != a)) (fun c hc => ?_) (fun d hd => ?_) (fun d hd => ?_) (fun d hd => ?_) h
  · exact bne_iff_ne.mpr (ne_of_mem_of_not_mem hc hcs)
  · exact bne_iff_ne.mpr (ne_of_mem_of_not_mem hd hds)
  · rw [hrest d hd, bne_self_eq_false]
  · rw [hrest' d hd, bne_self_eq_false]

/-- What stands before the first separator and what follows it are known. -/
theorem eq_of_append_cons (hcs : a ∉ cs) (hds : a ∉ ds) (h : cs ++ a :: rest = ds ++ a :: rest') :
    cs = ds ∧ rest = rest' := by
  obtain ⟨hparts, hends⟩ := eq_of_append_first hcs hds (by simp) (by simp) h
  exact ⟨hparts, (List.cons.inj hends).2⟩

/-- What stands before the last separator and what follows it are known. -/
theorem eq_of_append_last (hrest : a ∉ rest) (hrest' : a ∉ rest') (h : cs ++ a :: rest = ds ++ a :: rest') :
    cs = ds ∧ rest = rest' := by
  have hback := congrArg List.reverse h
  simp only [List.reverse_append, List.reverse_cons, List.append_assoc, List.singleton_append] at hback
  obtain ⟨hends, hparts⟩ := eq_of_append_cons (by simpa using hrest) (by simpa using hrest') hback
  exact ⟨List.reverse_inj.mp hparts, List.reverse_inj.mp hends⟩

end Text

/-! ### Numbers -/

/-- The digits of a number in a base up to sixteen. -/
theorem exists_digit_of_mem_toDigits {b n : Nat} (hb : 1 < b) {c : Char} (hc : c ∈ Nat.toDigits b n) :
    ∃ d < b, c = Nat.digitChar d := by
  induction n using Nat.strong_induction_on with
  | _ n ih =>
    rw [Nat.toDigits_eq_if hb] at hc
    split at hc
    · rename_i hn
      exact ⟨n, hn, List.mem_singleton.mp hc⟩
    · rename_i hn
      rcases List.mem_append.mp hc with hc | hc
      · exact ih (n / b) (Nat.div_lt_self (by omega) hb) hc
      · exact ⟨n % b, Nat.mod_lt n (by omega), List.mem_singleton.mp hc⟩

theorem digitChar_inj : ∀ d < 16, ∀ e < 16, Nat.digitChar d = Nat.digitChar e → d = e := by decide

/-- A number is known from its digits. -/
theorem toDigits_inj {b : Nat} (hb : 1 < b) (hmax : b ≤ 16) {m n : Nat} (h : Nat.toDigits b m = Nat.toDigits b n) :
    m = n := by
  have hdigit {d e : Nat} (hd : d < b) (he : e < b) (hde : Nat.digitChar d = Nat.digitChar e) : d = e :=
    digitChar_inj d (by omega) e (by omega) hde
  have hshort {k : Nat} {c d : Char} (hcd : [] ++ [c] = Nat.toDigits b k ++ [d]) : False :=
    Nat.toDigits_ne_nil (List.append_singleton_inj.mp hcd).1.symm
  induction m using Nat.strong_induction_on generalizing n with
  | _ m ih =>
    rw [Nat.toDigits_eq_if hb, Nat.toDigits_eq_if (n := n) hb] at h
    split_ifs at h with hm hn hn
    · exact hdigit hm hn (List.singleton_inj.mp h)
    · exact (hshort h).elim
    · exact (hshort h.symm).elim
    · obtain ⟨hdiv, hmod⟩ := List.append_singleton_inj.mp h
      have hrest := ih (m / b) (Nat.div_lt_self (by omega) hb) hdiv
      have hlast := hdigit (Nat.mod_lt m (by omega)) (Nat.mod_lt n (by omega)) hmod
      rw [← Nat.div_add_mod m b, ← Nat.div_add_mod n b, hrest, hlast]

/-- The text of a number is made of digits. -/
theorem notMem_toString {a : Char} (ha : a.isDigit = false) (n : Nat) : a ∉ (toString n).toList := by
  rw [Json.toList_toString_nat]
  intro h
  rw [Json.isDigit_of_mem_toDigits h] at ha
  cases ha

theorem toString_nat_inj {m n : Nat} (h : (toString m).toList = (toString n).toList) : m = n := by
  rw [Json.toList_toString_nat, Json.toList_toString_nat] at h
  exact toDigits_inj (by omega) (by omega) h

theorem toString_int_inj {i j : Int} (h : (toString i).toList = (toString j).toList) : i = j := by
  have hsign (k : Int) : ∀ c ∈ (if k < 0 then ['-'] else []), (c == '-') = true := by split <;> simp
  have hdigits (n : Nat) : ∀ c ∈ (Nat.toDigits 10 n).head?, (c == '-') = false := fun c hc => by
    have hdigit := Json.isDigit_of_mem_toDigits (List.mem_of_head? hc)
    cases hminus : c == '-' with
    | false => rfl
    | true => exact absurd (eq_of_beq hminus ▸ hdigit) (by decide)
  rw [Json.toList_toString_int, Json.toList_toString_int] at h
  obtain ⟨hsigns, habs⟩ := Text.eq_of_append (hsign i) (hsign j) (hdigits i.natAbs) (hdigits j.natAbs) h
  have habs := toDigits_inj (by omega) (by omega) habs
  split_ifs at hsigns <;> omega

theorem newline_notMem_toString_int (i : Int) : '\n' ∉ (toString i).toList := by
  rw [Json.toList_toString_int, List.mem_append, not_or]
  refine ⟨by split <;> decide, fun h => absurd (Json.isDigit_of_mem_toDigits h) (by decide)⟩

namespace Decimal

theorem newline_notMem_digits {ds : List Char} (h : ∀ c ∈ ds, c.isDigit = true) : '\n' ∉ ds := fun hmem =>
  absurd (h _ hmem) (by decide)

theorem newline_notMem_positionalText (d : Decimal) (pointZero : Bool) : '\n' ∉ (positionalText d pointZero).toList := by
  have hds : ∀ c ∈ digitsOf d.digits, c.isDigit = true := fun _ => isDigit_of_mem_digitsOf
  unfold positionalText
  split
  · rw [String.toList_append, String.toList_ofList, List.mem_append, not_or]
    refine ⟨?_, by split <;> decide⟩
    split
    · exact newline_notMem_digits hds
    · refine newline_notMem_digits fun c hc => ?_
      exact (List.mem_append.mp hc).elim (hds c) isDigit_of_mem_zeros
  · have hpadded : ∀ c ∈ List.replicate (d.exponent.natAbs + 1 - (digitsOf d.digits).length) '0' ++ digitsOf d.digits,
        c.isDigit = true := fun c hc => (List.mem_append.mp hc).elim isDigit_of_mem_zeros (hds c)
    rw [String.toList_append, String.toList_append, List.mem_append, List.mem_append, not_or, not_or]
    simp only [String.toList_ofList]
    exact ⟨⟨newline_notMem_digits fun c hc => hpadded c (List.mem_of_mem_take hc), by decide⟩,
      newline_notMem_digits fun c hc => hpadded c (List.mem_of_mem_drop hc)⟩

theorem newline_notMem_scientificText (d : Decimal) (plusSign : Bool) : '\n' ∉ (scientificText d plusSign).toList := by
  have hds : ∀ c ∈ digitsOf d.digits, c.isDigit = true := fun _ => isDigit_of_mem_digitsOf
  have hnat (n : Nat) : '\n' ∉ (toString n).toList := notMem_toString (by decide) n
  unfold scientificText
  simp only [String.toList_append, String.toList_ofList, List.mem_append, not_or]
  refine ⟨⟨⟨newline_notMem_digits fun c hc => hds c (List.mem_of_mem_take hc), ?_⟩, by decide⟩, ?_⟩
  · split
    · simp only [String.toList_append, String.toList_ofList, List.mem_append, not_or]
      exact ⟨by decide, newline_notMem_digits fun c hc => hds c (List.mem_of_mem_tail hc)⟩
    · decide
  · split
    · rw [String.toList_append, List.mem_append, not_or]
      exact ⟨by decide, hnat _⟩
    · rw [String.toList_append, List.mem_append, not_or]
      exact ⟨by split <;> decide, hnat _⟩

theorem newline_notMem_text (l : Layout) (d : Decimal) : '\n' ∉ (text l d).toList := by
  unfold text
  split
  · exact newline_notMem_positionalText d _
  · split
    · exact newline_notMem_positionalText d _
    · exact newline_notMem_scientificText d _

end Decimal

theorem Double.isLine_sourceText (x : Double) : Text.IsLine x.sourceText := by
  unfold Text.IsLine sourceText render
  split
  · decide
  · rw [String.toList_append, List.mem_append, not_or]
    refine ⟨by split <;> decide, ?_⟩
    split
    · decide
    · exact Decimal.newline_notMem_text _ _

/-! ### Quoted strings -/

namespace Text

variable {c d : Char} {cs ds : List Char}

/-- A character is listed as a letter behind a backslash, as itself, or by its code point. -/
theorem listedChar_cases (c : Char) :
    (∃ d, d ≠ 'u' ∧ d ≠ '\n' ∧ escaped d = c ∧ listedChar c = ['\\', d]) ∨
    (c ≠ '\\' ∧ c ≠ '\n' ∧ listedChar c = [c]) ∨ listedChar c = unicodeEscape c := by
  unfold listedChar escapeChar
  split_ifs with hspecial hquote hslash hline hreturn htab hzero hprintable
  · exact .inl ⟨'"', by decide, by decide, by rw [hquote]; decide, rfl⟩
  · exact .inl ⟨'\\', by decide, by decide, by rw [hslash]; decide, rfl⟩
  · exact .inl ⟨'n', by decide, by decide, by rw [hline]; decide, rfl⟩
  · exact .inl ⟨'r', by decide, by decide, by rw [hreturn]; decide, rfl⟩
  · exact .inl ⟨'t', by decide, by decide, by rw [htab]; decide, rfl⟩
  · exact .inl ⟨'0', by decide, by decide, by rw [hzero]; decide, rfl⟩
  · simp_all
  · simp only [Bool.or_eq_true, decide_eq_true_eq, not_or] at hspecial
    exact .inr (.inl ⟨hspecial.1.1.1.1.2, hspecial.1.1.1.2, rfl⟩)
  · exact .inr (.inr rfl)

theorem notMem_hex {a : Char} (ha : ∀ d < 16, Nat.digitChar d ≠ a) (n : Nat) : a ∉ Nat.toDigits 16 n := fun h => by
  obtain ⟨d, hd, rfl⟩ := exists_digit_of_mem_toDigits (by omega) h
  exact ha d hd rfl

/-- The first character is known from a listed text, and so is what follows it. -/
theorem listedChar_append_inj (h : listedChar c ++ cs = listedChar d ++ ds) : c = d ∧ cs = ds := by
  rcases listedChar_cases c with ⟨x, hx, -, rfl, hc⟩ | ⟨hslash, -, hc⟩ | hc <;>
    rcases listedChar_cases d with ⟨y, hy, -, rfl, hd⟩ | ⟨hslash', -, hd⟩ | hd <;>
      rw [hc, hd] at h
  case inl.inl =>
    obtain ⟨-, hxy, hrest⟩ : True ∧ x = y ∧ cs = ds := by simpa using h
    exact ⟨congrArg escaped hxy, hrest⟩
  case inl.inr.inl => exact absurd (List.cons.inj h).1.symm hslash'
  case inl.inr.inr => exact absurd (List.cons.inj (List.cons.inj h).2).1 hx
  case inr.inl.inl => exact absurd (List.cons.inj h).1 hslash
  case inr.inl.inr.inl => exact List.cons.inj h
  case inr.inl.inr.inr => exact absurd (List.cons.inj h).1 hslash
  case inr.inr.inl => exact absurd (List.cons.inj (List.cons.inj h).2).1.symm hy
  case inr.inr.inr.inl => exact absurd (List.cons.inj h).1.symm hslash'
  case inr.inr.inr.inr =>
    simp only [unicodeEscape, List.append_assoc, List.append_cancel_left_eq, List.singleton_append] at h
    obtain ⟨hdigits, hrest⟩ :=
      eq_of_append_cons (notMem_hex (by decide) c.toNat) (notMem_hex (by decide) d.toNat) h
    exact ⟨Char.toNat_inj.mp (toDigits_inj (by omega) le_rfl hdigits), hrest⟩

theorem listedChar_ne_nil (c : Char) : listedChar c ≠ [] := by
  rcases listedChar_cases c with ⟨d, -, -, -, h⟩ | ⟨-, -, h⟩ | h <;> rw [h]
  · exact List.cons_ne_nil _ _
  · exact List.cons_ne_nil _ _
  · exact List.cons_ne_nil _ _

theorem flatMap_listedChar_inj : ∀ {cs ds : List Char}, cs.flatMap listedChar = ds.flatMap listedChar → cs = ds
  | [], [], _ => rfl
  | [], d :: ds, h => absurd (List.append_eq_nil_iff.mp h.symm).1 (listedChar_ne_nil d)
  | c :: cs, [], h => absurd (List.append_eq_nil_iff.mp h).1 (listedChar_ne_nil c)
  | c :: cs, d :: ds, h => by
    obtain ⟨rfl, hrest⟩ := listedChar_append_inj h
    rw [flatMap_listedChar_inj hrest]

theorem toList_listed (s : String) : (listed s).toList = '"' :: (s.toList.flatMap listedChar ++ ['"']) := by
  simp only [listed, String.toList_append, String.toList_ofList]
  rfl

/-- No two strings are quoted alike. -/
theorem listed_inj {s t : String} (h : (listed s).toList = (listed t).toList) : s = t := by
  rw [toList_listed, toList_listed] at h
  exact String.toList_inj.mp (flatMap_listedChar_inj (List.append_cancel_right (List.cons.inj h).2))

theorem isLine_listed (s : String) : IsLine (listed s) := by
  have hchar (c : Char) : '\n' ∉ listedChar c := by
    rcases listedChar_cases c with ⟨d, -, hd, -, h⟩ | ⟨-, hc, h⟩ | h <;> rw [h]
    · simp [hd.symm]
    · simp [hc.symm]
    · simp [unicodeEscape, notMem_hex (a := '\n') (by decide)]
  unfold IsLine
  rw [toList_listed]
  simp [hchar]

end Text

end Reactive
