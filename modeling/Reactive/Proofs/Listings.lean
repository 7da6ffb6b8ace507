import Mathlib.Data.List.Forall2
import Reactive.Proofs.Stored
import Reactive.Proofs.Wording

/-!
# Reactive.Proofs.Listings — a listing says which edits a module has

* `Text.ofRows`: rows of characters, each with the end of its line; rows without line breaks are known from the text
  (`ofRows_inj`).
* `CompiledMethod.Alike`, `PatchEdit.Alike`: the methods, or the edits, are the same but for numbers that are written
  alike; each is known from its rows (`forall₂_of_rows` for instructions and for edits), since the rows of instructions
  begin with a blank and the others do not.
* `PatchModule.listing_eq_iff`: legible modules have one listing exactly if their classes have one name and their edits
  are alike one by one; without numbers that have a point, they have the same edits (`PatchModule.eq_of_listing_eq`).
-/

namespace Reactive

open Text

/-- Lists are the same if a relation between their elements is equality on those of the first. -/
theorem eq_of_forall₂ {α : Type} {R : α → α → Prop} : ∀ {xs ys : List α}, List.Forall₂ R xs ys →
    (∀ x ∈ xs, ∀ y, R x y → x = y) → xs = ys
  | [], [], .nil, _ => rfl
  | x :: _, y :: _, .cons h hs, heq => by
    rw [heq x List.mem_cons_self y h, eq_of_forall₂ hs fun z hz => heq z (List.mem_cons_of_mem x hz)]

/-! ### Rows -/

/-- Rows of characters as a text. -/
def Text.ofRows (rows : List (List Char)) : List Char := rows.flatMap (· ++ ['\n'])

namespace Text

theorem ofRows_cons (r : List Char) (rs : List (List Char)) : ofRows (r :: rs) = r ++ '\n' :: ofRows rs := by
  rw [ofRows, List.flatMap_cons, List.append_assoc, List.singleton_append, ofRows]

theorem ofRows_append (rs ss : List (List Char)) : ofRows (rs ++ ss) = ofRows rs ++ ofRows ss := List.flatMap_append

theorem ofRows_cons_ne_nil {r : List Char} {rs : List (List Char)} : ofRows (r :: rs) ≠ [] := by simp [ofRows_cons]

theorem ofRows_inj : ∀ {rs ss : List (List Char)}, (∀ r ∈ rs, '\n' ∉ r) → (∀ s ∈ ss, '\n' ∉ s) → ofRows rs = ofRows ss →
    rs = ss
  | [], [], _, _, _ => rfl
  | [], _ :: _, _, _, h => absurd h.symm ofRows_cons_ne_nil
  | _ :: _, [], _, _, h => absurd h ofRows_cons_ne_nil
  | r :: rs, s :: ss, hrs, hss, h => by
    rw [ofRows_cons, ofRows_cons] at h
    obtain ⟨hr, hrs'⟩ := List.forall_mem_cons.mp hrs
    obtain ⟨hs, hss'⟩ := List.forall_mem_cons.mp hss
    obtain ⟨rfl, hrest⟩ := eq_of_append_cons hr hs h
    rw [ofRows_inj hrs' hss' hrest]

end Text

/-! ### Instructions and methods -/

namespace Instruction

/-- The row of an instruction. -/
def row (index : Nat) (i : Instruction) : List Char :=
  ' ' :: ' ' :: ((paddedDecimal 4 index).toList ++ ' ' :: i.text.toList)

/-- The rows of instructions, from an index on. -/
def rows (index : Nat) : List Instruction → List (List Char)
  | [] => []
  | i :: is => row index i :: rows (index + 1) is

theorem toList_lines : ∀ (index : Nat) (is : List Instruction), (lines index is).toList = ofRows (rows index is)
  | _, [] => rfl
  | index, i :: is => by
    rw [lines, rows, ofRows_cons, row, String.toList_append, toList_lines]
    simp

theorem head?_of_mem_rows : ∀ {index : Nat} {is : List Instruction}, ∀ r ∈ rows index is, (r.head? == some ' ') = true
  | _, [], _, h => absurd h List.not_mem_nil
  | _, _ :: _, _, h => by
    rcases List.mem_cons.mp h with rfl | h
    · rfl
    · exact head?_of_mem_rows _ h

theorem newline_notMem_row (index : Nat) {i : Instruction} (h : i.Legible) : '\n' ∉ row index i := by
  have hindex : '\n' ∉ (paddedDecimal 4 index).toList := by
    rw [paddedDecimal, String.toList_ofList]
    refine Decimal.newline_notMem_digits fun c hc => ?_
    exact (List.mem_append.mp hc).elim Decimal.isDigit_of_mem_zeros Decimal.isDigit_of_mem_digitsOf
  have htext : '\n' ∉ i.text.toList := isLine_text h
  simp [row, hindex, htext]

theorem newline_notMem_rows : ∀ {index : Nat} {is : List Instruction}, (∀ i ∈ is, i.Legible) →
    ∀ r ∈ rows index is, '\n' ∉ r
  | _, [], _, _, h => absurd h List.not_mem_nil
  | _, _ :: _, his, _, h => by
    rcases List.mem_cons.mp h with rfl | h
    · exact newline_notMem_row _ (his _ List.mem_cons_self)
    · exact newline_notMem_rows (fun i hi => his i (List.mem_cons_of_mem _ hi)) _ h

/-- Rows that count alike are those of instructions that are alike. -/
theorem forall₂_of_rows : ∀ {index : Nat} {is js : List Instruction}, (∀ i ∈ is, i.Legible) → (∀ j ∈ js, j.Legible) →
    rows index is = rows index js → List.Forall₂ Alike is js
  | _, [], [], _, _, _ => .nil
  | index, i :: is, j :: js, his, hjs, h => by
    obtain ⟨hi, his⟩ := List.forall_mem_cons.mp his
    obtain ⟨hj, hjs⟩ := List.forall_mem_cons.mp hjs
    obtain ⟨hrow, hrows⟩ := List.cons.inj h
    have htext : i.text = j.text := String.toList_inj.mp (by simpa [row] using hrow)
    exact .cons (alike_of_text hi hj htext) (forall₂_of_rows his hjs hrows)

theorem Alike.eq {i j : Instruction} (hi : i.Exact) (h : i.Alike j) : i = j := by
  rcases h with rfl | ⟨x, y, hx, -⟩
  · rfl
  · exact absurd hx (hi x)

theorem lines_eq_of_alike : ∀ {index : Nat} {is js : List Instruction}, List.Forall₂ Alike is js →
    lines index is = lines index js
  | _, [], [], .nil => rfl
  | _, _ :: _, _ :: _, .cons h hs => by rw [lines, lines, h.text_eq, lines_eq_of_alike hs]

end Instruction

namespace CompiledMethod

/-- The row over the instructions of a method. -/
def head (m : CompiledMethod) : List Char :=
  m.name.toList ++ '(' :: ((toString m.paramCount.toNat).toList ++
    ')' :: (" locals=".toList ++ (toString m.localCount.toNat).toList))

/-- The names in a method are legible. -/
def Legible (m : CompiledMethod) : Prop := IsLine m.name ∧ ∀ i ∈ m.code, i.Legible

/-- The methods are the same but for numbers that are written alike. -/
structure Alike (m m' : CompiledMethod) : Prop where
  name : m.name = m'.name
  paramCount : m.paramCount = m'.paramCount
  localCount : m.localCount = m'.localCount
  code : List.Forall₂ Instruction.Alike m.code m'.code

variable {m m' : CompiledMethod}

theorem toList_listing (m : CompiledMethod) : m.listing.toList = m.head ++ '\n' :: ofRows (Instruction.rows 0 m.code) := by
  rw [listing, String.toList_append, Instruction.toList_lines]
  simp [head]

theorem Alike.listing_eq (h : m.Alike m') : m.listing = m'.listing := by
  rw [listing, listing, h.name, h.paramCount, h.localCount, Instruction.lines_eq_of_alike h.code]

theorem Alike.eq (hm : m.Exact) (h : m.Alike m') : m = m' := by
  have hcode := eq_of_forall₂ h.code fun i hi _ => Instruction.Alike.eq (hm i hi)
  obtain ⟨hname, hparams, hlocals, -⟩ := h
  cases m
  cases m'
  simp_all

theorem newline_notMem_head (h : m.Legible) : '\n' ∉ m.head := by
  have hnat (n : Nat) : '\n' ∉ (toString n).toList := notMem_toString (by decide) n
  have hname : '\n' ∉ m.name.toList := h.1
  refine List.not_mem_append hname (List.not_mem_cons_of_ne_of_not_mem (by decide) (List.not_mem_append (hnat _) ?_))
  exact List.not_mem_cons_of_ne_of_not_mem (by decide) (List.not_mem_append (by decide) (hnat _))

theorem alike_of_head (h : m.head = m'.head) (hcode : List.Forall₂ Instruction.Alike m.code m'.code) : m.Alike m' := by
  have hcounts (n k : Nat) : '(' ∉ (toString n).toList ++ ')' :: (" locals=".toList ++ (toString k).toList) :=
    List.not_mem_append (notMem_toString (by decide) n)
      (List.not_mem_cons_of_ne_of_not_mem (by decide) (List.not_mem_append (by decide) (notMem_toString (by decide) k)))
  obtain ⟨hname, h⟩ := eq_of_append_last (hcounts _ _) (hcounts _ _) h
  obtain ⟨hparams, hlocals⟩ := eq_of_append_cons (notMem_toString (by decide) _) (notMem_toString (by decide) _) h
  exact {
    name := String.toList_inj.mp hname
    paramCount := UInt16.toNat_inj.mp (toString_nat_inj hparams)
    localCount := UInt16.toNat_inj.mp (toString_nat_inj (List.append_cancel_left hlocals))
    code := hcode }

end CompiledMethod

/-! ### Edits -/

namespace PatchEdit

/-- The word that the listing of an edit begins with. -/
def keyword : PatchEdit → String
  | addField .. => "field"
  | addStatic _ => "static"
  | addProperty .. => "property"
  | addMethod _ => "method"
  | replaceBody _ => "replace"
  | redirectInitializer .. => "redirect"

/-- What follows that word in the first row. -/
def subject : PatchEdit → List Char
  | addField name type role =>
    (name.toList ++ [':']) ++ ' ' :: ((type.toList ++ [' ']) ++ '(' :: (role.text.toList ++ [')']))
  | addProperty name type getter =>
    (name.toList ++ [':']) ++ ' ' :: (type.toList ++ ' ' :: ("get=".toList ++ getter.toList))
  | redirectInitializer property setter => property.toList ++ ' ' :: ("-> ".toList ++ setter.toList)
  | addStatic m | addMethod m | replaceBody m => m.head

/-- The instructions that an edit brings in. -/
def code : PatchEdit → List Instruction
  | addStatic m | addMethod m | replaceBody m => m.code
  | _ => []

/-- The first row of an edit. -/
def head (e : PatchEdit) : List Char := e.keyword.toList ++ ' ' :: e.subject

/-- The rows of an edit. -/
def rows (e : PatchEdit) : List (List Char) := e.head :: Instruction.rows 0 e.code

/-- The names in an edit are legible. -/
def Legible : PatchEdit → Prop
  | addField name type _ => IsWord name ∧ IsLine type
  | addProperty name type getter => IsWord name ∧ IsLine type ∧ IsWord getter
  | redirectInitializer property setter => IsWord property ∧ IsLine setter
  | addStatic m | addMethod m | replaceBody m => m.Legible

/-- The edits are the same but for numbers that are written alike. -/
inductive Alike : PatchEdit → PatchEdit → Prop
  | refl (e : PatchEdit) : Alike e e
  | addStatic {m m' : CompiledMethod} (h : m.Alike m') : Alike (addStatic m) (addStatic m')
  | addMethod {m m' : CompiledMethod} (h : m.Alike m') : Alike (addMethod m) (addMethod m')
  | replaceBody {m m' : CompiledMethod} (h : m.Alike m') : Alike (replaceBody m) (replaceBody m')

variable {e e' : PatchEdit}

theorem toList_listing (e : PatchEdit) : e.listing.toList = ofRows e.rows := by
  rw [rows, ofRows_cons, head]
  cases e
  case addField name type role => simp [listing, keyword, subject, code, Instruction.rows, ofRows]
  case addProperty name type getter => simp [listing, keyword, subject, code, Instruction.rows, ofRows]
  case redirectInitializer property setter => simp [listing, keyword, subject, code, Instruction.rows, ofRows]
  all_goals
    rw [listing, String.toList_append, CompiledMethod.toList_listing]
    simp [keyword, subject, code]

theorem role_text_inj : ∀ {r s : FieldRole}, r.text.toList = s.text.toList → r = s := by
  intro r s
  cases r <;> cases s <;> decide

theorem Legible.code (h : e.Legible) : ∀ i ∈ e.code, i.Legible := by
  cases e
  case addStatic m => exact h.2
  case addMethod m => exact h.2
  case replaceBody m => exact h.2
  all_goals exact nofun

theorem newline_notMem_head (h : e.Legible) : '\n' ∉ e.head := by
  have hkeyword : '\n' ∉ e.keyword.toList := by cases e <;> simp [keyword]
  refine List.not_mem_append hkeyword (List.not_mem_cons_of_ne_of_not_mem (by decide) ?_)
  cases e
  case addField name type role =>
    obtain ⟨⟨hname, -⟩, htype⟩ := h
    have hrole : '\n' ∉ role.text.toList := by cases role <;> decide
    simp [subject, hrole, show '\n' ∉ name.toList from hname, show '\n' ∉ type.toList from htype]
  case addProperty name type getter =>
    obtain ⟨⟨hname, -⟩, htype, hgetter, -⟩ := h
    simp [subject, show '\n' ∉ name.toList from hname, show '\n' ∉ type.toList from htype,
      show '\n' ∉ getter.toList from hgetter]
  case redirectInitializer property setter =>
    obtain ⟨⟨hproperty, -⟩, hsetter⟩ := h
    simp [subject, show '\n' ∉ property.toList from hproperty, show '\n' ∉ setter.toList from hsetter]
  all_goals exact CompiledMethod.newline_notMem_head h

theorem head_ne_blank (e : PatchEdit) : (e.head.head? == some ' ') = false := by
  cases e <;> simp [head, keyword]

theorem Alike.listing_eq (h : e.Alike e') : e.listing = e'.listing := by
  cases h with
  | refl => rfl
  | addStatic h | addMethod h | replaceBody h => rw [listing, listing, h.listing_eq]

theorem Alike.eq (he : e.Exact) (h : e.Alike e') : e = e' := by
  cases h with
  | refl => rfl
  | addStatic h | addMethod h | replaceBody h => rw [h.eq (he _ rfl)]

/-- An edit is known from its first row and its instructions. -/
theorem alike_of_head (he : e.Legible) (he' : e'.Legible) (h : e.head = e'.head)
    (hcode : List.Forall₂ Instruction.Alike e.code e'.code) : e.Alike e' := by
  have hword (e : PatchEdit) : ' ' ∉ e.keyword.toList := by cases e <;> simp [keyword]
  obtain ⟨hkeyword, h⟩ := eq_of_append_cons (hword e) (hword e') h
  have hnamed {n : String} (hn : IsWord n) : ' ' ∉ n.toList ++ [':'] := List.not_mem_append hn.2 (by decide)
  cases e <;> cases e' <;> simp [keyword] at hkeyword
  case addField.addField name type role name' type' role' =>
    have hrole (r : FieldRole) : '(' ∉ r.text.toList ++ [')'] := by cases r <;> decide
    obtain ⟨hname, h⟩ := eq_of_append_cons (hnamed he.1) (hnamed he'.1) h
    obtain ⟨htype, h⟩ := eq_of_append_last (hrole _) (hrole _) h
    rw [String.toList_inj.mp (List.append_cancel_right hname), String.toList_inj.mp (List.append_cancel_right htype),
      role_text_inj (List.append_cancel_right h)]
    exact .refl _
  case addProperty.addProperty name type getter name' type' getter' =>
    have hgetter {n : String} (hn : IsWord n) : ' ' ∉ "get=".toList ++ n.toList := List.not_mem_append (by decide) hn.2
    obtain ⟨hname, h⟩ := eq_of_append_cons (hnamed he.1) (hnamed he'.1) h
    obtain ⟨htype, h⟩ := eq_of_append_last (hgetter he.2.2) (hgetter he'.2.2) h
    rw [String.toList_inj.mp (List.append_cancel_right hname), String.toList_inj.mp htype,
      String.toList_inj.mp (List.append_cancel_left h)]
    exact .refl _
  case redirectInitializer.redirectInitializer property setter property' setter' =>
    obtain ⟨hproperty, h⟩ := eq_of_append_cons he.1.2 he'.1.2 h
    rw [String.toList_inj.mp hproperty, String.toList_inj.mp (List.append_cancel_left h)]
    exact .refl _
  case addStatic.addStatic m m' => exact .addStatic (CompiledMethod.alike_of_head h hcode)
  case addMethod.addMethod m m' => exact .addMethod (CompiledMethod.alike_of_head h hcode)
  case replaceBody.replaceBody m m' => exact .replaceBody (CompiledMethod.alike_of_head h hcode)

/-- Edits are known from their rows. -/
theorem forall₂_of_rows : ∀ {es es' : List PatchEdit}, (∀ e ∈ es, e.Legible) → (∀ e ∈ es', e.Legible) →
    es.flatMap rows = es'.flatMap rows → List.Forall₂ Alike es es'
  | [], [], _, _, _ => .nil
  | e :: es, e' :: es', hes, hes', h => by
    obtain ⟨he, hes⟩ := List.forall_mem_cons.mp hes
    obtain ⟨he', hes'⟩ := List.forall_mem_cons.mp hes'
    obtain ⟨hhead, hrest⟩ := List.cons.inj h
    -- The rows of the instructions end where a row begins with no blank.
    have hnext (es : List PatchEdit) : ∀ r ∈ (es.flatMap rows).head?, (r.head? == some ' ') = false := by
      cases es with
      | nil => exact nofun
      | cons e es =>
        rintro _ ⟨⟩
        exact head_ne_blank e
    obtain ⟨hcode, hrest⟩ :=
      eq_of_append Instruction.head?_of_mem_rows Instruction.head?_of_mem_rows (hnext es) (hnext es') hrest
    exact .cons (alike_of_head he he' hhead (Instruction.forall₂_of_rows he.code he'.code hcode))
      (forall₂_of_rows hes hes' hrest)

theorem newline_notMem_rows (h : e.Legible) : ∀ r ∈ e.rows, '\n' ∉ r :=
  List.forall_mem_cons.mpr ⟨newline_notMem_head h, Instruction.newline_notMem_rows h.code⟩

end PatchEdit

/-! ### Modules -/

namespace PatchModule

/-- The names in a module are legible. -/
def Legible (m : PatchModule) : Prop := IsLine m.className ∧ ∀ e ∈ m.edits, e.Legible

/-- The rows of a module. -/
def rows (m : PatchModule) : List (List Char) :=
  ("; patch ".toList ++ m.className.toList) :: m.edits.flatMap PatchEdit.rows

theorem toList_listing (m : PatchModule) : m.listing.toList = ofRows m.rows := by
  have hedits (es : List PatchEdit) :
      (String.join (es.map PatchEdit.listing)).toList = ofRows (es.flatMap PatchEdit.rows) := by
    induction es with
    | nil => rfl
    | cons e es ih =>
      rw [List.map_cons, String.join_cons, String.toList_append, PatchEdit.toList_listing, ih, List.flatMap_cons,
        ofRows_append]
  rw [listing, String.toList_append, hedits, rows, ofRows_cons]
  simp

theorem newline_notMem_rows {m : PatchModule} (h : m.Legible) : ∀ r ∈ m.rows, '\n' ∉ r := by
  refine List.forall_mem_cons.mpr ⟨List.not_mem_append (by decide) h.1, fun r hr => ?_⟩
  obtain ⟨e, he, hr⟩ := List.mem_flatMap.mp hr
  exact PatchEdit.newline_notMem_rows (h.2 e he) r hr

/-- **A listing says which edits a module has.**  Legible modules have one listing exactly if their classes have one name
and their edits are the same, one by one, but for numbers that are written alike. -/
theorem listing_eq_iff {m m' : PatchModule} (hm : m.Legible) (hm' : m'.Legible) :
    m.listing = m'.listing ↔ m.className = m'.className ∧ List.Forall₂ PatchEdit.Alike m.edits m'.edits := by
  constructor
  · intro h
    have hrows : ofRows m.rows = ofRows m'.rows := by rw [← toList_listing, ← toList_listing, h]
    obtain ⟨hclass, hedits⟩ := List.cons.inj (ofRows_inj (newline_notMem_rows hm) (newline_notMem_rows hm') hrows)
    exact ⟨String.toList_inj.mp (List.append_cancel_left hclass), PatchEdit.forall₂_of_rows hm.2 hm'.2 hedits⟩
  · rintro ⟨hclass, hedits⟩
    have halike : List.Forall₂ Eq (m.edits.map PatchEdit.listing) (m'.edits.map PatchEdit.listing) :=
      List.forall₂_map_left_iff.mpr (List.forall₂_map_right_iff.mpr (hedits.imp fun _ _ => PatchEdit.Alike.listing_eq))
    rw [List.forall₂_eq_eq_eq] at halike
    rw [listing, listing, hclass, halike]

/-- A legible module without such numbers is the only one that has its listing. -/
theorem eq_of_listing_eq {m m' : PatchModule} (hm : m.Legible) (hm' : m'.Legible) (hexact : m.Exact)
    (h : m.listing = m'.listing) : m.className = m'.className ∧ m.edits = m'.edits := by
  obtain ⟨hclass, hedits⟩ := (listing_eq_iff hm hm').mp h
  exact ⟨hclass, eq_of_forall₂ hedits fun e he _ => PatchEdit.Alike.eq (hexact e he)⟩

/-- A module that registers the instance of its class. -/
def registering (registry : String) (grouping : Option String) : PatchModule :=
  .ofEdits "A" [.addMethod ⟨"M", 0, 1, [.registerLocale registry grouping, .pop, .retVoid]⟩]

/-- A blank in the name of a registry looks like the one before a grouping: the edit can be changed without a trace. -/
example : (registering "a b" none).listing = (registering "a" (some "b")).listing := by decide +kernel

end PatchModule

end Reactive
