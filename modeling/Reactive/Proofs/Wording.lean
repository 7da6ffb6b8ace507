import Reactive.Patch.Module
import Reactive.Proofs.Cutting

/-!
# Reactive.Proofs.Wording — no two instructions have one text

* `Instruction.Operand`: what stands behind the mnemonic in the text of an instruction.  An operand of a given kind is known from
  its characters, if its names are legible: if a name keeps to its line, and to one word where a blank may follow
  (`Operand.eq_of_chars`).
* `Instruction.words`: an instruction as its mnemonic and its operand.  The mnemonic says of which kind the operand is
  (`kind_operand`), and both together which instruction it is (`ofWords_words`).
* `Instruction.alike_of_text`: instructions of one text are the same, or push numbers that are written alike.
-/

namespace Reactive

open Text

/-! ### Operands -/

/-- A word that is there or not. -/
def wordIf (word : String) (isThere : Bool) : List Char := if isThere then word.toList else []

/-- A text with a word before it, if there is one. -/
def announced (word : String) : Option String → List Char
  | some text => word.toList ++ text.toList
  | none => []

section

variable {word : String} {b b' : Bool} {cs cs' : List Char}

theorem newline_notMem_wordIf (hword : IsLine word) : '\n' ∉ wordIf word b := by
  cases b
  · exact List.not_mem_nil
  · exact hword

theorem newline_notMem_announced {s : Option String} (hword : IsLine word) (h : ∀ t ∈ s, IsLine t) :
    '\n' ∉ announced word s := by
  cases s with
  | none => exact List.not_mem_nil
  | some t => exact List.not_mem_append hword (h t rfl)

/-- One can tell whether a word is there by what else may stand in its place. -/
theorem wordIf_append_inj (hcs : ¬ word.toList <+: cs) (hcs' : ¬ word.toList <+: cs')
    (h : wordIf word b ++ cs = wordIf word b' ++ cs') : b = b' ∧ cs = cs' := by
  cases b <;> cases b'
  case false.false => exact ⟨rfl, h⟩
  case true.true => exact ⟨rfl, List.append_cancel_left h⟩
  case false.true => exact absurd ⟨cs', h.symm⟩ hcs
  case true.false => exact absurd ⟨cs, h⟩ hcs'

theorem announced_inj (hword : word.toList ≠ []) : ∀ {s t : Option String}, announced word s = announced word t → s = t
  | none, none, _ => rfl
  | none, some _, h => absurd (List.append_eq_nil_iff.mp h.symm).1 hword
  | some _, none, h => absurd (List.append_eq_nil_iff.mp h).1 hword
  | some _, some _, h => by rw [String.toList_inj.mp (List.append_cancel_left h)]

end

namespace CommandSpec

/-- What the text of a command says behind its method. -/
def conditions (spec : CommandSpec) : List Char :=
  wordIf " arg" spec.takesArgument ++ (wordIf " async" spec.isAsync ++ announced " when " spec.canExecute)

theorem head_conditions (spec : CommandSpec) : ∀ c ∈ spec.conditions.head?, c = ' ' := by
  obtain ⟨method, arg, async, _ | p⟩ := spec <;> cases arg <;> cases async <;> simp [conditions, wordIf, announced]

theorem newline_notMem_conditions (spec : CommandSpec) (h : ∀ p ∈ spec.canExecute, IsLine p) : '\n' ∉ spec.conditions :=
  List.not_mem_append (newline_notMem_wordIf (by decide))
    (List.not_mem_append (newline_notMem_wordIf (by decide)) (newline_notMem_announced (by decide) h))

theorem conditions_inj {a b : CommandSpec} (hmethod : a.method = b.method) (h : a.conditions = b.conditions) : a = b := by
  have hasync (p : Option String) : ¬ " async".toList <+: announced " when " p := by
    cases p <;> simp [announced]
  have harg (async : Bool) (p : Option String) : ¬ " arg".toList <+: wordIf " async" async ++ announced " when " p := by
    cases async <;> cases p <;> simp [wordIf, announced]
  obtain ⟨hargs, h⟩ := wordIf_append_inj (harg _ _) (harg _ _) h
  obtain ⟨hasyncs, h⟩ := wordIf_append_inj (hasync _) (hasync _) h
  have hcan := announced_inj (by decide) h
  cases a
  cases b
  simp_all

end CommandSpec

/-- What stands behind the mnemonic of an instruction; of a number with a point it is the text. -/
inductive Instruction.Operand
  | none
  | truth (value : Bool)
  | integer (value : Int64)
  | number (text : { s : String // IsLine s })
  | literal (value : String)
  | name (name : String)
  | index (i : UInt16)
  | counted (name : String) (argc : UInt8)
  | place (target : UInt64)
  | command (spec : CommandSpec)
  | registration (registry : String) (grouping : Option String)
  | binding (key target : String) (retain : Bool)

namespace Instruction.Operand

/-- The kinds of operands. -/
inductive Kind
  | none | truth | integer | number | literal | name | index | counted | place | command | registration | binding
deriving DecidableEq

/-- The kind of an operand. -/
def kind : Operand → Kind
  | none => .none
  | truth _ => .truth
  | integer _ => .integer
  | number _ => .number
  | literal _ => .literal
  | name _ => .name
  | index _ => .index
  | counted .. => .counted
  | place _ => .place
  | command _ => .command
  | registration .. => .registration
  | binding .. => .binding

/-- The characters behind the mnemonic. -/
def chars : Operand → List Char
  | none => []
  | truth b => ' ' :: (if b then "true" else "false").toList
  | integer i => ' ' :: (toString i.toInt).toList
  | number text => ' ' :: text.1.toList
  | literal s => ' ' :: (listed s).toList
  | name n => ' ' :: n.toList
  | index i => ' ' :: (toString i.toNat).toList
  | counted n argc => ' ' :: (n.toList ++ '/' :: (toString argc.toNat).toList)
  | place t => ' ' :: '@' :: (toString t.toNat).toList
  | command spec => ' ' :: (spec.method.toList ++ spec.conditions)
  | registration registry grouping => ' ' :: (registry.toList ++ announced " " grouping)
  | binding key target retain =>
    ' ' :: (key.toList ++ ' ' :: '-' :: '>' :: ' ' :: (target.toList ++ wordIf " retain" retain))

/-- Names keep to their line, and to one word where a blank may follow. -/
def Legible : Operand → Prop
  | name n | counted n _ => IsLine n
  | command spec => IsWord spec.method ∧ ∀ p ∈ spec.canExecute, IsLine p
  | registration registry grouping => IsWord registry ∧ ∀ g ∈ grouping, IsLine g
  | binding key target _ => IsWord key ∧ IsWord target
  | _ => True

theorem head_chars (o : Operand) : ∀ c ∈ o.chars.head?, c = ' ' := by cases o <;> simp [chars]

theorem newline_notMem_chars {o : Operand} (h : o.Legible) : '\n' ∉ o.chars := by
  have hbehind {c : Char} {cs : List Char} (hc : '\n' ≠ c) (hcs : '\n' ∉ cs) : '\n' ∉ c :: cs :=
    List.not_mem_cons_of_ne_of_not_mem hc hcs
  have hnat (n : Nat) : '\n' ∉ (toString n).toList := notMem_toString (by decide) n
  cases o
  case none => exact List.not_mem_nil
  case truth b => cases b <;> decide
  case integer i => exact hbehind (by decide) (newline_notMem_toString_int _)
  case number t => exact hbehind (by decide) t.2
  case literal s => exact hbehind (by decide) (isLine_listed s)
  case name n => exact hbehind (by decide) h
  case index i => exact hbehind (by decide) (hnat _)
  case counted n argc => exact hbehind (by decide) (List.not_mem_append h (hbehind (by decide) (hnat _)))
  case place t => exact hbehind (by decide) (hbehind (by decide) (hnat _))
  case command spec => exact hbehind (by decide) (List.not_mem_append h.1.1 (spec.newline_notMem_conditions h.2))
  case registration registry grouping =>
    exact hbehind (by decide) (List.not_mem_append h.1.1 (newline_notMem_announced (by decide) h.2))
  case binding key target retain =>
    refine hbehind (by decide) (List.not_mem_append h.1.1 ?_)
    iterate 4 refine hbehind (by decide) ?_
    exact List.not_mem_append h.2.1 (newline_notMem_wordIf (by decide))

/-- An operand of a known kind is known from its characters. -/
theorem eq_of_chars {o o' : Operand} (ho : o.Legible) (ho' : o'.Legible) (hkind : o.kind = o'.kind)
    (h : o.chars = o'.chars) : o = o' := by
  cases o <;> cases o' <;> cases hkind
  case none.none => rfl
  case truth.truth b b' =>
    cases b <;> cases b' <;> first | rfl | exact absurd h (by decide)
  case integer.integer i i' => rw [Int64.toInt_inj.mp (toString_int_inj (List.cons.inj h).2)]
  case number.number t t' => rw [Subtype.ext (String.toList_inj.mp (List.cons.inj h).2)]
  case literal.literal s s' => rw [listed_inj (List.cons.inj h).2]
  case name.name n n' => rw [String.toList_inj.mp (List.cons.inj h).2]
  case index.index i i' => rw [UInt16.toNat_inj.mp (toString_nat_inj (List.cons.inj h).2)]
  case counted.counted n argc n' argc' =>
    have hdigits (k : Nat) : '/' ∉ (toString k).toList := notMem_toString (by decide) k
    obtain ⟨hname, hargc⟩ := eq_of_append_last (hdigits _) (hdigits _) (List.cons.inj h).2
    rw [String.toList_inj.mp hname, UInt8.toNat_inj.mp (toString_nat_inj hargc)]
  case place.place t t' => rw [UInt64.toNat_inj.mp (toString_nat_inj (List.cons.inj (List.cons.inj h).2).2)]
  case command.command spec spec' =>
    obtain ⟨hmethod, hconditions⟩ :=
      eq_of_append_first ho.1.2 ho'.1.2 spec.head_conditions spec'.head_conditions (List.cons.inj h).2
    rw [CommandSpec.conditions_inj (String.toList_inj.mp hmethod) hconditions]
  case registration.registration r g r' g' =>
    have hspaced (s : Option String) : ∀ c ∈ (announced " " s).head?, c = ' ' := by cases s <;> simp [announced]
    obtain ⟨hregistry, hgrouping⟩ := eq_of_append_first ho.1.2 ho'.1.2 (hspaced g) (hspaced g') (List.cons.inj h).2
    rw [String.toList_inj.mp hregistry, announced_inj (by decide) hgrouping]
  case binding.binding key target retain key' target' retain' =>
    have hspaced (b : Bool) : ∀ c ∈ (wordIf " retain" b).head?, c = ' ' := by cases b <;> simp [wordIf]
    obtain ⟨hkey, hrest⟩ := eq_of_append_cons ho.1.2 ho'.1.2 (List.cons.inj h).2
    obtain ⟨htarget, hretain⟩ := eq_of_append_first ho.2.2 ho'.2.2 (hspaced retain) (hspaced retain')
      (List.cons.inj (List.cons.inj (List.cons.inj hrest).2).2).2
    rw [String.toList_inj.mp hkey, String.toList_inj.mp htarget]
    cases retain <;> cases retain' <;> first | rfl | exact absurd hretain (by decide)

end Instruction.Operand

namespace Instruction

/-- The mnemonic and the operand of an instruction. -/
def words : Instruction → String × Operand
  | pushNull => ("push.null", .none)
  | pushBool b => ("push.bool", .truth b)
  | pushInt i => ("push.int", .integer i)
  | pushFloat x => ("push.float", .number ⟨x.sourceText, x.isLine_sourceText⟩)
  | pushString s => ("push.str", .literal s)
  | pushDefault type => ("push.default", .name type)
  | loadThis => ("load.this", .none)
  | loadArg i => ("load.arg", .index i)
  | loadLocal i => ("load.local", .index i)
  | storeLocal i => ("store.local", .index i)
  | loadField n => ("load.field", .name n)
  | storeField n => ("store.field", .name n)
  | getProperty n => ("get.prop", .name n)
  | callMethod n argc => ("call", .counted n argc)
  | callHook n argc => ("call.hook", .counted n argc)
  | callStatic n => ("call.static", .name n)
  | callHost n argc => ("call.host", .counted n argc)
  | unary .not => ("not", .none)
  | unary .negate => ("neg", .none)
  | binary op => (op.mnemonic, .none)
  | dup => ("dup", .none)
  | pop => ("pop", .none)
  | jump t => ("jmp", .place t)
  | jumpIfFalse t => ("jmp.false", .place t)
  | jumpIfTrue t => ("jmp.true", .place t)
  | jumpIfNotNull t => ("jmp.notnull", .place t)
  | raiseChanging p => ("raise.changing", .name p)
  | raiseChanged p => ("raise.changed", .name p)
  | newCommand spec => ("new.command", .command spec)
  | registerLocale registry grouping => ("locale.register", .registration registry grouping)
  | addLocaleProperty key target retain => ("locale.add", .binding key target retain)
  | ret => ("ret", .none)
  | retVoid => ("ret.void", .none)

/-- The instruction of a mnemonic and an operand, unless it pushes a number with a point. -/
def ofWords : String → Operand → Option Instruction
  | "push.bool", .truth b => some (pushBool b)
  | "push.int", .integer i => some (pushInt i)
  | "push.str", .literal s => some (pushString s)
  | "push.default", .name type => some (pushDefault type)
  | "load.arg", .index i => some (loadArg i)
  | "load.local", .index i => some (loadLocal i)
  | "store.local", .index i => some (storeLocal i)
  | "load.field", .name n => some (loadField n)
  | "store.field", .name n => some (storeField n)
  | "get.prop", .name n => some (getProperty n)
  | "call", .counted n argc => some (callMethod n argc)
  | "call.hook", .counted n argc => some (callHook n argc)
  | "call.static", .name n => some (callStatic n)
  | "call.host", .counted n argc => some (callHost n argc)
  | "jmp", .place t => some (jump t)
  | "jmp.false", .place t => some (jumpIfFalse t)
  | "jmp.true", .place t => some (jumpIfTrue t)
  | "jmp.notnull", .place t => some (jumpIfNotNull t)
  | "raise.changing", .name p => some (raiseChanging p)
  | "raise.changed", .name p => some (raiseChanged p)
  | "new.command", .command spec => some (newCommand spec)
  | "locale.register", .registration registry grouping => some (registerLocale registry grouping)
  | "locale.add", .binding key target retain => some (addLocaleProperty key target retain)
  | mnemonic, .none =>
    ([pushNull, loadThis, unary .not, unary .negate, dup, pop, ret, retVoid] ++ StrictOp.all.map binary).find?
      fun i => i.words.1 = mnemonic
  | _, _ => none

/-- The kind of operand that a mnemonic has. -/
def kindOf : String → Operand.Kind
  | "push.bool" => .truth
  | "push.int" => .integer
  | "push.float" => .number
  | "push.str" => .literal
  | "push.default" | "load.field" | "store.field" | "get.prop" | "call.static" => .name
  | "raise.changing" | "raise.changed" => .name
  | "load.arg" | "load.local" | "store.local" => .index
  | "call" | "call.hook" | "call.host" => .counted
  | "jmp" | "jmp.false" | "jmp.true" | "jmp.notnull" => .place
  | "new.command" => .command
  | "locale.register" => .registration
  | "locale.add" => .binding
  | _ => .none

theorem kind_operand (i : Instruction) : i.words.2.kind = kindOf i.words.1 := by
  cases i
  case unary op => cases op <;> rfl
  case binary op => cases op <;> rfl
  all_goals rfl

theorem ofWords_words (i : Instruction) : ofWords i.words.1 i.words.2 = some i ∨ ∃ x, i = pushFloat x := by
  cases i
  case pushFloat x => exact .inr ⟨x, rfl⟩
  case unary op => cases op <;> exact .inl (by decide)
  case binary op => cases op <;> exact .inl (by decide)
  all_goals exact .inl rfl

/-- A mnemonic with a blank behind it, and what follows. -/
theorem toList_behind {m word text : String} {cs : List Char} (hword : word.toList = m.toList ++ [' '])
    (htext : text.toList = cs) : (word ++ text).toList = m.toList ++ ' ' :: cs := by
  rw [String.toList_append, hword, htext, List.append_assoc, List.singleton_append]

theorem toList_withCount (name : String) (argc : UInt8) :
    (withCount name argc).toList = name.toList ++ '/' :: (toString argc.toNat).toList := by
  rw [withCount, String.toList_append, String.toList_append, List.append_assoc]
  rfl

theorem toList_jumpText (mnemonic : String) (t : UInt64) :
    (jumpText mnemonic t).toList = mnemonic.toList ++ ' ' :: '@' :: (toString t.toNat).toList := by
  rw [jumpText, String.toList_append, String.toList_append, List.append_assoc]
  rfl

theorem toList_commandText (spec : CommandSpec) :
    (commandText spec).toList = "new.command".toList ++ ' ' :: (spec.method.toList ++ spec.conditions) := by
  obtain ⟨method, arg, async, _ | p⟩ := spec <;> cases arg <;> cases async <;>
    simp [commandText, CommandSpec.conditions, wordIf, announced]

/-- The text of an instruction is its mnemonic and what stands behind it. -/
theorem toList_text : ∀ i : Instruction, i.text.toList = i.words.1.toList ++ i.words.2.chars
  | pushNull | loadThis | unary .not | unary .negate | binary _ | dup | pop | ret | retVoid => (List.append_nil _).symm
  | pushBool _ | pushInt _ | pushFloat _ | pushString _ | pushDefault _ | loadArg _ | loadLocal _ | storeLocal _
  | loadField _ | storeField _ | getProperty _ | callStatic _ | raiseChanging _ | raiseChanged _ => by
    simp only [words]
    exact toList_behind rfl rfl
  | callMethod n argc | callHook n argc | callHost n argc => by
    simp only [words]
    exact toList_behind rfl (toList_withCount n argc)
  | jump t | jumpIfFalse t | jumpIfTrue t | jumpIfNotNull t => toList_jumpText _ t
  | newCommand spec => toList_commandText spec
  | registerLocale registry none => toList_behind (m := "locale.register") rfl (List.append_nil _).symm
  | registerLocale registry (some grouping) => by
    show ("locale.register " ++ registry ++ " " ++ grouping).toList =
      "locale.register".toList ++ ' ' :: (registry.toList ++ ' ' :: grouping.toList)
    simp
  | addLocaleProperty key target retain => by
    show ("locale.add " ++ key ++ " -> " ++ target ++ if retain then " retain" else "").toList =
      "locale.add".toList ++ ' ' :: (key.toList ++ ' ' :: '-' :: '>' :: ' ' :: (target.toList ++ wordIf " retain" retain))
    cases retain <;> simp [wordIf]

theorem isWord_mnemonic (i : Instruction) : IsWord i.words.1 := by
  cases i
  case unary op => cases op <;> decide
  case binary op => cases op <;> decide
  all_goals simp [words, IsWord, IsLine]

/-- The names of the instruction are legible. -/
def Legible (i : Instruction) : Prop := i.words.2.Legible

/-- The instructions are the same, or push numbers that are written alike. -/
def Alike (i j : Instruction) : Prop := i = j ∨ ∃ x y, i = pushFloat x ∧ j = pushFloat y ∧ x.sourceText = y.sourceText

variable {i j : Instruction}

theorem Alike.text_eq (h : i.Alike j) : i.text = j.text := by
  rcases h with rfl | ⟨x, y, rfl, rfl, h⟩
  · rfl
  · exact congrArg ("push.float " ++ ·) h

theorem isLine_text (h : i.Legible) : IsLine i.text := by
  unfold IsLine
  rw [toList_text, List.mem_append, not_or]
  exact ⟨(isWord_mnemonic i).1, Operand.newline_notMem_chars h⟩

theorem alike_of_words (h : i.words = j.words) : i.Alike j := by
  rcases ofWords_words i with hi | ⟨x, rfl⟩
  · rcases ofWords_words j with hj | ⟨y, rfl⟩
    · rw [h, hj] at hi
      exact .inl (Option.some.inj hi).symm
    · rw [h] at hi
      cases hi
  · rcases ofWords_words j with hj | ⟨y, rfl⟩
    · rw [← h] at hj
      cases hj
    · exact .inr ⟨x, y, rfl, rfl, by simpa [words] using h⟩

/-- **No two instructions have one text**, but for numbers that are written alike. -/
theorem alike_of_text (hi : i.Legible) (hj : j.Legible) (h : i.text = j.text) : i.Alike j := by
  have hchars := congrArg String.toList h
  rw [toList_text, toList_text] at hchars
  obtain ⟨hmnemonic, hoperand⟩ := eq_of_append_first (isWord_mnemonic i).2 (isWord_mnemonic j).2
    (Operand.head_chars _) (Operand.head_chars _) hchars
  have hmnemonic := String.toList_inj.mp hmnemonic
  have hkind : i.words.2.kind = j.words.2.kind := by rw [kind_operand, kind_operand, hmnemonic]
  exact alike_of_words (Prod.ext hmnemonic (Operand.eq_of_chars hi hj hkind hoperand))

end Instruction

end Reactive
