import Mathlib.Algebra.Group.Int.Defs
import Mathlib.Algebra.Group.Nat.Defs
import Reactive.Patch.Stored
import Reactive.Proofs.Written

/-!
# Reactive.Proofs.Stored — stored modules are read back

* `Json.integerOf?_int`: the text of an integer that fits 64 bits stands for it; so the widths of integers that modules
  hold are read back (`natBelow?_nat`, `int64?_int`).
* `Exact`: an instruction, and what is made of instructions, that pushes no number with a point.  What is exact is stored
  as a plain value (`toJson_plain`) and is what that value stands for (`ofJson?_toJson`); one lemma each for
  instructions, methods, edits and modules.
* `PatchModule.stored_reads_back`: the stored text of an exact module is read as that module.
-/

namespace Reactive

/-! ### Numbers and lists -/

namespace Json

variable {i : Int} {n : Nat}

/-- The parts of an integer: it has neither a point nor an exponent. -/
theorem numeral_int (i : Int) : numeral (toString i) = ⟨decide (i < 0), Nat.toDigits 10 i.natAbs, [], none⟩ := by
  have hdigits : (Nat.toDigits 10 i.natAbs).takeWhile Char.isDigit = Nat.toDigits 10 i.natAbs :=
    List.takeWhile_eq_self_iff.mpr fun _ => isDigit_of_mem_toDigits
  have hrest : (Nat.toDigits 10 i.natAbs).dropWhile Char.isDigit = [] :=
    List.dropWhile_eq_nil_iff.mpr fun _ => isDigit_of_mem_toDigits
  unfold numeral
  rw [toList_toString_int]
  by_cases hi : i < 0
  · rw [if_pos hi]
    simp [hi, hdigits, hrest]
  · obtain ⟨d, ds, hds⟩ := List.exists_cons_of_ne_nil (Nat.toDigits_ne_nil (n := i.natAbs) (b := 10))
    have hd : d ≠ '-' := by
      rintro rfl
      exact absurd (isDigit_of_mem_toDigits (n := i.natAbs) (hds ▸ List.mem_cons_self)) (by decide)
    have hhead : (Nat.toDigits 10 i.natAbs).head? ≠ some '-' := by simpa [hds] using hd
    rw [if_neg hi]
    simp [hi, hdigits, hrest, hhead]

/-- An integer that fits 64 bits is read back. -/
theorem integerOf?_int (hmin : -2 ^ 63 ≤ i) (hmax : i < 2 ^ 64) : integerOf? (toString i) = some i := by
  unfold integerOf?
  rw [numeral_int]
  dsimp only
  rw [Lexer.natOfDigits_toDigits, if_neg (by simp)]
  by_cases hi : i < 0
  · rw [if_pos (decide_eq_true hi), if_neg, Int.ofNat_natAbs_of_nonpos (Int.le_of_lt hi), Int.neg_neg]
    simp only [Bool.or_eq_true, decide_eq_true_eq, not_or]
    omega
  · rw [if_neg (by simpa using hi), if_pos, Int.natAbs_of_nonneg (Int.not_lt.mp hi)]
    show i.natAbs < 2 ^ 64
    omega

theorem natBelow?_nat {bound : Nat} (hn : n < bound) (hbound : bound ≤ 2 ^ 64) : (nat n).natBelow? bound = some n := by
  have hread : integerOf? (toString n) = some (n : Int) := integerOf?_int (i := n) (by omega) (by omega)
  show (integerOf? (toString n)).bind (fun i => if 0 ≤ i ∧ i < bound then some i.toNat else none) = some n
  rw [hread, Option.bind_some, if_pos ⟨by omega, by omega⟩]
  rfl

theorem bind_uint8 {α : Type} (f : UInt8 → α) (i : UInt8) :
    ((nat i.toNat).natBelow? UInt8.size).bind (fun k => some (f (UInt8.ofNat k))) = some (f i) := by
  rw [natBelow?_nat i.toNat_lt (by decide), Option.bind_some, UInt8.ofNat_toNat]

theorem map_uint16 {α : Type} (f : UInt16 → α) (i : UInt16) :
    (fun k => f (UInt16.ofNat k)) <$> (nat i.toNat).natBelow? UInt16.size = some (f i) := by
  rw [natBelow?_nat i.toNat_lt (by decide), Option.map_eq_map, Option.map_some, UInt16.ofNat_toNat]

theorem map_uint64 {α : Type} (f : UInt64 → α) (i : UInt64) :
    (fun k => f (UInt64.ofNat k)) <$> (nat i.toNat).natBelow? UInt64.size = some (f i) := by
  rw [natBelow?_nat i.toNat_lt le_rfl, Option.map_eq_map, Option.map_some, UInt64.ofNat_toNat]

theorem int64?_int (i : Int64) : (int i.toInt).int64? = some i := by
  have hread : integerOf? (toString i.toInt) = some i.toInt :=
    integerOf?_int (Int64.le_toInt i) (by have := Int64.toInt_lt i; omega)
  show (integerOf? (toString i.toInt)).bind _ = some i
  rw [hread, Option.bind_some, if_pos ⟨Int64.le_toInt i, Int64.toInt_le i⟩, Int64.ofInt_toInt]

theorem plain_nat (n : Nat) : (nat n).Plain := ⟨n, rfl⟩

theorem plain_int (i : Int) : (int i).Plain := ⟨i, rfl⟩

theorem plain_optString : ∀ s : Option String, (optString s).Plain
  | none | some _ => trivial

theorem plainAll_map {α : Type} {f : α → Json} : ∀ {xs : List α}, (∀ x ∈ xs, (f x).Plain) → PlainAll (xs.map f)
  | [], _ => trivial
  | x :: _, h => ⟨h x List.mem_cons_self, plainAll_map fun y hy => h y (List.mem_cons_of_mem x hy)⟩

end Json

open Json

/-! ### Instructions -/

namespace Instruction

/-- The instruction pushes no number with a point. -/
def Exact (i : Instruction) : Prop := ∀ x, i ≠ pushFloat x

theorem toJson_plain : ∀ {i : Instruction}, i.Exact → i.toJson.Plain
  | pushNull, _ | loadThis, _ | dup, _ | pop, _ | ret, _ | retVoid, _ => trivial
  | pushBool _, _ | pushString _, _ | pushDefault _, _ | loadField _, _ | storeField _, _ | getProperty _, _
  | callStatic _, _ | unary _, _ | binary _, _ | raiseChanging _, _ | raiseChanged _, _ => ⟨trivial, trivial⟩
  | pushInt i, _ => ⟨plain_int i.toInt, trivial⟩
  | pushFloat x, h => absurd rfl (h x)
  | loadArg i, _ | loadLocal i, _ | storeLocal i, _ => ⟨plain_nat i.toNat, trivial⟩
  | jump t, _ | jumpIfFalse t, _ | jumpIfTrue t, _ | jumpIfNotNull t, _ => ⟨plain_nat t.toNat, trivial⟩
  | callMethod _ argc, _ | callHook _ argc, _ | callHost _ argc, _ =>
    ⟨⟨trivial, plain_nat argc.toNat, trivial⟩, trivial⟩
  | newCommand spec, _ => ⟨⟨trivial, trivial, trivial, plain_optString spec.canExecute, trivial⟩, trivial⟩
  | registerLocale _ grouping, _ => ⟨⟨trivial, plain_optString grouping, trivial⟩, trivial⟩
  | addLocaleProperty _ _ _, _ => ⟨⟨trivial, trivial, trivial, trivial⟩, trivial⟩

theorem ofJson?_toJson : ∀ {i : Instruction}, i.Exact → ofJson? i.toJson = some i
  | pushNull, _ | loadThis, _ | dup, _ | pop, _ | ret, _ | retVoid, _ => rfl
  | pushBool _, _ | pushString _, _ | pushDefault _, _ | loadField _, _ | storeField _, _ | getProperty _, _
  | callStatic _, _ | raiseChanging _, _ | raiseChanged _, _ => rfl
  | unary op, _ => by cases op <;> rfl
  | binary op, _ => by cases op <;> rfl
  | pushInt i, _ => by
    show pushInt <$> (int i.toInt).int64? = _
    rw [int64?_int]
    rfl
  | pushFloat x, h => absurd rfl (h x)
  | loadArg i, _ => map_uint16 loadArg i
  | loadLocal i, _ => map_uint16 loadLocal i
  | storeLocal i, _ => map_uint16 storeLocal i
  | jump t, _ => map_uint64 jump t
  | jumpIfFalse t, _ => map_uint64 jumpIfFalse t
  | jumpIfTrue t, _ => map_uint64 jumpIfTrue t
  | jumpIfNotNull t, _ => map_uint64 jumpIfNotNull t
  | callMethod name argc, _ => bind_uint8 (callMethod name) argc
  | callHook name argc, _ => bind_uint8 (callHook name) argc
  | callHost name argc, _ => bind_uint8 (callHost name) argc
  | newCommand ⟨_, _, _, canExecute⟩, _ => by cases canExecute <;> rfl
  | registerLocale _ grouping, _ => by cases grouping <;> rfl
  | addLocaleProperty _ _ _, _ => rfl

end Instruction

/-! ### Methods, edits and modules -/

theorem FieldRole.ofJson?_storedName : ∀ role : FieldRole, FieldRole.ofJson? (.string role.storedName) = some role
  | propertySlot | derivedSlot | lazyFlag | commandSlot => rfl

namespace CompiledMethod

/-- The code pushes no number with a point. -/
def Exact (m : CompiledMethod) : Prop := ∀ i ∈ m.code, i.Exact

theorem toJson_plain {m : CompiledMethod} (h : m.Exact) : m.toJson.Plain :=
  ⟨trivial, plain_nat m.paramCount.toNat, plain_nat m.localCount.toNat,
    plainAll_map fun i hi => Instruction.toJson_plain (h i hi), trivial⟩

theorem ofJson?_toJson {m : CompiledMethod} (h : m.Exact) : ofJson? m.toJson = some m := by
  have hparams : (nat m.paramCount.toNat).natBelow? UInt16.size = some m.paramCount.toNat :=
    natBelow?_nat m.paramCount.toNat_lt (by decide)
  have hlocals : (nat m.localCount.toNat).natBelow? UInt16.size = some m.localCount.toNat :=
    natBelow?_nat m.localCount.toNat_lt (by decide)
  have hcode : (m.code.map Instruction.toJson).mapM Instruction.ofJson? = some m.code :=
    mapM_map fun i hi => Instruction.ofJson?_toJson (h i hi)
  show ((nat m.paramCount.toNat).natBelow? UInt16.size).bind (fun params =>
    ((nat m.localCount.toNat).natBelow? UInt16.size).bind fun locals =>
      ((m.code.map Instruction.toJson).mapM Instruction.ofJson?).bind fun code =>
        some ⟨m.name, UInt16.ofNat params, UInt16.ofNat locals, code⟩) = some m
  rw [hparams, Option.bind_some, hlocals, Option.bind_some, hcode, Option.bind_some, UInt16.ofNat_toNat,
    UInt16.ofNat_toNat]

end CompiledMethod

namespace PatchEdit

/-- The method of the edit, if it has one, pushes no number with a point. -/
def Exact (e : PatchEdit) : Prop := ∀ m ∈ e.method?, m.Exact

theorem toJson_plain : ∀ {e : PatchEdit}, e.Exact → e.toJson.Plain
  | addField _ _ _, _ | addProperty _ _ _, _ => ⟨⟨trivial, trivial, trivial, trivial⟩, trivial⟩
  | redirectInitializer _ _, _ => ⟨⟨trivial, trivial, trivial⟩, trivial⟩
  | addStatic m, h | addMethod m, h | replaceBody m, h => ⟨⟨CompiledMethod.toJson_plain (h m rfl), trivial⟩, trivial⟩

theorem ofJson?_toJson : ∀ {e : PatchEdit}, e.Exact → ofJson? e.toJson = some e
  | addField name type role, _ => by
    show (FieldRole.ofJson? (.string role.storedName)).bind (fun role => some (addField name type role)) = _
    rw [FieldRole.ofJson?_storedName, Option.bind_some]
  | addProperty _ _ _, _ | redirectInitializer _ _, _ => rfl
  | addStatic m, h => by
    show (CompiledMethod.ofJson? m.toJson).bind (fun m => some (addStatic m)) = _
    rw [CompiledMethod.ofJson?_toJson (h m rfl), Option.bind_some]
  | addMethod m, h => by
    show (CompiledMethod.ofJson? m.toJson).bind (fun m => some (addMethod m)) = _
    rw [CompiledMethod.ofJson?_toJson (h m rfl), Option.bind_some]
  | replaceBody m, h => by
    show (CompiledMethod.ofJson? m.toJson).bind (fun m => some (replaceBody m)) = _
    rw [CompiledMethod.ofJson?_toJson (h m rfl), Option.bind_some]

end PatchEdit

namespace PatchModule

/-- No method of the module pushes a number with a point. -/
def Exact (m : PatchModule) : Prop := ∀ e ∈ m.edits, e.Exact

theorem toJson_plain {m : PatchModule} (h : m.Exact) : m.toJson.Plain :=
  ⟨trivial, plainAll_map fun e he => PatchEdit.toJson_plain (h e he), plain_nat m.checksum.toNat, trivial⟩

theorem ofJson?_toJson {m : PatchModule} (h : m.Exact) : ofJson? m.toJson = some m := by
  have hedits : (m.edits.map PatchEdit.toJson).mapM PatchEdit.ofJson? = some m.edits :=
    mapM_map fun e he => PatchEdit.ofJson?_toJson (h e he)
  have hchecksum : (nat m.checksum.toNat).natBelow? UInt32.size = some m.checksum.toNat :=
    natBelow?_nat m.checksum.toNat_lt (by decide)
  show ((m.edits.map PatchEdit.toJson).mapM PatchEdit.ofJson?).bind (fun edits =>
    ((nat m.checksum.toNat).natBelow? UInt32.size).bind fun checksum =>
      some ⟨m.className, edits, UInt32.ofNat checksum⟩) = some m
  rw [hedits, Option.bind_some, hchecksum, Option.bind_some, UInt32.ofNat_toNat]

/-- A stored module that pushes no number with a point is read back as it was, and is intact if it was. -/
theorem stored_reads_back (m : PatchModule)
    (h : ∀ e ∈ m.edits, ∀ method, e.method? = some method → ∀ i ∈ method.code, ∀ x, i ≠ .pushFloat x) :
    ofStored? m.stored = some m ∧ (ofStored? m.stored).map isIntact = some m.isIntact := by
  have hexact : m.Exact := fun e he method hmethod => h e he method hmethod
  have hread : ofStored? m.stored = some m := by
    show (parse? m.toJson.pretty).bind ofJson? = some m
    rw [parse?_pretty (toJson_plain hexact), Option.bind_some, ofJson?_toJson hexact]
  rw [hread]
  exact ⟨rfl, rfl⟩

/-- Quotes, backslashes, control characters, what may be missing and what is there: all of it comes back. -/
theorem stored_reads_back_escaped :
    let method : CompiledMethod := ⟨"\"set\" \\ \n\t", 1, 2,
      [.pushInt Int64.minValue, .pushString "\x00\x1f\x7f é \u2028 𝄞 \\u0041", .unary .negate, .jump 18446744073709551615,
        .newCommand ⟨"Run", true, false, none⟩, .newCommand ⟨"Run", false, true, some "\"May\""⟩,
        .registerLocale "en\\US" none, .registerLocale "" (some "\r\n"), .addLocaleProperty "key" "" true, .retVoid]⟩
    let m := ofEdits "Class \"A\"" [.addField "_x" "int" .lazyFlag, .addStatic method, .redirectInitializer "\\" "/"]
    ofStored? m.stored = some m ∧ (ofStored? m.stored).map isIntact = some true := by
  intro method m
  have hexact : ∀ e ∈ m.edits, ∀ method', e.method? = some method' → ∀ i ∈ method'.code, ∀ x, i ≠ .pushFloat x := by
    simp [m, method, ofEdits, PatchModule.sealed, PatchEdit.method?]
  obtain ⟨hread, hintact⟩ := stored_reads_back m hexact
  exact ⟨hread, hintact.trans (congrArg some (isIntact_sealed _))⟩

end PatchModule

end Reactive
