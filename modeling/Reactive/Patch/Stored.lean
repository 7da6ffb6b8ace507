import Reactive.Json.Number
import Reactive.Json.Reader
import Reactive.Patch.Module

/-!
# Reactive.Patch.Stored — the stored form of patch modules

A patch module is stored as JSON.  An edit or an instruction is its name, or an object whose one field is named so and
holds its contents.  Reading takes the fields of a record in any order and ignores fields it does not know; a record
may also be an array of its fields.
-/

namespace Reactive

/-! ### Writing -/

namespace Instruction

/-- An instruction with a single content. -/
private def tagged (name : String) (content : Json) : Json := .object [(name, content)]

/-- A call as it is stored. -/
private def callJson (tag name : String) (argc : UInt8) : Json :=
  tagged tag (.object [("name", .string name), ("argc", .nat argc.toNat)])

/-- A strict operator as it is stored. -/
def strictName : StrictOp → String
  | .add => "Add"
  | .sub => "Sub"
  | .mul => "Mul"
  | .div => "Div"
  | .mod => "Mod"
  | .eq => "Eq"
  | .ne => "Ne"
  | .lt => "Lt"
  | .le => "Le"
  | .gt => "Gt"
  | .ge => "Ge"

/-- A number as it is stored; what is not finite is stored as null. -/
def doubleJson (x : Double) : Json :=
  match x.storedText with
  | some text => .number text
  | none => .null

/-- An instruction as it is stored. -/
def toJson : Instruction → Json
  | pushNull => .string "PushNull"
  | pushBool b => tagged "PushBool" (.bool b)
  | pushInt i => tagged "PushInt" (.int i.toInt)
  | pushFloat x => tagged "PushFloat" (doubleJson x)
  | pushString s => tagged "PushStr" (.string s)
  | pushDefault type => tagged "PushDefault" (.string type)
  | loadThis => .string "LoadThis"
  | loadArg i => tagged "LoadArg" (.nat i.toNat)
  | loadLocal i => tagged "LoadLocal" (.nat i.toNat)
  | storeLocal i => tagged "StoreLocal" (.nat i.toNat)
  | loadField name => tagged "LoadField" (.string name)
  | storeField name => tagged "StoreField" (.string name)
  | getProperty name => tagged "GetProperty" (.string name)
  | callMethod name argc => callJson "CallMethod" name argc
  | callHook name argc => callJson "CallHook" name argc
  | callStatic name => tagged "CallStatic" (.string name)
  | callHost name argc => callJson "CallHost" name argc
  | unary op => tagged "Unary" (.string (UnaryOp.title op))
  | binary op => tagged "Binary" (.string (strictName op))
  | dup => .string "Dup"
  | pop => .string "Pop"
  | jump t => tagged "Jump" (.nat t.toNat)
  | jumpIfFalse t => tagged "JumpIfFalse" (.nat t.toNat)
  | jumpIfTrue t => tagged "JumpIfTrue" (.nat t.toNat)
  | jumpIfNotNull t => tagged "JumpIfNotNull" (.nat t.toNat)
  | raiseChanging p => tagged "RaiseChanging" (.string p)
  | raiseChanged p => tagged "RaiseChanged" (.string p)
  | newCommand spec =>
    tagged "NewCommand" <| .object
      [("method", .string spec.method), ("takes_argument", .bool spec.takesArgument),
        ("is_async", .bool spec.isAsync), ("can_execute", .optString spec.canExecute)]
  | registerLocale registry grouping =>
    tagged "RegisterLocale" (.object [("registry", .string registry), ("grouping", .optString grouping)])
  | addLocaleProperty key target retain =>
    tagged "AddLocaleProperty" (.object [("key", .string key), ("target", .string target), ("retain", .bool retain)])
  | ret => .string "Return"
  | retVoid => .string "ReturnVoid"

end Instruction

/-- The name of what a field stores, as it is stored. -/
def FieldRole.storedName : FieldRole → String
  | propertySlot => "PropertySlot"
  | derivedSlot => "DerivedSlot"
  | lazyFlag => "LazyFlag"
  | commandSlot => "CommandSlot"

/-- A method as it is stored. -/
def CompiledMethod.toJson (m : CompiledMethod) : Json :=
  .object
    [("name", .string m.name), ("param_count", .nat m.paramCount.toNat), ("local_count", .nat m.localCount.toNat),
      ("code", .array (m.code.map Instruction.toJson))]

/-- An edit as it is stored. -/
def PatchEdit.toJson : PatchEdit → Json
  | addField name type role =>
    .object [("AddField",
      .object [("name", .string name), ("ty", .string type), ("role", .string role.storedName)])]
  | addStatic m => .object [("AddStatic", .object [("method", m.toJson)])]
  | addProperty name type getter =>
    .object [("AddProperty",
      .object [("name", .string name), ("ty", .string type), ("getter", .string getter)])]
  | addMethod m => .object [("AddMethod", .object [("method", m.toJson)])]
  | replaceBody m => .object [("ReplaceBody", .object [("method", m.toJson)])]
  | redirectInitializer property setter =>
    .object [("RedirectInitializer", .object [("property", .string property), ("setter", .string setter)])]

/-- A module as it is stored. -/
def PatchModule.toJson (m : PatchModule) : Json :=
  .object
    [("class", .string m.className), ("edits", .array (m.edits.map PatchEdit.toJson)),
      ("checksum", .nat m.checksum.toNat)]

/-- The text of a stored module. -/
def PatchModule.stored (m : PatchModule) : String := m.toJson.pretty

/-! ### Reading -/

namespace Json

/-- The values of the fields of a record, in the order of `names`: an object in which none of them stands twice, or an
array with exactly these fields. -/
def record? (names : List String) : Json → Option (List (Option Json))
  | object fields =>
    if names.any fun n => (fields.filter (·.1 == n)).length > 1 then none
    else some (names.map fun n => List.lookup n fields)
  | array items => if items.length = names.length then some (items.map some) else none
  | _ => none

/-- The name and the contents of one of several variants. -/
def variant? : Json → Option (String × Option Json)
  | string name => some (name, none)
  | object [(name, content)] => some (name, some content)
  | _ => none

/-- A natural number below a bound. -/
def natBelow? (bound : Nat) : Json → Option Nat
  | number text => do
    let i ← integerOf? text
    if 0 ≤ i ∧ i < bound then some i.toNat else none
  | _ => none

/-- An integer of 64 bits with a sign. -/
def int64? : Json → Option Int64
  | number text => do
    let i ← integerOf? text
    if Int64.minValue.toInt ≤ i ∧ i ≤ Int64.maxValue.toInt then some (Int64.ofInt i) else none
  | _ => none

/-- A number. -/
def double? : Json → Option Double
  | number text => doubleOf? text
  | _ => none

/-- A field that may be missing or null. -/
def nullable? : Option Json → Option (Option String)
  | none | some null => some none
  | some (string s) => some (some s)
  | some _ => none

end Json

namespace Instruction

/-- A name and a number of arguments. -/
private def readCall (build : String → UInt8 → Instruction) (content : Json) : Option Instruction := do
  match ← content.record? ["name", "argc"] with
  | [name, argc] => return build (← (← name).string?) (UInt8.ofNat (← (← argc).natBelow? UInt8.size))
  | _ => none

/-- The operator of a name, which has no contents. -/
private def readOperator {α : Type} (all : List α) (name : α → String) (content : Json) : Option α := do
  match ← content.variant? with
  | (n, none) | (n, some .null) => all.find? (name · == n)
  | _ => none

/-- The contents of a command. -/
private def readCommand (content : Json) : Option CommandSpec := do
  match ← content.record? ["method", "takes_argument", "is_async", "can_execute"] with
  | [method, takesArgument, isAsync, canExecute] =>
    return ⟨← (← method).string?, ← (← takesArgument).bool?, ← (← isAsync).bool?, ← Json.nullable? canExecute⟩
  | _ => none

/-- An instruction with contents. -/
private def readTagged (name : String) (content : Json) : Option Instruction :=
  match name with
  | "PushBool" => pushBool <$> content.bool?
  | "PushInt" => pushInt <$> content.int64?
  | "PushFloat" => pushFloat <$> content.double?
  | "PushStr" => pushString <$> content.string?
  | "PushDefault" => pushDefault <$> content.string?
  | "LoadArg" => (loadArg <| UInt16.ofNat ·) <$> content.natBelow? UInt16.size
  | "LoadLocal" => (loadLocal <| UInt16.ofNat ·) <$> content.natBelow? UInt16.size
  | "StoreLocal" => (storeLocal <| UInt16.ofNat ·) <$> content.natBelow? UInt16.size
  | "LoadField" => loadField <$> content.string?
  | "StoreField" => storeField <$> content.string?
  | "GetProperty" => getProperty <$> content.string?
  | "CallMethod" => readCall callMethod content
  | "CallHook" => readCall callHook content
  | "CallStatic" => callStatic <$> content.string?
  | "CallHost" => readCall callHost content
  | "Unary" => unary <$> readOperator [.not, .negate] UnaryOp.title content
  | "Binary" => binary <$> readOperator StrictOp.all strictName content
  | "Jump" => (jump <| UInt64.ofNat ·) <$> content.natBelow? UInt64.size
  | "JumpIfFalse" => (jumpIfFalse <| UInt64.ofNat ·) <$> content.natBelow? UInt64.size
  | "JumpIfTrue" => (jumpIfTrue <| UInt64.ofNat ·) <$> content.natBelow? UInt64.size
  | "JumpIfNotNull" => (jumpIfNotNull <| UInt64.ofNat ·) <$> content.natBelow? UInt64.size
  | "RaiseChanging" => raiseChanging <$> content.string?
  | "RaiseChanged" => raiseChanged <$> content.string?
  | "NewCommand" => newCommand <$> readCommand content
  | "RegisterLocale" => do
    match ← content.record? ["registry", "grouping"] with
    | [registry, grouping] => return registerLocale (← (← registry).string?) (← Json.nullable? grouping)
    | _ => none
  | "AddLocaleProperty" => do
    match ← content.record? ["key", "target", "retain"] with
    | [key, target, retain] =>
      return addLocaleProperty (← (← key).string?) (← (← target).string?) (← (← retain).bool?)
    | _ => none
  | _ => none

/-- An instruction without contents. -/
private def readPlain : String → Option Instruction
  | "PushNull" => some pushNull
  | "LoadThis" => some loadThis
  | "Dup" => some dup
  | "Pop" => some pop
  | "Return" => some ret
  | "ReturnVoid" => some retVoid
  | _ => none

/-- The instruction that is stored so. -/
def ofJson? (j : Json) : Option Instruction := do
  match ← j.variant? with
  | (name, none) => readPlain name
  | (name, some .null) => (readPlain name).or (readTagged name .null)
  | (name, some content) => readTagged name content

end Instruction

/-- The role of a name. -/
def FieldRole.ofJson? (j : Json) : Option FieldRole := do
  match ← j.variant? with
  | (n, none) | (n, some .null) =>
    [propertySlot, derivedSlot, lazyFlag, commandSlot].find? (FieldRole.storedName · == n)
  | _ => none

/-- The method that is stored so. -/
def CompiledMethod.ofJson? (j : Json) : Option CompiledMethod := do
  match ← j.record? ["name", "param_count", "local_count", "code"] with
  | [name, params, locals, code] =>
    return ⟨← (← name).string?, UInt16.ofNat (← (← params).natBelow? UInt16.size),
      UInt16.ofNat (← (← locals).natBelow? UInt16.size), ← (← (← code).array?).mapM Instruction.ofJson?⟩
  | _ => none

/-- The edit that is stored so. -/
def PatchEdit.ofJson? (j : Json) : Option PatchEdit := do
  match ← j.variant? with
  | ("AddField", some content) =>
    match ← content.record? ["name", "ty", "role"] with
    | [name, type, role] => return .addField (← (← name).string?) (← (← type).string?) (← FieldRole.ofJson? (← role))
    | _ => none
  | ("AddProperty", some content) =>
    match ← content.record? ["name", "ty", "getter"] with
    | [name, type, getter] => return .addProperty (← (← name).string?) (← (← type).string?) (← (← getter).string?)
    | _ => none
  | ("RedirectInitializer", some content) =>
    match ← content.record? ["property", "setter"] with
    | [property, setter] => return .redirectInitializer (← (← property).string?) (← (← setter).string?)
    | _ => none
  | (name, some content) =>
    match ← content.record? ["method"] with
    | [method] =>
      let m ← CompiledMethod.ofJson? (← method)
      match name with
      | "AddStatic" => some (.addStatic m)
      | "AddMethod" => some (.addMethod m)
      | "ReplaceBody" => some (.replaceBody m)
      | _ => none
    | _ => none
  | (_, none) => none

/-- The module that is stored so. -/
def PatchModule.ofJson? (j : Json) : Option PatchModule := do
  match ← j.record? ["class", "edits", "checksum"] with
  | [name, edits, checksum] =>
    return ⟨← (← name).string?, ← (← (← edits).array?).mapM PatchEdit.ofJson?,
      UInt32.ofNat (← (← checksum).natBelow? UInt32.size)⟩
  | _ => none

/-- The module of a stored text. -/
def PatchModule.ofStored? (text : String) : Option PatchModule := Json.parse? text >>= PatchModule.ofJson?

end Reactive
