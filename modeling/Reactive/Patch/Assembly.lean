import Reactive.Emission
import Reactive.Patch.Lowering

/-!
# Reactive.Patch.Assembly — generated members as a patch module

Every generated field, function and method is an edit of the compiled class: the accessors of a declared property get
new bodies, and everything else is added.  A hook that the class does not implement does not exist in the compiled
class, so no call of it is generated.
-/

namespace Reactive

namespace Build

/-- Pushes what an operand stands for. -/
def operand (params : List String) : Operand → Build Unit
  | .argument => emit (.loadArg 0)
  | .slot name => emit (.loadField name)
  | .expression body => expression (.ofInstance params) body
  | .application function => do
    emit .loadThis
    emit (.callStatic function)
  | .method name => do
    emit .loadThis
    emit (.callMethod name 0)
  | .bool b => emit (.pushBool b)
  | .helperValue slot type => do
    let present ← newLabel
    let done ← newLabel
    emit (.loadField slot)
    emitJump .jumpIfNotNull present
    emit (.pushDefault type.text)
    emitJump .jump done
    bind present
    emit (.getProperty "Value")
    bind done

mutual

/-- The instructions of a statement; `hooks` are the hooks that the class implements. -/
def statement (hooks params : List String) : Statement → Build Unit
  | .returnIfUnchanged slot => do
    let changed ← newLabel
    emit (.loadField slot)
    emit (.loadArg 0)
    emit (.binary .eq)
    emitJump .jumpIfFalse changed
    emit .retVoid
    bind changed
  | .captureOld slot => do
    let old ← allocate "oldValue"
    emit (.loadField slot)
    emit (.storeLocal old)
  | .raiseChanging property => emit (.raiseChanging property)
  | .raiseChanged property => emit (.raiseChanged property)
  | .callHook hook =>
    if hooks.contains hook then do
      let old ← allocate "oldValue"
      emit (.loadLocal old)
      emit (.loadArg 0)
      emit (.callHook hook 2)
    else pure ()
  | .storeValue slot => do
    emit (.loadArg 0)
    emit (.storeField slot)
  | .callMethod method passesValue => do
    emit .loadThis
    if passesValue then emit (.loadArg 0)
    emit (.callMethod method (if passesValue then 1 else 0))
    emit .pop
  | .setIfChanged slot value property => do
    let unchanged ← newLabel
    operand params value
    let fresh ← allocate "newValue"
    emit (.storeLocal fresh)
    emit (.loadField slot)
    emit (.loadLocal fresh)
    emit (.binary .eq)
    emitJump .jumpIfTrue unchanged
    emit (.raiseChanging property)
    emit (.loadLocal fresh)
    emit (.storeField slot)
    emit (.raiseChanged property)
    bind unchanged
  | .store slot value => do
    operand params value
    emit (.storeField slot)
  | .ifUnset flag body => do
    let done ← newLabel
    emit (.loadField flag)
    emitJump .jumpIfTrue done
    statements hooks params body
    bind done
  | .ret value => do
    operand params value
    emit .ret
  | .returnCommand slot factory => do
    let ready ← newLabel
    emit (.loadField slot)
    emitJump .jumpIfNotNull ready
    emit (.newCommand ⟨factory.method, factory.argumentType.isSome, factory.isAsync, factory.enablement⟩)
    emit .dup
    emit (.storeField slot)
    bind ready
    emit .ret
  | .registerLocale registry grouping object => do
    let registration ← allocate object
    emit (.registerLocale registry grouping)
    emit (.storeLocal registration)
  | .addLocaleProperty object key target retain => do
    match (← get).local? object with
    | some registration =>
      emit (.loadLocal registration)
      emit (.addLocaleProperty key target retain)
    | none => throw (.internal (.localeBeforeRegistration object))

/-- The instructions of statements. -/
def statements (hooks params : List String) : List Statement → Build Unit
  | [] => pure ()
  | s :: rest => do
    statement hooks params s
    statements hooks params rest

end

end Build

/-- A method whose statements are being added. -/
structure OpenMethod where
  signature : MethodSignature
  builder : MethodBuilder
deriving Repr

/-- A patch module that is being put together. -/
structure Assembly where
  className : Option String
  edits : List PatchEdit
  /-- The hooks that the class implements. -/
  hooks : List String
  /-- The properties announced so far, the last one first. -/
  properties : List PropertySignature
  current : Option OpenMethod
deriving Repr

/-- A step of putting a module together: a failing one leaves what was there before it. -/
abbrev Assembling := EStateM CompileError Assembly

namespace Assembly

/-- Nothing, not even a class. -/
def empty : Assembly := ⟨none, [], [], [], none⟩

instance : Inhabited Assembly := ⟨empty⟩

/-- The class declares the property. -/
def declares (a : Assembly) (property : String) : Bool :=
  match a.properties.find? (·.name == property) with
  | some p => !p.synthesized
  | none => false

/-- The edit that brings in a method. -/
def methodEdit (a : Assembly) (kind : MethodKind) (m : CompiledMethod) : PatchEdit :=
  match kind with
  | .getter p | .setter p => if a.declares p then .replaceBody m else .addMethod m
  | _ => .addMethod m

/-- One more edit. -/
def edit (e : PatchEdit) : Assembling Unit := modify fun a => { a with edits := a.edits ++ [e] }

/-- Begins a method. -/
def beginMethod (signature : MethodSignature) : Assembling Unit := do
  if let some outer := (← get).current then
    throw (.internal (.methodInsideMethod signature.name outer.signature.name))
  let builder := MethodBuilder.start signature.name (UInt16.ofNat signature.params.length)
  modify fun a => { a with current := some ⟨signature, builder⟩ }

/-- Adds a statement to the current method. -/
def statement (s : Statement) : Assembling Unit := do
  let a ← get
  match a.current with
  | none => throw (.statementOutsideMethod s.label)
  | some m =>
    match Build.statement a.hooks (m.signature.params.map Prod.fst) s m.builder with
    | .ok _ builder => set { a with current := some { m with builder } }
    | .error e builder =>
      set { a with current := some { m with builder } }
      throw e

/-- Ends the current method. -/
def endMethod : Assembling Unit := do
  let a ← get
  match a.current with
  | none => throw (.internal .endOfNoMethod)
  | some m =>
    set { a with current := none }
    match (if m.builder.endsInReturn then m.builder else m.builder.push .retVoid).build with
    | .ok method => edit (a.methodEdit m.signature.kind method)
    | .error e => throw e

/-- Takes a piece of the class. -/
def add : Fragment → Assembling Unit
  | .beginClass header => set { empty with className := some header.name }
  | .field decl => edit (.addField decl.name decl.type.text decl.role)
  | .function decl => do
    match CompiledMethod.ofBody decl.name (.detached [decl.param]) decl.body with
    | .ok method => edit (.addStatic method)
    | .error e => throw e
  | .hook decl => do
    if decl.isImplemented then modify fun a => { a with hooks := decl.name :: a.hooks }
  | .property signature => do
    if signature.synthesized then
      edit (.addProperty signature.name signature.type.text (Naming.getter signature.name))
    modify fun a => { a with properties := signature :: a.properties }
  | .beginMethod signature => beginMethod signature
  | .statement s => statement s
  | .endMethod => endMethod
  | .redirect property setter => edit (.redirectInitializer property setter)

/-- Ends the class, and gives its module. -/
def finish : Assembling PatchModule := do
  let a ← get
  match a.className with
  | none => throw (.internal .endOfNoClass)
  | some name =>
    set { a with className := none, edits := [] }
    return .ofEdits name a.edits

end Assembly

/-- The patch module of a class. -/
def PatchModule.ofModel (m : ClassModel) : Except CompileError PatchModule :=
  match (do m.fragments.forM Assembly.add; Assembly.finish : Assembling PatchModule) .empty with
  | .ok module _ => .ok module
  | .error e _ => .error e

end Reactive
