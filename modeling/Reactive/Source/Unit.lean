import Reactive.Emission
import Reactive.Source.Statement
import Reactive.Text.Blank
import Reactive.Text.Lines

/-!
# Reactive.Source.Unit — generated members as a source file

The generated members of a class make up one partial class in a file of its own.  A `SourceDraft` sorts the pieces into
sections as they come, and `SourceDraft.text` writes the sections in their order: fields and functions, hooks, setters,
properties, the methods that recompute, commands, and the init method.
-/

namespace Reactive

/-- A generated file. -/
structure SourceUnit where
  /-- The class in its namespace. -/
  className : String
  fileName : String
  text : String
deriving DecidableEq, Repr

/-- A name as it may stand in the name of a file: without blanks, and with braces around type parameters. -/
def fileStem (name : String) : String :=
  String.ofList <| (name.toList.filter (!Text.isBlank ·)).map fun c =>
    if c = '<' then '\x7b' else if c = '>' then '\x7d' else c

/-- The file that is generated for a class. -/
def ClassHeader.unitFileName (h : ClassHeader) : String := fileStem h.fullName ++ ".reactive.g.cs"

/-- A property with the lines of its accessors. -/
structure PropertyBlock where
  signature : PropertySignature
  getter : Option (List String)
  setter : Option (List String)
deriving Repr

/-- The expression of a body that is a single statement. -/
def singleExpression? : List String → Option String
  | [line] =>
    let cs := line.toList
    if cs.getLast? = some ';' then
      let cs := cs.dropLast
      let keyword := "return ".toList
      some (String.ofList (if keyword.isPrefixOf cs then cs.drop keyword.length else cs))
    else none
  | _ => none

/-- The lines of an accessor, each with the end of its line. -/
def accessorText (keyword : String) (body : List String) : String :=
  match singleExpression? body with
  | some e => indent ++ keyword ++ " => " ++ e ++ ";\n"
  | none =>
    indent ++ keyword ++ "\n" ++ indent ++ "\x7b\n"
      ++ String.join (body.map fun line => indent ++ indent ++ line ++ "\n")
      ++ indent ++ "\x7d\n"

namespace PropertyBlock

/-- What stands before the type of a property. -/
def modifiers (b : PropertyBlock) : List String :=
  (match b.signature.accessibility with
    | some a => [a]
    | none => if b.signature.synthesized then ["public"] else [])
    ++ if b.signature.synthesized then [] else ["partial"]

/-- The expression of an added property that has a getter of one expression and no setter. -/
def expression? (b : PropertyBlock) : Option String :=
  if b.signature.synthesized && b.setter.isNone then b.getter.bind singleExpression? else none

/-- The text of a property. -/
def text (b : PropertyBlock) : String :=
  let head := String.join (b.modifiers.map (· ++ " ")) ++ b.signature.type.text ++ " " ++ b.signature.name
  match b.expression? with
  | some e => head ++ " => " ++ e ++ ";"
  | none =>
    head ++ "\n\x7b\n"
      ++ (b.getter.map (accessorText "get")).getD ""
      ++ (b.setter.map (accessorText "set")).getD ""
      ++ "\x7d"

end PropertyBlock

/-- The text of a method. -/
def methodText (modifiers : String) (signature : MethodSignature) (body : List String) : String :=
  let params := signature.params.map fun (name, type) => type.text ++ " " ++ name
  modifiers ++ " " ++ signature.name ++ "(" ++ ", ".intercalate params ++ ")\n\x7b\n"
    ++ String.join (body.map fun line => indent ++ line ++ "\n")
    ++ "\x7d"

/-- The declaration of a field. -/
def FieldDecl.source (d : FieldDecl) : String :=
  match d.initializer, d.role with
  | some e, _ => "private " ++ d.type.text ++ " " ++ d.name ++ " = " ++ e.text ++ ";"
  | none, .lazyFlag => "private bool " ++ d.name ++ ";"
  | none, .commandSlot => "private " ++ d.type.text ++ "? " ++ d.name ++ ";"
  | none, _ => "private " ++ d.type.text ++ " " ++ d.name ++ " = default!;"

/-- The declaration of a hook. -/
def HookDecl.source (d : HookDecl) : String :=
  "partial void " ++ d.name ++ "(" ++ d.valueType.text ++ " oldValue, " ++ d.valueType.text ++ " newValue);"

/-- The declaration of a function of a class. -/
def StaticFunction.source (className : String) (f : StaticFunction) : String :=
  "private static readonly global::System.Func<" ++ className ++ ", " ++ f.returnType.text ++ "> " ++ f.name
    ++ " = static " ++ f.param ++ " => " ++ f.body.text ++ ";"

/-- A generated file that is being put together. -/
structure SourceDraft where
  header : Option ClassHeader
  fields : List String
  statics : List String
  hooks : List String
  setters : List String
  properties : List PropertyBlock
  recomputers : List String
  commands : List String
  init : Option String
  /-- The types of the fields, the last one first. -/
  slotTypes : List (String × TypeRef)
  current : Option (MethodSignature × List String)
deriving Repr

/-- A step of putting a file together: a failing one leaves what was there before it. -/
abbrev SourceDrafting := EStateM CompileError SourceDraft

namespace SourceDraft

/-- Nothing, not even a class. -/
def empty : SourceDraft := ⟨none, [], [], [], [], [], [], [], none, [], none⟩

instance : Inhabited SourceDraft := ⟨empty⟩

/-- What the lines of a statement depend on. -/
def context (d : SourceDraft) : SourceContext := ⟨d.header.map ClassHeader.displayName, d.slotTypes⟩

/-! ### Writing the file -/

/-- The texts between which an empty line stands. -/
def blocks (d : SourceDraft) : List String :=
  let joined (texts : List String) : List String := if texts.isEmpty then [] else ["\n".intercalate texts]
  joined (d.fields ++ d.statics) ++ joined d.hooks ++ d.setters ++ d.properties.map PropertyBlock.text
    ++ d.recomputers ++ d.commands ++ d.init.toList

/-- The lines of a block inside the class. -/
def blockText (block : String) : String :=
  String.join ((Text.lines block).map fun line => (if line.isEmpty then "" else indent ++ line) ++ "\n")

/-- What stands before the keyword of a class. -/
def classModifiers (h : ClassHeader) : List String :=
  h.accessibility.toList ++ (if h.isAbstract then ["abstract"] else []) ++ ["partial"]

/-- The text of the file for a class. -/
def text (d : SourceDraft) (h : ClassHeader) : String :=
  "// <auto-generated>\n#nullable enable\n"
    ++ String.join (h.usings.map fun u => "using " ++ u ++ ";\n")
    ++ "\n"
    ++ (match h.namespaceName with
      | some n => "namespace " ++ n ++ ";\n\n"
      | none => "")
    ++ " ".intercalate (classModifiers h) ++ " class " ++ h.displayName ++ "\n\x7b\n"
    ++ "\n".intercalate (d.blocks.map blockText)
    ++ "\x7d\n"

/-! ### Taking the pieces -/

/-- The blocks with a change to the last one of a name. -/
def updateLast (name : String) (f : PropertyBlock → PropertyBlock) (blocks : List PropertyBlock) :
    Option (List PropertyBlock) :=
  (blocks.reverse.findIdx? (·.signature.name == name)).map fun i => blocks.modify (blocks.length - 1 - i) f

/-- Gives a declared property the lines of an accessor. -/
def updateProperty (name : String) (f : PropertyBlock → PropertyBlock) : SourceDrafting Unit := do
  match updateLast name f (← get).properties with
  | some properties => modify fun d => { d with properties }
  | none => throw (.internal (.undeclaredProperty name))

/-- Makes a declared property with a getter the property of a command. -/
def finishCommand (name : String) (body : List String) : SourceDrafting Unit := do
  match (← get).properties.find? (·.signature.name == name) with
  | some block =>
    modify fun d =>
      { d with
        properties := d.properties.eraseP (·.signature.name == name)
        commands := d.commands ++ [{ block with getter := some body }.text] }
  | none => throw (.internal (.undeclaredCommand name))

/-- Takes a finished method into its section. -/
def addMethod (signature : MethodSignature) (body : List String) : SourceDrafting Unit :=
  match signature.kind with
  | .getter property => updateProperty property fun b => { b with getter := some body }
  | .setter property => updateProperty property fun b => { b with setter := some body }
  | .raiseAndSet _ => modify fun d => { d with setters := d.setters ++ [methodText "private void" signature body] }
  | .recompute _ =>
    modify fun d => { d with recomputers := d.recomputers ++ [methodText "private void" signature body] }
  | .commandGetter property => finishCommand property body
  | .init isOverride =>
    let modifiers := if isOverride then "protected override void" else "protected void"
    modify fun d => { d with init := some (methodText modifiers signature body) }

/-- Takes a field into its section. -/
def addField (d : SourceDraft) (field : FieldDecl) : SourceDraft :=
  let d := { d with slotTypes := (field.name, field.type) :: d.slotTypes }
  if field.role = .commandSlot then { d with commands := d.commands ++ [field.source] }
  else { d with fields := d.fields ++ [field.source] }

/-- Takes a piece of the class. -/
def add (piece : Fragment) : SourceDrafting Unit := do
  let d ← get
  match piece with
  | .beginClass header => set { empty with header := some header }
  | .field decl => set (d.addField decl)
  | .function decl =>
    match d.context.declaredName with
    | .ok name => set { d with statics := d.statics ++ [decl.source name] }
    | .error e => throw e
  | .hook decl => set { d with hooks := d.hooks ++ [decl.source] }
  | .property signature => set { d with properties := d.properties ++ [(⟨signature, none, none⟩ : PropertyBlock)] }
  | .beginMethod signature =>
    match d.current with
    | some (outer, _) => throw (.internal (.methodInsideMethod signature.name outer.name))
    | none => set { d with current := some (signature, []) }
  | .statement s =>
    match s.source d.context, d.current with
    | .error e, _ => throw e
    | .ok _, none => throw (.statementOutsideMethod s.label)
    | .ok lines, some (signature, body) => set { d with current := some (signature, body ++ lines) }
  | .endMethod =>
    match d.current with
    | none => throw (.internal .endOfNoMethod)
    | some (signature, body) =>
      set { d with current := none }
      addMethod signature body
  | .redirect _ _ => pure ()

/-- Ends the class, and gives its file. -/
def finish : SourceDrafting SourceUnit := do
  let d ← get
  match d.header with
  | none => throw (.internal .endOfNoClass)
  | some header =>
    set { d with header := none }
    return ⟨header.fullName, header.unitFileName, d.text header⟩

end SourceDraft

/-- The source file of a class. -/
def SourceUnit.ofModel (m : ClassModel) : Except CompileError SourceUnit :=
  match (do m.fragments.forM SourceDraft.add; SourceDraft.finish : SourceDrafting SourceUnit) .empty with
  | .ok unit _ => .ok unit
  | .error e _ => .error e

end Reactive
