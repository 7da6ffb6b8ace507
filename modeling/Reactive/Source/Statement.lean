import Reactive.Expr.Printer
import Reactive.Fragment
import Reactive.Patch.Builder

/-!
# Reactive.Source.Statement — statements as lines of source

A generated method calls the reactive framework by full names, so that it does not depend on the directives of the file
that it stands in.  Only the equality check asks for more than the statement says: the type of the slot.
-/

namespace Reactive

/-- The text of an operand. -/
def Operand.source : Operand → String
  | argument => "value"
  | slot name => name
  | expression body => body.text
  | application function => function ++ "(this)"
  | method name => name ++ "()"
  | bool b => if b then "true" else "false"
  | helperValue field _ => field ++ ".Value"

/-- The type arguments of a call that constructs a command. -/
def CommandFactory.typeArguments (f : CommandFactory) : String :=
  match f.argumentType.toList ++ f.returnType.toList with
  | [] => ""
  | types => "<" ++ ", ".intercalate (types.map TypeRef.text) ++ ">"

/-- The call that constructs a command. -/
def CommandFactory.source (f : CommandFactory) : String :=
  "ReactiveUI.ReactiveCommand." ++ (if f.isAsync then "CreateFromTask" else "Create") ++ f.typeArguments
    ++ "(" ++ f.method
    ++ (match f.enablement with
      | some property =>
        ", DynamicData.Binding.NotifyPropertyChangedEx.WhenValueChanged(this, static x => x." ++ property ++ ", true)"
      | none => "")
    ++ ")"

/-- The call that announces a change of a property. -/
def announcement (event property : String) : String :=
  "ReactiveUI.IReactiveObjectExtensions." ++ event ++ "(this, nameof(" ++ property ++ "));"

/-- One step of indentation. -/
def indent : String := "    "

/-- What the lines of a statement depend on. -/
structure SourceContext where
  /-- The class, once it has begun. -/
  className : Option String
  /-- The types of the fields so far; the first entry of a name counts. -/
  slotTypes : List (String × TypeRef)
deriving Repr

namespace SourceContext

/-- The class, which has to have begun. -/
def declaredName (c : SourceContext) : Except CompileError String :=
  match c.className with
  | some name => .ok name
  | none => .error (.internal .fragmentBeforeClass)

end SourceContext

mutual

/-- The lines of a statement. -/
def Statement.source (c : SourceContext) : Statement → Except CompileError (List String)
  | .returnIfUnchanged slot =>
    match c.slotTypes.lookup slot with
    | some type =>
      .ok ["if (global::System.Collections.Generic.EqualityComparer<" ++ type.text ++ ">.Default.Equals(" ++ slot
        ++ ", value)) return;"]
    | none => .error (.internal (.unknownSlot slot))
  | .captureOld slot => .ok ["var oldValue = " ++ slot ++ ";"]
  | .raiseChanging property => .ok [announcement "RaisePropertyChanging" property]
  | .raiseChanged property => .ok [announcement "RaisePropertyChanged" property]
  | .callHook hook => .ok [hook ++ "(oldValue, value);"]
  | .storeValue slot => .ok [slot ++ " = value;"]
  | .callMethod method passesValue => .ok [method ++ "(" ++ (if passesValue then "value" else "") ++ ");"]
  | .setIfChanged slot value property =>
    .ok ["ReactiveUI.IReactiveObjectExtensions.RaiseAndSetIfChanged(this, ref " ++ slot ++ ", " ++ value.source
      ++ ", nameof(" ++ property ++ "));"]
  | .store slot value => .ok [slot ++ " = " ++ value.source ++ ";"]
  | .ifUnset flag body => do
    let lines ← Statement.sourceAll c body
    return ["if (!" ++ flag ++ ")", "\x7b"] ++ lines.map (indent ++ ·) ++ ["\x7d"]
  | .ret value => .ok ["return " ++ value.source ++ ";"]
  | .returnCommand slot factory => .ok ["return " ++ slot ++ " ??= " ++ factory.source ++ ";"]
  | .registerLocale registry _ object =>
    .ok [registry ++ ".I18nObjects.Add(new(this));", "var " ++ object ++ " = " ++ registry ++ ".I18nObjects.Last();"]
  | .addLocaleProperty object key target retain => do
    let name ← c.declaredName
    return [object ++ ".AddProperty(nameof(" ++ key ++ "), x => ((" ++ name ++ ")x)." ++ key ++ ", nameof(" ++ target
      ++ "), " ++ (if retain then "true" else "false") ++ ");"]

/-- The lines of statements. -/
def Statement.sourceAll (c : SourceContext) : List Statement → Except CompileError (List String)
  | [] => .ok []
  | s :: rest => do
    let lines ← Statement.source c s
    return lines ++ (← Statement.sourceAll c rest)

end

end Reactive
