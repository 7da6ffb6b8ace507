import Reactive.Analysis
import Reactive.Declaration.Parser
import Reactive.Json

/-!
# Reactive.Diagnostic — findings and errors for a reader

A diagnostic has a code, a wording, labels on stretches of the source, and notes.  `Diagnostic.toJson` gives it with the
lines and columns of its labels, which are counted from the text.
-/

namespace Reactive

/-- A stretch of the source, and what is said about it. -/
structure DiagnosticLabel where
  isPrimary : Bool
  span : Span
  message : String
deriving DecidableEq, Repr

/-- What is told about a file. -/
structure Diagnostic where
  code : String
  isError : Bool
  message : String
  labels : List DiagnosticLabel
  notes : List String
deriving DecidableEq, Repr

/-- A note that suggests something. -/
def helpNote (text : String) : String := "help: " ++ text

namespace Finding

/-- What the label at the place of a finding says. -/
def primaryLabel (f : Finding) : String :=
  match f.cause with
  | .notExtensible _ => "class is not partial"
  | .duplicateTarget .. => "would be generated here"
  | .missingSetter .. => "no setter"
  | .derivedHasSetter .. => "derived property"
  | .unknownSource _ name => "'" ++ name ++ "' not found"
  | .derivedCycle .. => "cycle starts here"
  | .invalidEnablement _ property issue =>
    "'" ++ property ++ "' " ++ match issue with
      | .unresolved => "not found"
      | .notBoolean => "is not bool"
      | .notObservable => "never raises change notifications"
  | .tooManyCommandParameters .. => "too many parameters"
  | .localeHasSetter _ => "setter not allowed"
  | .unknownLocaleKey _ key => "'" ++ key ++ "' not found"
  | .invalidArguments .. => "invalid argument"
  | .repeatedUse .. => "ignored"
  | .unsupportedBody .. => "unsupported"
  | .undeclaredRead .. => "read here"
  | .ignoredInitialNotification _ => "has no effect"
  | .slotCollision _ slot _ => "needs field '" ++ slot ++ "'"
  | .noConstructor .. => "no matching constructor"
  | .missingGetterExpression _ => "no getter expression"

/-- The labels at other places that explain a finding. -/
def secondaryLabels (f : Finding) : List (Span × String) :=
  match f.cause with
  | .duplicateTarget _ earlier => [(earlier, "already declared here")]
  | .derivedHasSetter _ setter => [(setter, "setter declared here")]
  | .derivedCycle chain related =>
    (chain.tail.zip related).map fun (member, span) => (span, "'" ++ member ++ "' is part of the cycle")
  | .repeatedUse _ _ first => [(first, "first occurrence here")]
  | .slotCollision _ _ existing => [(existing, "existing member")]
  | _ => []

/-- The notes on a finding. -/
def notes (f : Finding) : List String :=
  match f.cause with
  | .notExtensible className => [helpNote ("declare it as 'partial class " ++ className ++ "'")]
  | .missingSetter .. => [helpNote "add '\x7b get; set; \x7d' accessors"]
  | .derivedHasSetter .. => ["derived values are recomputed from their sources"]
  | .derivedCycle .. => ["none of these properties will be generated"]
  | .invalidEnablement .. => ["the command is generated as always enabled"]
  | .tooManyCommandParameters .. => [helpNote "wrap the arguments in a single parameter object"]
  | .undeclaredRead _ read => [helpNote ("add \"" ++ read ++ "\" to the annotation's sources")]
  | .missingGetterExpression _ =>
    [helpNote "use 'CacheMode.Disabled' or give the getter an expression body"]
  | _ => []

/-- The diagnostic of a finding. -/
def diagnostic (f : Finding) : Diagnostic :=
  ⟨f.code, !f.isWarning, f.message,
    ⟨true, f.span, f.primaryLabel⟩ :: f.secondaryLabels.map fun (span, text) => ⟨false, span, text⟩, f.notes⟩

end Finding

/-- The diagnostics of a text that is not well formed. -/
def SyntaxError.diagnostics (e : SyntaxError) : List Diagnostic :=
  let code := match e with
    | .lex _ => "RX0101"
    | .parse _ => "RX0102"
  e.locations.map fun (span, message) => ⟨code, true, message, [⟨true, span, "here"⟩], []⟩

/-- The diagnostic of a class whose members cannot be generated. -/
def Diagnostic.ofFailure (className reason : String) (span : Span) : Diagnostic :=
  ⟨"RX0103", true, "cannot generate code for '" ++ className ++ "': " ++ reason,
    [⟨true, span, "declared here"⟩], []⟩

/-! ### Lines and columns -/

/-- The place at a byte offset of a text, the place `p` being at its start; no place is inside a character. -/
def Position.atOffset (p : Position) (offset : Nat) : List Char → Option Position
  | [] => if p.offset = offset then some p else none
  | c :: cs =>
    if p.offset = offset then some p
    else if offset < p.offset then none
    else Position.atOffset (p.step c) offset cs

/-- The label with lines and columns, unless it is not on the text. -/
def DiagnosticLabel.toJson? (file : String) (text : List Char) (l : DiagnosticLabel) : Option Json := do
  let start ← Position.origin.atOffset l.span.start text
  let stop ← Position.origin.atOffset l.span.stop text
  return .object
    [("file", .string file), ("start_line", .nat start.line), ("start_column", .nat start.column),
      ("end_line", .nat stop.line), ("end_column", .nat stop.column),
      ("message", if l.message.isEmpty then .null else .string l.message),
      ("style", .string (if l.isPrimary then "primary" else "secondary"))]

/-- The diagnostic about a file with a text. -/
def Diagnostic.toJson (file text : String) (d : Diagnostic) : Json :=
  .object
    [("code", .string d.code), ("severity", .string (if d.isError then "error" else "warning")),
      ("message", .string d.message),
      ("labels", .array (d.labels.filterMap (DiagnosticLabel.toJson? file text.toList))),
      ("notes", .array (d.notes.map Json.string))]

end Reactive
