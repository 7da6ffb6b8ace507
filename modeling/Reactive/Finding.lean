import Reactive.Annotation

/-!
# Reactive.Finding — what the analysis finds

A finding is a cause with the place where it is.  Each cause has a code and a wording.  Four causes are warnings; the
others are errors, and the member they are about is skipped or generated in a simpler way.
-/

namespace Reactive

/-- Why a command is not enabled by a property. -/
inductive EnablementIssue
  | unresolved | notBoolean | notObservable
deriving DecidableEq, Repr

/-- What is wrong with the arguments of an annotation or with the member it is on. -/
inductive ArgumentIssue
  | positionalAfterNamed
  | unknownNamed (name : String)
  | wrongType (name expected found : String)
  | tooManyPositional (most found : Nat)
  | combinedWithDerived
  | propertyOfProperty
  | methodWithoutProperty
  | propertiesOnly (kind : AnnotationKind)
  | methodsOnly (kind : AnnotationKind)
  | announcedByHelper (target : String)
  | emptyLocaleNames
deriving DecidableEq, Repr

/-- The wording of the issue. -/
def ArgumentIssue.reason : ArgumentIssue → String
  | positionalAfterNamed => "positional argument after named argument"
  | unknownNamed name => "unknown named argument '" ++ name ++ "'"
  | wrongType name expected found => "'" ++ name ++ "' expects " ++ expected ++ ", found " ++ found
  | tooManyPositional most found =>
    "expected at most " ++ toString most ++ " positional argument(s), found " ++ toString found
  | combinedWithDerived => "cannot be combined with [Derived]"
  | propertyOfProperty => "'Property' only applies to methods"
  | methodWithoutProperty => "a derived method needs Property = \"Name\""
  | propertiesOnly kind => "[" ++ kind.text ++ "] applies to properties only"
  | methodsOnly kind => "[" ++ kind.text ++ "] applies to methods only"
  | announcedByHelper target => "'" ++ target ++ "' is announced by its observable helper"
  | emptyLocaleNames => "resource and key names must be non-empty"

/-- Why the body of a member cannot be taken over. -/
inductive BodyIssue
  | takesParameters
  | returnsNothing
  | lambdaInHelper
  | nestedLambda
  | lambdaOutsideProjection
  | instanceRead (read param : String)
  | notAutomatic
deriving DecidableEq, Repr

/-- The wording of the issue. -/
def BodyIssue.reason : BodyIssue → String
  | takesParameters => "a derived method must not take parameters"
  | returnsNothing => "a derived method must return a value"
  | lambdaInHelper => "lambdas are not supported in an observable helper expression"
  | nestedLambda => "nested lambdas are not supported"
  | lambdaOutsideProjection => "lambdas are only supported as this.To(static x => ...)"
  | instanceRead read param =>
    "static projection reads instance member '" ++ read ++ "'; read it through '" ++ param ++ "'"
  | notAutomatic => "reactive properties must use auto accessors"

/-- What is found. -/
inductive FindingCause
  | notExtensible (className : String)
  | duplicateTarget (name : String) (earlier : Span)
  | missingSetter (property use : String)
  | derivedHasSetter (property : String) (setter : Span)
  | unknownSource (property name : String)
  /-- The members of the cycle with the first one again at the end, and the places of all but the first. -/
  | derivedCycle (chain : List String) (related : List Span)
  | invalidEnablement (command property : String) (issue : EnablementIssue)
  | tooManyCommandParameters (method : String) (count : Nat)
  | localeHasSetter (property : String)
  | unknownLocaleKey (property key : String)
  | invalidArguments (use member : String) (issue : ArgumentIssue)
  | repeatedUse (use member : String) (first : Span)
  | unsupportedBody (member : String) (issue : BodyIssue)
  | undeclaredRead (property read : String)
  | ignoredInitialNotification (property : String)
  | slotCollision (property slot : String) (existing : Span)
  | noConstructor (use member : String)
  | missingGetterExpression (property : String)
deriving DecidableEq, Repr

/-- A cause with the place that it is about. -/
structure Finding where
  cause : FindingCause
  span : Span
deriving DecidableEq, Repr

namespace Finding

/-- The code of a finding. -/
def code (f : Finding) : String :=
  match f.cause with
  | .notExtensible .. => "RX0001"
  | .duplicateTarget .. => "RX0002"
  | .missingSetter .. => "RX0003"
  | .derivedHasSetter .. => "RX0004"
  | .unknownSource .. => "RX0005"
  | .derivedCycle .. => "RX0006"
  | .invalidEnablement .. => "RX0007"
  | .tooManyCommandParameters .. => "RX0008"
  | .localeHasSetter .. => "RX0009"
  | .unknownLocaleKey .. => "RX0010"
  | .invalidArguments .. => "RX0011"
  | .repeatedUse .. => "RX0012"
  | .unsupportedBody .. => "RX0013"
  | .undeclaredRead .. => "RX0014"
  | .ignoredInitialNotification .. => "RX0015"
  | .slotCollision .. => "RX0016"
  | .noConstructor .. => "RX0017"
  | .missingGetterExpression .. => "RX0018"

/-- The finding does not keep anything from being generated. -/
def isWarning (f : Finding) : Bool :=
  match f.cause with
  | .repeatedUse .. | .undeclaredRead .. | .ignoredInitialNotification .. | .noConstructor .. => true
  | _ => false

/-- The wording of a finding. -/
def message (f : Finding) : String :=
  match f.cause with
  | .notExtensible className => "Class '" ++ className ++ "' is not partial and cannot receive generated members"
  | .duplicateTarget name _ => "Generated member '" ++ name ++ "' duplicates an existing member"
  | .missingSetter property use => "Property '" ++ property ++ "' marked [" ++ use ++ "] has no setter"
  | .derivedHasSetter property _ => "Derived property '" ++ property ++ "' must not declare a setter"
  | .unknownSource property name =>
    "'" ++ name ++ "' named by '" ++ property ++ "' is not a property of this class"
  | .derivedCycle chain _ => "Derived properties form a cycle: " ++ " -> ".intercalate chain
  | .invalidEnablement command property _ =>
    "Command '" ++ command ++ "' cannot bind enablement to '" ++ property ++ "'"
  | .tooManyCommandParameters method count =>
    "Command method '" ++ method ++ "' takes " ++ toString count ++ " parameters; at most one is supported"
  | .localeHasSetter property => "Localized property '" ++ property ++ "' must not declare a setter"
  | .unknownLocaleKey property key =>
    "Locale key '" ++ key ++ "' for '" ++ property ++ "' is not a property of this class"
  | .invalidArguments use member issue =>
    "Invalid arguments to [" ++ use ++ "] on '" ++ member ++ "': " ++ issue.reason
  | .repeatedUse use member _ =>
    "Duplicate [" ++ use ++ "] on '" ++ member ++ "' is ignored"
  | .unsupportedBody member issue => "Unsupported body for '" ++ member ++ "': " ++ issue.reason
  | .undeclaredRead property read =>
    "Derived property '" ++ property ++ "' reads '" ++ read ++ "', which is not one of its sources"
  | .ignoredInitialNotification property =>
    "NotifyOnInitialValue has no effect on lazily cached '" ++ property ++ "'"
  | .slotCollision property slot _ =>
    "Generated field '" ++ slot ++ "' for '" ++ property ++ "' collides with an existing member"
  | .noConstructor use member =>
    "No constructor of [" ++ use ++ "] accepts these arguments on '" ++ member
      ++ "'; its annotations are ignored"
  | .missingGetterExpression property =>
    "Cached derived property '" ++ property ++ "' needs an expression-bodied getter"

end Finding

end Reactive
