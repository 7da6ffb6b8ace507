import Reactive.Finding
import Reactive.Model
import Reactive.Naming

/-!
# Reactive.Analysis.Draft — a class model in the making

The steps of the analysis share three things: the table of properties, to which derived methods add theirs; the names
that are taken, by declared members first and then by generated ones; and what has been found so far.
-/

namespace Reactive

/-- What the steps of the analysis of a class share. -/
structure Draft where
  members : MemberTable
  /-- The names that are taken, with the places that took them. -/
  taken : List (String × Span)
  findings : List Finding
deriving Repr, Inhabited

/-- A step of the analysis. -/
abbrev Drafting := StateM Draft

namespace Drafting

/-- Adds a finding. -/
def report (cause : FindingCause) (span : Span) : Drafting Unit :=
  modify fun d => { d with findings := d.findings ++ [⟨cause, span⟩] }

/-- Adds a finding and gives nothing. -/
def reject {α : Type} (cause : FindingCause) (span : Span) : Drafting (Option α) := do
  report cause span
  return none

/-- The number of the property of a name. -/
def resolve (name : String) : Drafting (Option PropertyId) := return (← get).members.resolve? name

/-- Takes names for generated members if all of them are free; otherwise gives the first that is not, with the place
that took it. -/
def claimAll (names : List String) (span : Span) : Drafting (Option (String × Span)) := do
  let d ← get
  match names.findSome? fun n => (d.taken.lookup n).map fun owner => (n, owner) with
  | some conflict => return some conflict
  | none =>
    set { d with taken := d.taken ++ names.map (·, span) }
    return none

/-- Takes a name for a generated member if it is free; otherwise gives the place that took it. -/
def claim (name : String) (span : Span) : Drafting (Option Span) := do
  return (← claimAll [name] span).map Prod.snd

/-- Adds a property; if there is one of the name, gives its place instead of a number. -/
def addProperty (info : PropertyInfo) : Drafting (Except Span PropertyId) := do
  let d ← get
  match d.members.find? info.name with
  | some existing => return .error existing.span
  | none =>
    set { d with members := d.members ++ [info] }
    return .ok d.members.length

/-- Sets the role of a property. -/
def setRole (id : PropertyId) (role : PropertyRole) : Drafting Unit :=
  modify fun d => { d with members := d.members.setRole id role }

end Drafting

/-- The word that says who may see a declaration. -/
def accessibility (modifiers : List Modifier) : Option String :=
  (modifiers.find? Modifier.isAccessibility).map Modifier.text

/-- The declared member names, each with the place of its first declaration. -/
def declaredNames (c : ClassDecl) : List (String × Span) := c.members.map fun m => (m.name, m.nameSpan)

/-- The first annotation of a kind. -/
def findKind (kind : AnnotationKind) (annotations : List Annotation) : Option Annotation :=
  annotations.find? (·.kind = kind)

end Reactive
