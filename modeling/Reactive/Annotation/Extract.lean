import Reactive.Finding

/-!
# Reactive.Annotation.Extract — the annotations on a member

Attributes of other kinds are passed over and a second one of a kind is reported and ignored.  If the arguments of one
cannot be bound, that is reported and the member has no annotations at all.
-/

namespace Reactive.Annotation

/-- A finding about the arguments of an use. -/
def invalidArguments (use : Attribute) (member : String) (issue : ArgumentIssue) (span : Span) : Finding :=
  ⟨.invalidArguments use.name member issue, span⟩

/-- The positional and the named arguments of an attribute, given those read before. -/
def splitArgs (shape : Shape) (use : Attribute) (member : String) :
    List AttributeArg → List Constant → List (String × Constant) →
      Except Finding (List Constant × List (String × Constant))
  | [], positional, named => .ok (positional, named)
  | ⟨none, value, span⟩ :: rest, positional, named =>
    if named.isEmpty then splitArgs shape use member rest (positional ++ [value]) named
    else .error (invalidArguments use member .positionalAfterNamed span)
  | ⟨some name, value, span⟩ :: rest, positional, named =>
    match shape.named? name with
    | none => .error (invalidArguments use member (.unknownNamed name) span)
    | some p =>
      if p.type.accepts value then splitArgs shape use member rest positional (named ++ [(name, value)])
      else .error (invalidArguments use member (.wrongType name p.type.text value.text) span)

/-- The annotation that an attribute of a kind says. -/
def bind (kind : AnnotationKind) (use : Attribute) (member : String) : Except Finding Annotation := do
  let (values, named) ← splitArgs kind.shape use member use.args [] []
  if let some most := kind.shape.maxPositional? then
    if values.length > most then
      throw (invalidArguments use member (.tooManyPositional most values.length) use.span)
  match kind.shape.bindPositional? values with
  | some positional => return ⟨kind, member, positional, named, use.span⟩
  | none => throw ⟨.noConstructor kind.text member, use.span⟩

/-- The annotations that attributes say, given the kinds seen before with their places; none if one cannot be bound. -/
def ofAttributes (member : String) :
    List Attribute → List (AnnotationKind × Span) → Option (List Annotation) × List Finding
  | [], _ => (some [], [])
  | use :: rest, seen =>
    match AnnotationKind.ofName? use.name with
    | none => ofAttributes member rest seen
    | some kind =>
      match seen.lookup kind with
      | some first =>
        let (annotations, findings) := ofAttributes member rest seen
        (annotations, ⟨.repeatedUse kind.text member first, use.span⟩ :: findings)
      | none =>
        match bind kind use member with
        | .ok bound =>
          let (annotations, findings) := ofAttributes member rest (seen ++ [(kind, use.span)])
          (annotations.map (bound :: ·), findings)
        | .error finding => (none, [finding])

/-- The annotations on a member, and what is found about them. -/
def ofMember (m : MemberDecl) : List Annotation × List Finding :=
  let (annotations, findings) := ofAttributes m.name m.attributes []
  (annotations.getD [], findings)

end Reactive.Annotation
