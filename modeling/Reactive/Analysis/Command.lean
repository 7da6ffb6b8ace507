import Reactive.Analysis.Draft

/-!
# Reactive.Analysis.Command — commands of annotated methods

A command takes at most one argument.  The property that says whether it may run has to be a truth value whose changes
are announced; otherwise the command may always run.
-/

namespace Reactive.Drafting

/-- Whether a method gives a task, and the type of its result. -/
def unwrapTask (type : TypeRef) : Bool × Option TypeRef :=
  if type.baseName == "Task" || type.baseName == "ValueTask" then (true, type.args.head?)
  else if type.isVoid then (false, none)
  else (false, some type)

/-- The property that enables a command, if it can. -/
def bindEnablement (command : String) (a : Annotation) (name : String) : Drafting (Option Enablement) := do
  let table := (← get).members
  let refuse (issue : EnablementIssue) : Drafting (Option Enablement) :=
    reject (.invalidEnablement command name issue) a.span
  match table.resolve? name, table.find? name with
  | some id, some info =>
    if !info.type.isBool then refuse .notBoolean
    else if info.role = .plain then refuse .notObservable
    else return some ⟨id, name⟩
  | _, _ => refuse .unresolved

/-- The command of an annotated member, if it can be one. -/
def command (m : MemberDecl) (a : Annotation) : Drafting (Option CommandModel) := do
  match m.kind with
  | .property _ => reject (.invalidArguments a.kind.text m.name (.methodsOnly .command)) a.span
  | .method d =>
    if d.params.length > 1 then reject (.tooManyCommandParameters m.name d.params.length) m.nameSpan
    else
      let property := Naming.command m.name
      let slot := Naming.slot property
      match ← claim property m.nameSpan with
      | some earlier => reject (.duplicateTarget property earlier) m.nameSpan
      | none =>
        match ← claim slot m.nameSpan with
        | some existing => reject (.slotCollision property slot existing) m.nameSpan
        | none => do
          let (isAsync, returnType) := unwrapTask d.returnType
          let enablement ← match a.string? "CanExecute" with
            | some name => bindEnablement m.name a name
            | none => pure none
          return some
            ⟨m.name, property, slot, d.params.head?.map Param.type, returnType, isAsync, enablement, m.nameSpan⟩

/-- The commands of a class, in the order of their methods. -/
def commands : List (MemberDecl × List Annotation) → Drafting (List CommandModel)
  | [] => return []
  | (m, annotations) :: rest => do
    match findKind .command annotations with
    | none => commands rest
    | some a =>
      match ← command m a with
      | some c => return c :: (← commands rest)
      | none => commands rest

end Reactive.Drafting
