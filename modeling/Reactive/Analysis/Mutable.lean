import Reactive.Analysis.Draft

/-!
# Reactive.Analysis.Mutable — declared and reactive properties

Every declared property goes into the table, a second one of a name only as a finding.  A property that is annotated
as reactive needs automatic accessors and free names for its slot and its setting method.
-/

namespace Reactive.Drafting

/-- Adds the declared properties to the table. -/
def declare (m : MemberDecl) : Drafting Unit := do
  if let .property p := m.kind then
    let info : PropertyInfo :=
      ⟨m.name, p.type, p.setter.isSome, .plain, false, accessibility m.modifiers, m.nameSpan⟩
    if let .error earlier ← addProperty info then report (.duplicateTarget m.name earlier) m.nameSpan

/-- The model of a reactive property, if it can be one. -/
def mutableProperty (m : MemberDecl) (a : Annotation) : Drafting (Option MutableProperty) := do
  match m.kind with
  | .method _ => reject (.invalidArguments a.kind.text m.name (.propertiesOnly .reactive)) a.span
  | .property p =>
    match p.setter with
    | none => reject (.missingSetter m.name a.kind.text) m.nameSpan
    | some setter => do
      if setter.body.isSome || p.getterBody?.isSome then reject (.unsupportedBody m.name .notAutomatic) m.nameSpan
      else
        let table := (← get).members
        match table.resolve? m.name with
        | none => return none
        | some id => do
          -- A second declaration of the name is not the property that the number stands for.
          if table[id]?.map PropertyInfo.span ≠ some m.nameSpan then return none
          let slot := Naming.slot m.name
          match ← claimAll [slot, Naming.raiseAndSet m.name] m.nameSpan with
          | some (name, existing) => reject (.slotCollision m.name name existing) m.nameSpan
          | none =>
            return some ⟨id, m.name, p.type, !a.bool "Check" true, p.initializer, slot, m.nameSpan⟩

/-- The models of the reactive properties, whose roles are set. -/
def mutableProperties : List (MemberDecl × List Annotation) → Drafting (List MutableProperty)
  | [] => return []
  | (m, annotations) :: rest => do
    match findKind .reactive annotations with
    | none => mutableProperties rest
    | some a =>
      match ← mutableProperty m a with
      | none => mutableProperties rest
      | some property => do
        setRole property.id .mutable
        return property :: (← mutableProperties rest)

end Reactive.Drafting
