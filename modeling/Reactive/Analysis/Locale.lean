import Reactive.Analysis.Draft

/-!
# Reactive.Analysis.Locale — locale bindings

Localized properties are grouped by their registry and in it by the name of their locale object.  Registries, objects
and bindings keep the order in which they are first met.
-/

namespace Reactive

/-- A binding with the registry and the object that it belongs to. -/
structure PlacedBinding where
  registry : String
  grouping : Option String
  binding : LocaleBinding
deriving DecidableEq, Repr

namespace LocaleGroup

/-- The groupings with one more binding. -/
def addToGroupings (p : PlacedBinding) : List LocaleGrouping → List LocaleGrouping
  | [] => [⟨p.grouping, [p.binding]⟩]
  | g :: rest =>
    if g.name = p.grouping then { g with bindings := g.bindings ++ [p.binding] } :: rest
    else g :: addToGroupings p rest

/-- The groups with one more binding. -/
def add (groups : List LocaleGroup) (p : PlacedBinding) : List LocaleGroup :=
  match groups with
  | [] => [⟨p.registry, [⟨p.grouping, [p.binding]⟩]⟩]
  | g :: rest =>
    if g.registry = p.registry then { g with groupings := addToGroupings p g.groupings } :: rest
    else g :: add rest p

end LocaleGroup

namespace Drafting

/-- The binding of a localized member, if it can be one. -/
def localeBinding (m : MemberDecl) (a : Annotation) : Drafting (Option PlacedBinding) := do
  match m.kind with
  | .method _ => reject (.invalidArguments a.kind.text m.name (.propertiesOnly .localized)) a.span
  | .property p =>
    if p.setter.isSome then reject (.localeHasSetter m.name) m.nameSpan
    else
      match a.string? "ResourceName", a.string? "KeyPropertyName" with
      | some registry, some keyName =>
        match ← resolve keyName with
        | none => reject (.unknownLocaleKey m.name keyName) a.span
        | some key =>
          match ← resolve m.name with
          | none => return none
          | some target =>
            return some
              ⟨registry, a.string? "ObjectName", ⟨key, keyName, target, m.name, a.bool "Retain" false, m.nameSpan⟩⟩
      | _, _ => reject (.invalidArguments a.kind.text m.name .emptyLocaleNames) a.span

/-- The bindings of a class, grouped. -/
def localeGroups : List (MemberDecl × List Annotation) → List LocaleGroup → Drafting (List LocaleGroup)
  | [], groups => return groups
  | (m, annotations) :: rest, groups => do
    match findKind .localized annotations with
    | none => localeGroups rest groups
    | some a =>
      match ← localeBinding m a with
      | some placed => localeGroups rest (LocaleGroup.add groups placed)
      | none => localeGroups rest groups

end Drafting

end Reactive
