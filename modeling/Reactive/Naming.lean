import Reactive.Text.Case

/-!
# Reactive.Naming — names of generated members

Every generated member is named after the property, method or command that it is generated for.
-/

namespace Reactive.Naming

/-- The field behind a property: an underscore and the name with a small first letter. -/
def slot (name : String) : String :=
  match name.toList with
  | [] => "_"
  | c :: cs => "_" ++ String.ofList (Text.lowerChar c ++ cs)

/-- The field that says whether a lazy value has been computed, by the name of its slot. -/
def lazyFlag (slot : String) : String := slot ++ "Initialized"

/-- The hoisted function of a derived property. -/
def projection (name : String) : String := slot name ++ "Projection"

/-- The field that a compiled automatic property stores into. -/
def autoField (property : String) : String := "<" ++ property ++ ">k__BackingField"

/-- The compiled getter of a property. -/
def getter (property : String) : String := "get_" ++ property

/-- The compiled setter of a property. -/
def setter (property : String) : String := "set_" ++ property

/-- The method that stores a reactive property and announces the change. -/
def raiseAndSet (property : String) : String := "RaiseAndSet" ++ property

/-- The method that recomputes a cached property. -/
def recompute (property : String) : String := "Recompute" ++ property

/-- The hook before a change. -/
def changingHook (property : String) : String := "On" ++ property ++ "Changing"

/-- The hook behind a change. -/
def changedHook (property : String) : String := "On" ++ property ++ "Changed"

/-- The command property of a method. -/
def command (method : String) : String := method ++ "Command"

example : slot "Verified" = "_verified" := by decide +kernel

end Reactive.Naming
