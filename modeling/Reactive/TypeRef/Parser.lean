import Reactive.Token.Cursor
import Reactive.TypeRef

/-!
# Reactive.TypeRef.Parser — reading a type

A dotted name, type arguments between angle brackets if there are any, and a question mark if the type is nullable.
-/

namespace Reactive.Parse

/-- A type whose arguments are nested at most `depth` levels deep; no more levels than tokens are needed. -/
def typeWithin : Nat → Parse TypeRef
  | 0 => return ⟨← qualifiedName, [], ← accept (.symbol .question)⟩
  | depth + 1 => do
    let name ← qualifiedName
    let args ←
      if ← accept (.symbol .less) then
        let args ← separated (typeWithin depth) (← remaining)
        expect (.symbol .greater)
        pure args
      else pure []
    return ⟨name, args, ← accept (.symbol .question)⟩

/-- A type. -/
def type : Parse TypeRef := do typeWithin (← remaining)

end Reactive.Parse
