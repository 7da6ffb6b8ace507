import Reactive.Checksum
import Reactive.Patch.Instruction

/-!
# Reactive.Patch.Module — patch modules and their listing

A patch module is an ordered list of edits to a compiled class.  Its listing says all of them in lines of text, and its
checksum is the CRC-32 of the listing, so a module whose edits were changed is told from an intact one.
-/

namespace Reactive

/-- What a generated field stores. -/
inductive FieldRole
  /-- The value of a reactive property. -/
  | propertySlot
  /-- The cached value of a derived property. -/
  | derivedSlot
  /-- Whether a lazy derived property has been computed. -/
  | lazyFlag
  /-- A command, once it has been constructed. -/
  | commandSlot
deriving DecidableEq, Repr

/-- How a listing names what a field stores. -/
def FieldRole.text : FieldRole → String
  | propertySlot => "property-slot"
  | derivedSlot => "derived-slot"
  | lazyFlag => "lazy-flag"
  | commandSlot => "command-slot"

/-- A compiled method. -/
structure CompiledMethod where
  name : String
  paramCount : UInt16
  localCount : UInt16
  code : List Instruction
deriving DecidableEq, Repr

/-- An edit of a compiled class. -/
inductive PatchEdit
  | addField (name type : String) (role : FieldRole)
  /-- Add a hoisted function of the instance. -/
  | addStatic (method : CompiledMethod)
  /-- Add a property that the class does not declare. -/
  | addProperty (name type getter : String)
  | addMethod (method : CompiledMethod)
  /-- Replace the body of a declared accessor. -/
  | replaceBody (method : CompiledMethod)
  /-- Store the declared initial value of a property through a setter. -/
  | redirectInitializer (property setter : String)
deriving DecidableEq, Repr

/-- The edits of one class, with the checksum that was computed of them. -/
structure PatchModule where
  className : String
  edits : List PatchEdit
  checksum : UInt32
deriving DecidableEq, Repr

/-! ### Listings -/

/-- A number in decimal with at least `width` digits. -/
def paddedDecimal (width n : Nat) : String :=
  let ds := Decimal.digitsOf n
  String.ofList (List.replicate (width - ds.length) '0' ++ ds)

/-- Lines of instructions, each with its index, from `index` on. -/
def Instruction.lines (index : Nat) : List Instruction → String
  | [] => ""
  | i :: is => "  " ++ paddedDecimal 4 index ++ " " ++ i.text ++ "\n" ++ Instruction.lines (index + 1) is

/-- The lines of a method. -/
def CompiledMethod.listing (m : CompiledMethod) : String :=
  m.name ++ "(" ++ toString m.paramCount.toNat ++ ") locals=" ++ toString m.localCount.toNat ++ "\n"
    ++ Instruction.lines 0 m.code

namespace PatchEdit

/-- The kind of an edit. -/
def kind : PatchEdit → String
  | addField .. => "add-field"
  | addStatic _ => "add-static"
  | addProperty .. => "add-property"
  | addMethod _ => "add-method"
  | replaceBody _ => "replace-body"
  | redirectInitializer .. => "redirect-initializer"

/-- The lines of an edit. -/
def listing : PatchEdit → String
  | addField name type role => "field " ++ name ++ ": " ++ type ++ " (" ++ role.text ++ ")\n"
  | addStatic m => "static " ++ m.listing
  | addProperty name type getter => "property " ++ name ++ ": " ++ type ++ " get=" ++ getter ++ "\n"
  | addMethod m => "method " ++ m.listing
  | replaceBody m => "replace " ++ m.listing
  | redirectInitializer property setter => "redirect " ++ property ++ " -> " ++ setter ++ "\n"

/-- The method that an edit adds or replaces. -/
def method? : PatchEdit → Option CompiledMethod
  | addStatic m | addMethod m | replaceBody m => some m
  | _ => none

end PatchEdit

/-- A word of 32 bits in hexadecimal, with eight digits. -/
def hexWord (w : UInt32) : String :=
  let ds := Nat.toDigits 16 w.toNat
  "0x" ++ String.ofList (List.replicate (8 - ds.length) '0' ++ ds)

namespace PatchModule

/-- The lines of all edits under the name of the class. -/
def listing (m : PatchModule) : String :=
  "; patch " ++ m.className ++ "\n" ++ String.join (m.edits.map PatchEdit.listing)

/-- The checksum of the edits as they are. -/
def computeChecksum (m : PatchModule) : UInt32 := Checksum.ofText m.listing

/-- The stored checksum is the one of the edits. -/
def isIntact (m : PatchModule) : Bool := m.checksum = m.computeChecksum

/-- The module with the checksum of its edits. -/
def sealed (m : PatchModule) : PatchModule := { m with checksum := m.computeChecksum }

/-- A module of edits, with their checksum. -/
def ofEdits (className : String) (edits : List PatchEdit) : PatchModule := sealed ⟨className, edits, 0⟩

/-- The listing with the stored checksum in a last line. -/
def fullListing (m : PatchModule) : String := m.listing ++ "; checksum " ++ hexWord m.checksum ++ "\n"

/-- The first method of a name that an edit adds or replaces. -/
def method? (m : PatchModule) (name : String) : Option CompiledMethod :=
  (m.edits.filterMap PatchEdit.method?).find? (·.name == name)

theorem isIntact_sealed (m : PatchModule) : m.sealed.isIntact := by
  simp [isIntact, sealed, computeChecksum, listing]

end PatchModule

end Reactive
