import Reactive.Machine.Error
import Reactive.Text.Blank
import Reactive.Text.Case

/-!
# Reactive.Machine.Value — values, operators and host helpers

The values that generated code works on, the operators on them, and the few members of strings and functions of the
host that bodies may use.  Integers have 64 bits and wrap around.
-/

namespace Reactive

/-- A value.  Objects, commands and locale registrations are numbered in the order of their creation. -/
inductive Value
  | null
  | bool (value : Bool)
  | int (value : Int64)
  | float (value : Double)
  | string (value : String)
  | object (id : Nat)
  | command (id : Nat)
  | locale (id : Nat)
deriving DecidableEq, Repr, Inhabited

namespace Value

/-- The name of a value's type in messages. -/
def typeName : Value → String
  | null => "null"
  | bool _ => "bool"
  | int _ => "int"
  | float _ => "double"
  | string _ => "string"
  | object _ => "object"
  | command _ => "command"
  | locale _ => "locale"

/-- The text that a value has in a string. -/
def text : Value → String
  | null => ""
  | bool b => if b then "True" else "False"
  | int i => toString i.toInt
  | float x => x.plainText
  | string s => s
  | object n => "object#" ++ toString n
  | command n => "command#" ++ toString n
  | locale n => "locale#" ++ toString n

/-- The truth value, if it is one. -/
def bool? : Value → Option Bool
  | bool b => some b
  | _ => none

/-- The types of whole numbers. -/
def wholeTypes : List String :=
  ["int", "long", "short", "byte", "sbyte", "uint", "ulong", "ushort", "Int32", "Int64", "System.Int32",
    "System.Int64"]

/-- The types of other numbers. -/
def realTypes : List String := ["double", "float", "decimal", "Double", "Single", "System.Double"]

/-- The value of a field that nothing has been stored in, by the text of its type. -/
def defaultOf (type : String) : Value :=
  if type.toList.getLast? = some '?' then null
  else if type = "bool" || type = "Boolean" || type = "System.Boolean" then bool false
  else if wholeTypes.contains type then int 0
  else if realTypes.contains type then float .zero
  else null

/-- Equality as generated code tests it: an integer may equal a double. -/
def equals : Value → Value → Bool
  | int a, float b => (Double.ofInt a.toInt).eq b
  | float a, int b => (Double.ofInt b.toInt).eq a
  | float a, float b => a.eq b
  | a, b => a = b

/-! ### Operators -/

/-- Applies an operator to its operand. -/
def unary : UnaryOp → Value → Except RuntimeError Value
  | .not, bool b => .ok (bool !b)
  | .negate, int i => .ok (int (-i))
  | .negate, float x => .ok (float x.neg)
  | op, v => .error (.typeFault (.unaryOperand op v.typeName))

/-- An operator on integers. -/
def intOp (op : StrictOp) (a b : Int64) : Except RuntimeError Value :=
  match op with
  | .add => .ok (int (a + b))
  | .sub => .ok (int (a - b))
  | .mul => .ok (int (a * b))
  | .div => if b = 0 then .error .divisionByZero else .ok (int (a / b))
  | .mod => if b = 0 then .error .divisionByZero else .ok (int (a % b))
  | .eq => .ok (bool (a = b))
  | .ne => .ok (bool (a ≠ b))
  | .lt => .ok (bool (a < b))
  | .le => .ok (bool (a ≤ b))
  | .gt => .ok (bool (b < a))
  | .ge => .ok (bool (b ≤ a))

/-- An operator on doubles. -/
def floatOp (op : StrictOp) (a b : Double) : Value :=
  match op with
  | .add => float (a.add b)
  | .sub => float (a.sub b)
  | .mul => float (a.mul b)
  | .div => float (a.div b)
  | .mod => float (a.rem b)
  | .eq => bool (a.eq b)
  | .ne => bool (!a.eq b)
  | .lt => bool (a.lt b)
  | .le => bool (a.le b)
  | .gt => bool (b.lt a)
  | .ge => bool (b.le a)

/-- A comparison of strings, by their characters' code points; other operators have none. -/
def stringOp? (op : StrictOp) (a b : String) : Option Value :=
  match op with
  | .lt => some (bool (decide (a < b)))
  | .le => some (bool (!decide (b < a)))
  | .gt => some (bool (decide (b < a)))
  | .ge => some (bool (!decide (a < b)))
  | _ => none

/-- The number, as a double. -/
def number? : Value → Option Double
  | int i => some (Double.ofInt i.toInt)
  | float x => some x
  | _ => none

/-- The value is a string. -/
def isString : Value → Bool
  | string _ => true
  | _ => false

/-- Applies a strict operator: equality goes for all values, `add` joins texts if one of them is a string, and numbers
are compared and computed as doubles unless both are integers. -/
def binary (op : StrictOp) (a b : Value) : Except RuntimeError Value :=
  if op = .eq then .ok (bool (a.equals b))
  else if op = .ne then .ok (bool (!a.equals b))
  else if op = .add && (a.isString || b.isString) then .ok (string (a.text ++ b.text))
  else
    let mismatch : RuntimeError := .typeFault (.binaryOperands op a.typeName b.typeName)
    match a, b with
    | int i, int j => intOp op i j
    | string s, string t =>
      match stringOp? op s t with
      | some v => .ok v
      | none => .error mismatch
    | _, _ =>
      match a.number?, b.number? with
      | some x, some y => .ok (floatOp op x y)
      | _, _ => .error mismatch

/-! ### Host helpers -/

/-- The left value if the comparison holds, and the right one otherwise. -/
def choose (keepLeft : StrictOp) (a b : Value) : Except RuntimeError Value := do
  match ← binary keepLeft a b with
  | bool true => return a
  | _ => return b

/-- Calls a helper of the host by its full name. -/
def callHost (name : String) (args : List Value) : Except RuntimeError Value :=
  match name, args with
  | "string.Empty", [] => .ok (string "")
  | "string.IsNullOrEmpty", [v] =>
    .ok <| bool <| match v with
      | null => true
      | string s => s.isEmpty
      | _ => false
  | "string.IsNullOrWhiteSpace", [v] =>
    .ok <| bool <| match v with
      | null => true
      | string s => Text.isBlankText s
      | _ => false
  | "string.Concat", parts => .ok (string (String.join (parts.map text)))
  | "Math.Max", [a, b] => choose .ge a b
  | "Math.Min", [a, b] => choose .le a b
  | "Math.Abs", [int i] => .ok (int (if i < 0 then -i else i))
  | "Math.Abs", [float x] => .ok (float x.abs)
  | _, _ => .error (.unknownHost name args.length)

/-! ### Members of strings -/

/-- The text `part` occurs in `cs`. -/
def occursIn (part : List Char) : List Char → Bool
  | [] => part.isEmpty
  | c :: cs => part.isPrefixOf (c :: cs) || occursIn part cs

/-- The first argument of a member of strings, which has to be a string. -/
def stringArg (member : String) (args : List Value) : Except RuntimeError (List Char) :=
  match args with
  | string s :: _ => .ok s.toList
  | other => .error (.typeFault (.stringArgument member ((other.head?.map typeName).getD "nothing")))

/-- Reads a property of a string or calls a method of it. -/
def stringMember (s : String) (member : String) (args : List Value) : Except RuntimeError Value := do
  match member with
  | "Length" => return int (Int64.ofNat s.length)
  | "ToUpper" => return string (Text.toUpper s)
  | "ToLower" => return string (Text.toLower s)
  | "Trim" => return string (Text.trim s)
  | "Contains" => return bool (occursIn (← stringArg member args) s.toList)
  | "StartsWith" => return bool ((← stringArg member args).isPrefixOf s.toList)
  | "EndsWith" => return bool ((← stringArg member args).isSuffixOf s.toList)
  | _ => throw (.unknownMember "string" member)

end Value

end Reactive
