/-!
# Reactive.Double — 64-bit binary floating point

A `Double` is its 64 bits, so equality of terms is decidable and says "the same number, NaN and the sign of zero
included".  The numbers' own equality and order, under which NaN differs from itself and the two zeros agree, are
`Double.eq` and `Double.lt`.

`Double.ofRatio` rounds a fraction to the nearest double, a half to the even neighbour, in exact arithmetic on `Nat`;
reading decimals and turning integers into doubles go through it.
-/

namespace Reactive

/-- A 64-bit floating-point number, given by its bits. -/
structure Double where
  /-- Sign, eleven bits of exponent, fifty-two bits of fraction. -/
  bits : UInt64
deriving DecidableEq, Inhabited, Repr

namespace Double

/-! ### The parts of a number -/

/-- The sign bit; set for `-0.0` too. -/
def isNegative (x : Double) : Bool := x.bits.toNat ≥ 1 <<< 63

/-- The eleven exponent bits. -/
def exponentField (x : Double) : Nat := (x.bits.toNat >>> 52) % 2048

/-- The fifty-two fraction bits. -/
def fraction (x : Double) : Nat := x.bits.toNat % (1 <<< 52)

/-- Not a number. -/
def isNaN (x : Double) : Bool := x.exponentField = 2047 && x.fraction ≠ 0

/-- One of the two infinities. -/
def isInfinite (x : Double) : Bool := x.exponentField = 2047 && x.fraction = 0

/-- The integer `m` in the magnitude `m * 2 ^ scale` of a finite number. -/
def mantissa (x : Double) : Nat := if x.exponentField = 0 then x.fraction else x.fraction + (1 <<< 52)

/-- The power of two in the magnitude `mantissa * 2 ^ scale` of a finite number. -/
def scale (x : Double) : Int := (max x.exponentField 1 : Nat) - 1075

/-! ### Rounding to a double -/

/-- The number with the sign given and the remaining 63 bits `magnitude`. -/
def withSign (negative : Bool) (magnitude : Nat) : Double :=
  ⟨UInt64.ofNat (if negative then magnitude + (1 <<< 63) else magnitude)⟩

/-- The 63 magnitude bits of an infinity. -/
def infinityBits : Nat := 2047 <<< 52

/-- An infinity. -/
def infinity (negative : Bool) : Double := withSign negative infinityBits

/-- The quiet NaN. -/
def nan : Double := withSign false (infinityBits + (1 <<< 51))

/-- The integer nearest to `num / den`, a half going to the even one. -/
def roundToEven (num den : Nat) : Nat :=
  let q := num / den
  let r := num % den
  if 2 * r < den then q else if den < 2 * r then q + 1 else q + q % 2

/-- `num / den` divided by `2 ^ e`, as a fraction. -/
def scaleDown (num den : Nat) (e : Int) : Nat × Nat :=
  if e < 0 then (num <<< e.natAbs, den) else (num, den <<< e.natAbs)

/-- The double nearest to `num / den` with the sign given, a half going to the even neighbour. -/
def ofRatio (negative : Bool) (num den : Nat) : Double :=
  if num = 0 || den = 0 then withSign negative 0
  else
    let least : Int := max ((num.log2 : Int) - den.log2 - 53) (-1074)
    let trial := scaleDown num den least
    let e := if trial.1 / trial.2 < 1 <<< 53 then least else least + 1
    let scaled := scaleDown num den e
    let m := roundToEven scaled.1 scaled.2
    let magnitude := ((e + 1074).toNat <<< 52) + m
    if magnitude ≥ infinityBits then infinity negative else withSign negative magnitude

/-- The double nearest to `m * 10 ^ e` with the sign given. -/
def ofDecimal (negative : Bool) (m : Nat) (e : Int) : Double :=
  if m = 0 then withSign negative 0
  else if e > 400 then infinity negative
  else if e + m.log2 < -1200 then withSign negative 0
  else if e < 0 then ofRatio negative m (Nat.pow 10 e.natAbs)
  else ofRatio negative (m * Nat.pow 10 e.natAbs) 1

/-- The double nearest to an integer. -/
def ofInt (i : Int) : Double := ofRatio (i < 0) i.natAbs 1

/-- Positive zero. -/
def zero : Double := ⟨0⟩

/-! ### Arithmetic -/

/-- The machine number with these bits. -/
def toFloat (x : Double) : Float := Float.ofBits x.bits

/-- The bits of a machine number. -/
def ofFloat (x : Float) : Double := ⟨x.toBits⟩

/-- Sum, rounded to nearest. -/
def add (x y : Double) : Double := ofFloat (x.toFloat + y.toFloat)

/-- Difference, rounded to nearest. -/
def sub (x y : Double) : Double := ofFloat (x.toFloat - y.toFloat)

/-- Product, rounded to nearest. -/
def mul (x y : Double) : Double := ofFloat (x.toFloat * y.toFloat)

/-- Quotient, rounded to nearest; a division by zero gives an infinity or NaN. -/
def div (x y : Double) : Double := ofFloat (x.toFloat / y.toFloat)

/-- Equality of numbers: NaN equals nothing and the zeros are equal. -/
def eq (x y : Double) : Bool := x.toFloat == y.toFloat

/-- Order of numbers: NaN is below and above nothing. -/
def lt (x y : Double) : Bool := x.toFloat < y.toFloat

/-- Order or equality of numbers. -/
def le (x y : Double) : Bool := x.toFloat ≤ y.toFloat

/-- The number with the other sign. -/
def neg (x : Double) : Double := withSign (!x.isNegative) (x.bits.toNat % (1 <<< 63))

/-- The number without its sign. -/
def abs (x : Double) : Double := withSign false (x.bits.toNat % (1 <<< 63))

/-- The exact remainder of the truncated division: it has the sign of `x` and less magnitude than `y`. -/
def rem (x y : Double) : Double :=
  if x.isNaN || y.isNaN || x.isInfinite || y.mantissa = 0 then nan
  else if y.isInfinite then x
  else
    let e := min x.scale y.scale
    let r := (x.mantissa <<< (x.scale - e).toNat) % (y.mantissa <<< (y.scale - e).toNat)
    if e < 0 then ofRatio x.isNegative r (1 <<< e.natAbs) else ofRatio x.isNegative (r <<< e.natAbs) 1

end Double

end Reactive
