import Reactive.Decimal
import Reactive.Json

/-!
# Reactive.Json.Number — what the text of a JSON number stands for

A number without point and exponent is an integer; the text `-0` is not one, and neither is a number that needs more
than 64 bits.  As a double, a number is read in two roundings: its digits, as far as they fit 64 bits, are rounded to a
double, and that is multiplied or divided by a power of ten.
-/

namespace Reactive.Json

/-- The parts of a number: sign, digits before and behind the point, exponent. -/
structure Numeral where
  negative : Bool
  whole : List Char
  fraction : List Char
  exponent : Option Int

/-- The parts of a number as it is written. -/
def numeral (text : String) : Numeral :=
  let cs := text.toList
  let negative := cs.head? = some '-'
  let cs := if negative then cs.tail else cs
  let rest := cs.dropWhile Char.isDigit
  let fraction := match rest with
    | '.' :: more => more.takeWhile Char.isDigit
    | _ => []
  let marked := rest.dropWhile fun c => c ≠ 'e' && c ≠ 'E'
  ⟨negative, cs.takeWhile Char.isDigit, fraction, marked.tail? >>= Double.readExponent⟩

/-- The integer that a number stands for, if it has neither point nor exponent and fits 64 bits. -/
def integerOf? (text : String) : Option Int :=
  let n := numeral text
  if n.fraction ≠ [] || n.exponent.isSome then none
  else
    let m := Double.natOfDigits n.whole
    if n.negative then (if m = 0 || m > 1 <<< 63 then none else some (-(m : Int)))
    else if m < UInt64.size then some m else none

/-- Digits taken into a significand of 64 bits: the significand, and the digits that did not fit. -/
def accumulate (significand : Nat) : List Char → Nat × List Char
  | [] => (significand, [])
  | c :: cs =>
    let next := significand * 10 + (c.toNat - '0'.toNat)
    if next < UInt64.size then accumulate next cs else (significand, c :: cs)

/-- A significand times a power of ten, each step rounded; none if it is too large. -/
def scaleBy (x : Double) (exponent : Int) : Nat → Option Double
  | 0 => some x
  | fuel + 1 =>
    if exponent.natAbs ≤ 308 then
      let power := Double.ofDecimal false 1 exponent.natAbs
      if exponent < 0 then some (x.div power)
      else let y := x.mul power; if y.isInfinite then none else some y
    else if x = Double.zero then some x
    else if exponent ≥ 0 then none
    else scaleBy (x.div (Double.ofDecimal false 1 308)) (exponent + 308) fuel

/-- The double that a number stands for; none if it is too large. -/
def doubleOf? (text : String) : Option Double := do
  let n := numeral text
  let (significand, excess) := accumulate 0 n.whole
  let (significand, leftOver) := accumulate significand n.fraction
  let exponent := n.exponent.getD 0 + excess.length - (n.fraction.length - leftOver.length)
  let x ← scaleBy (Double.ofInt significand) exponent (exponent.natAbs / 308 + 1)
  return if n.negative then x.neg else x

end Reactive.Json
