import Reactive.Double

/-!
# Reactive.Decimal — the shortest decimal text of a double

A finite double is `mantissa * 2 ^ scale`, and an interval of reals rounds to it.  `Decimal.shortest` looks for the
coarsest decimal grid with a point in that interval, trying one digit, then two, up to seventeen; of two points it
takes the nearer one.  What a tie goes to and how the digits are laid out is a `Layout`: three of them are used,
`source` in class declarations and listings, `plain` in messages and string values, `stored` in patch modules.
-/

namespace Reactive

/-- The number `digits * 10 ^ exponent`. -/
structure Decimal where
  /-- The significant digits as one integer. -/
  digits : Nat
  /-- The power of ten of the last digit. -/
  exponent : Int
deriving DecidableEq, Repr

namespace Decimal

/-- The decimal digits of a number, most significant first. -/
def digitsOf (n : Nat) : List Char := Nat.toDigits 10 n

/-- The power of ten of the leading digit. -/
def leading (d : Decimal) : Int := d.exponent + (digitsOf d.digits).length - 1

/-- The same number without trailing zero digits, at most `fuel` of which are removed. -/
def stripZeros : Nat → Decimal → Decimal
  | 0, d => d
  | fuel + 1, d => if d.digits ≠ 0 && d.digits % 10 = 0 then stripZeros fuel ⟨d.digits / 10, d.exponent + 1⟩ else d

/-! ### The shortest digits -/

/-- The interval of reals that round to a double, and the double itself, in units of `2 ^ (scale - 2)`. -/
structure Interval where
  /-- Lower end. -/
  low : Nat
  /-- The double. -/
  mid : Nat
  /-- Upper end. -/
  high : Nat
  /-- The ends belong to the interval. -/
  closed : Bool
  /-- The unit is `2 ^ unit`. -/
  unit : Int

/-- The reals that round to a finite double: half a unit to each side, a quarter below a power of two. -/
def interval (x : Double) : Interval :=
  let m := x.mantissa
  let narrow := m = 1 <<< 52 && x.exponentField > 1
  ⟨if narrow then 4 * m - 1 else 4 * m - 2, 4 * m, 4 * m + 2, m % 2 = 0, x.scale - 2⟩

/-- The interval and the grid of multiples of `10 ^ k`, both as integers: a length `n` of the interval becomes
`n * fst`, and the grid point number `d` becomes `d * snd`. -/
def weights (i : Interval) (k : Int) : Nat × Nat :=
  let binary := if i.unit < 0 then (1, 1 <<< i.unit.natAbs) else (1 <<< i.unit.natAbs, 1)
  let decimal := if k < 0 then (1, Nat.pow 10 k.natAbs) else (Nat.pow 10 k.natAbs, 1)
  (binary.1 * decimal.2, decimal.1 * binary.2)

/-- Which of two grid points is chosen that are equally near. -/
inductive Tie
  | larger
  | even
deriving DecidableEq, Repr

/-- The tie goes to the point below. -/
def Tie.isBelow (tie : Tie) (below : Nat) : Bool := tie = .even && below % 2 = 0

/-- The grid point next to the double that lies in the interval, the nearer one of two. -/
def onGrid (tie : Tie) (i : Interval) (k : Int) : Option Decimal :=
  let (u, w) := weights i k
  let inside (d : Nat) : Bool :=
    if i.closed then i.low * u ≤ d * w && d * w ≤ i.high * u else i.low * u < d * w && d * w < i.high * u
  let below := i.mid * u / w
  let above := below + 1
  match inside below, inside above with
  | true, true =>
    let toBelow := i.mid * u - below * w
    let toAbove := above * w - i.mid * u
    some ⟨if toBelow < toAbove || (toBelow = toAbove && tie.isBelow below) then below else above, k⟩
  | true, false => some ⟨below, k⟩
  | false, true => some ⟨above, k⟩
  | false, false => none

example : onGrid .larger ⟨20, 25, 30, true, 0⟩ 1 = some ⟨3, 1⟩ := by decide

example : onGrid .even ⟨20, 25, 30, true, 0⟩ 1 = some ⟨2, 1⟩ := by decide

/-- The power of ten of the leading digit of a positive double: the greatest `p` with `10 ^ p` at most the double,
found below the start `p` in at most `fuel` steps. -/
def magnitude (i : Interval) : Nat → Int → Int
  | 0, p => p
  | fuel + 1, p => let (u, w) := weights i p; if w ≤ i.mid * u then p else magnitude i fuel (p - 1)

/-- The first grid with a point in the interval, from the one of `n + 1` digits on. -/
def search (tie : Tie) (i : Interval) (p : Int) : Nat → Nat → Option Decimal
  | 0, _ => none
  | fuel + 1, n => (onGrid tie i (p - n)).or (search tie i p fuel (n + 1))

/-- The fewest digits that read back as the magnitude of a finite double, the nearest of those. -/
def shortest (tie : Tie) (x : Double) : Decimal :=
  if x.mantissa = 0 then ⟨0, 0⟩
  else
    let i := interval x
    let start := ((i.mid.log2 : Int) + i.unit + 1) * 30103 / 100000 + 1
    stripZeros 20 ((search tie i (magnitude i 4 start) 17 0).getD ⟨0, 0⟩)

/-! ### Layouts -/

/-- How the digits of a number are written. -/
structure Layout where
  /-- The digits if two choices of them are equally near. -/
  tie : Tie
  /-- Powers of ten of the leading digit that are written without exponent: from the first, below the second. -/
  positional : Option (Int × Int)
  /-- A number without fraction digits gets `.0`. -/
  pointZero : Bool
  /-- An exponent that is not negative gets a plus sign. -/
  plusSign : Bool

/-- Digits of a number without an exponent. -/
def positionalText (d : Decimal) (pointZero : Bool) : String :=
  let ds := digitsOf d.digits
  if d.exponent ≥ 0 then
    String.ofList (if d.digits = 0 then ds else ds ++ List.replicate d.exponent.natAbs '0')
      ++ if pointZero then ".0" else ""
  else
    let places := d.exponent.natAbs
    let padded := List.replicate (places + 1 - ds.length) '0' ++ ds
    String.ofList (padded.take (padded.length - places)) ++ "." ++ String.ofList (padded.drop (padded.length - places))

/-- Digits of a number with one digit before the point and an exponent. -/
def scientificText (d : Decimal) (plusSign : Bool) : String :=
  let ds := digitsOf d.digits
  let fraction := if ds.length > 1 then "." ++ String.ofList ds.tail else ""
  let p := d.leading
  let exponent := if p < 0 then "-" ++ toString p.natAbs else (if plusSign then "+" else "") ++ toString p.natAbs
  String.ofList (ds.take 1) ++ fraction ++ "e" ++ exponent

/-- The text of a number without its sign. -/
def text (l : Layout) (d : Decimal) : String :=
  match l.positional with
  | none => positionalText d l.pointZero
  | some (from_, below) =>
    if d.digits = 0 || (from_ ≤ d.leading && d.leading < below) then positionalText d l.pointZero
    else scientificText d l.plusSign

end Decimal

namespace Double

open Decimal

/-- The text of a double in a layout. -/
def render (l : Layout) (x : Double) : String :=
  if x.isNaN then "NaN"
  else (if x.isNegative then "-" else "") ++ if x.isInfinite then "inf" else text l (shortest l.tie x)

/-- In declarations and listings a number always has a point or an exponent, and is positional from `1e-4` on and
below `1e16`. -/
def sourceText : Double → String := render ⟨.larger, some (-4, 16), true, false⟩

/-- In messages and string values a number has no exponent and no forced fraction. -/
def plainText : Double → String := render ⟨.larger, none, false, false⟩

/-- In patch modules a number is positional from `1e-5` on and below `1e16`, and an exponent has its sign; what is not
finite has no text. -/
def storedText (x : Double) : Option String :=
  if x.isNaN || x.isInfinite then none else some (render ⟨.even, some (-5, 16), true, true⟩ x)

/-! ### Reading -/

/-- The digits, as a number. -/
def natOfDigits (cs : List Char) : Nat := cs.foldl (fun n c => n * 10 + (c.toNat - '0'.toNat)) 0

/-- The double nearest to `whole.fraction`, both given as digits. -/
def ofDigits (negative : Bool) (whole fraction : List Char) (exponent : Int) : Double :=
  ofDecimal negative (natOfDigits (whole ++ fraction)) (exponent - fraction.length)

/-- A signed run of digits. -/
def readExponent : List Char → Option Int
  | '-' :: cs => if cs ≠ [] && cs.all Char.isDigit then some (-(natOfDigits cs : Int)) else none
  | '+' :: cs => if cs ≠ [] && cs.all Char.isDigit then some (natOfDigits cs) else none
  | cs => if cs ≠ [] && cs.all Char.isDigit then some (natOfDigits cs) else none

/-- Reads the text of a double: `inf`, `NaN`, or digits with an optional fraction and exponent. -/
def ofText? (s : String) : Option Double :=
  let (negative, cs) := match s.toList with
    | '-' :: cs => (true, cs)
    | cs => (false, cs)
  if cs = "inf".toList then some (infinity negative)
  else if cs = "NaN".toList then some nan
  else
    let whole := cs.takeWhile Char.isDigit
    let rest := cs.dropWhile Char.isDigit
    let (fraction, rest) := match rest with
      | '.' :: rest => (rest.takeWhile Char.isDigit, rest.dropWhile Char.isDigit)
      | rest => ([], rest)
    if whole = [] && fraction = [] then none
    else match rest with
      | [] => some (ofDigits negative whole fraction 0)
      | c :: rest => if c = 'e' || c = 'E' then (readExponent rest).map (ofDigits negative whole fraction) else none

end Double

end Reactive
