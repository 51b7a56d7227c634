/-
  ComponentSite.Number.Shortest — doubles in decimal digits.

  A double is written with the fewest digits that lead back to it: of all decimals
  that are nearer to it than to any other double, one with the fewest digits is taken,
  the nearest of those, and of two as near the even one. On the grid of the decimals
  with a given last place only the two around the double can be it, so the grids are
  tried from the coarsest one on; seventeen digits are always enough.

  The number is written out if its first digit stands at most sixteen places before
  the point or six behind it, and with an exponent otherwise.
-/
import ComponentSite.Number.Double

namespace ComponentSite.Number

structure Decimal where
  digits : Nat
  place : Int
  deriving DecidableEq, Repr

def digitCount (n : Nat) : Nat := (Nat.toDigits 10 n).length

/-- The numerator and the denominator of a power of ten. -/
def powerOfTen (place : Int) : Nat × Nat := (Nat.pow 10 place.toNat, Nat.pow 10 (-place).toNat)

/-- No double is greater than ten to the power of this. -/
def greatestPlace : Int := 309

/-- The double that is nearest to the decimal is less than infinity. -/
def Decimal.isFinite (d : Decimal) : Bool :=
  let places := digitCount d.digits + d.place
  if d.digits == 0 || places < greatestPlace then true
  else if greatestPlace < places then false
  else
    let (n, m) := powerOfTen d.place
    nearestSize (d.digits * n <<< unitScale) m < sizeLimit

/-- The decimals that lead to a size, in quarters of a unit: the bounds, and whether
    they are among them. The gap below a power of two is half of the one above it. -/
structure Interval where
  low : Nat
  high : Nat
  closed : Bool

def Interval.around (units : Nat) : Interval :=
  let spare := spareDigits units
  let gap := 1 <<< spare
  let leading := units >>> spare
  let narrow := 0 < spare && leading == leastNormal
  { low := 4 * units - (if narrow then gap else 2 * gap)
    high := 4 * units + 2 * gap
    closed := leading % 2 == 0 }

def Interval.has (i : Interval) (d : Decimal) : Bool :=
  let (n, m) := powerOfTen d.place
  let here := d.digits * n <<< (unitScale + 2)
  if i.closed then i.low * m ≤ here && here ≤ i.high * m
  else i.low * m < here && here < i.high * m

/-- The nearest decimal with this last place that leads to the size, if one does. -/
def onGrid? (units : Nat) (place : Int) : Option Decimal :=
  let (n, m) := powerOfTen place
  let size := units * m
  let step := n <<< unitScale
  let below := size / step
  let i := Interval.around units
  let fits (digits : Nat) : Option Decimal := if i.has ⟨digits, place⟩ then some ⟨digits, place⟩ else none
  let nearest := roundQuotient size step
  let other := if nearest == below then below + 1 else below
  fits nearest <|> fits other

def leadingPlace (units : Nat) : Int :=
  let one := 1 <<< unitScale
  if one ≤ units then (digitCount (units / one) : Int) - 1
  else -(digitCount ((one + units - 1) / units - 1) : Int)

def maxDigits : Nat := 17

def shortest (units : Nat) : Decimal :=
  let first := leadingPlace units
  ((List.range maxDigits).findSome? fun (i : Nat) => onGrid? units (first - i)).getD ⟨0, 0⟩

/-- The digits without the zeros at the end, and the place of the first one. -/
def Decimal.leading (d : Decimal) : List Char × Int :=
  let digits := Nat.toDigits 10 d.digits
  ((digits.reverse.dropWhile (· == '0')).reverse, d.place + digits.length - 1)

def zeros (n : Nat) : List Char := List.replicate n '0'

def isPlainPlace (place : Int) : Bool := -5 ≤ place && place ≤ 15

def plainText (digits : List Char) (place : Int) : List Char :=
  let before := (place + 1).toNat
  if place < 0 then '0' :: '.' :: zeros (-place - 1).toNat ++ digits
  else if digits.length ≤ before then digits ++ zeros (before - digits.length) ++ ".0".toList
  else digits.take before ++ '.' :: digits.drop before

def exponentText (digits : List Char) (place : Int) : List Char :=
  let fraction := if digits.length ≤ 1 then [] else '.' :: digits.drop 1
  let sign := if place < 0 then '-' else '+'
  digits.take 1 ++ fraction ++ 'e' :: sign :: Nat.toDigits 10 place.natAbs

def sizeText (units : Nat) : List Char :=
  if units == 0 then "0.0".toList
  else
    let (digits, place) := (shortest units).leading
    if isPlainPlace place then plainText digits place else exponentText digits place

def Double.shown (x : Double) : List Char :=
  if x.negative then '-' :: sizeText x.units else sizeText x.units

end ComponentSite.Number
