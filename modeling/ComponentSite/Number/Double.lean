/-
  ComponentSite.Number.Double — numbers of 53 binary digits.

  A size is counted in units, the least positive double of 64 bits, which is
  2⁻¹⁰⁷⁴. So every size is a natural number. One with more than 53 binary digits ends
  in zeros from there on, and there are none from 2¹⁰²⁴ on. What an operation gives is
  its exact value rounded to the nearest size; of two as near it is the one whose last
  digit is even.
-/

namespace ComponentSite.Number

/-- A double: its sign, which zero has as well, and its size in units. -/
structure Double where
  negative : Bool
  units : Nat
  deriving DecidableEq, Repr

def precision : Nat := 53

/-- One has two to the power of this many units. -/
def unitScale : Nat := 1074

def sizeLimit : Nat := 1 <<< (1024 + unitScale)

def leastNormal : Nat := 1 <<< (precision - 1)

/-- A quotient rounded to the nearest number, of two as near to the even one. -/
def roundQuotient (n d : Nat) : Nat :=
  let q := n / d
  match compare (2 * (n % d)) d with
  | .lt => q
  | .eq => q + q % 2
  | .gt => q + 1

/-- How many binary digits of this number of units a size cannot have. -/
def spareDigits (units : Nat) : Nat := units.log2 + 1 - precision

def nearestSize (n d : Nat) : Nat :=
  let spare := spareDigits (n / d)
  roundQuotient n (d <<< spare) <<< spare

def sizeOfNat (n : Nat) : Nat := nearestSize (n <<< unitScale) 1

def productSize (a b : Nat) : Nat := nearestSize (a * b) (1 <<< unitScale)

def quotientSize (a b : Nat) : Nat := nearestSize (a <<< unitScale) b

namespace Double

def isZero (x : Double) : Bool := x.units == 0

def isNormal (x : Double) : Bool := leastNormal ≤ x.units

/-- Equal as numbers: both zeros are. -/
def sameAs (x y : Double) : Bool :=
  x.units == y.units && (x.negative == y.negative || x.isZero)

end Double

end ComponentSite.Number
