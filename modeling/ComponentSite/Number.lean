/-
  ComponentSite.Number — the numbers in the data of templates.

  A number is whole, between the least one of 64 bits with a sign and the greatest
  one without, or a double. It is written in decimal digits with an optional minus
  sign, fraction and exponent (`Written`). Without fraction and exponent it is whole
  if it is in that range, but minus zero is a double.

  A double is read in two steps, and each of them rounds: the digits as far as a word
  of 64 bits can hold them make a double, and that is multiplied or divided by the
  power of ten that is left. So the result may differ in its last digit from the
  double that is nearest to what is written. What is too great for a double is no
  number.
-/
import ComponentSite.Number.Shortest

namespace ComponentSite

inductive Number
  | whole (n : Int)
  | double (x : Number.Double)
  deriving DecidableEq, Repr

namespace Number

def wordLimit : Nat := 0x10000000000000000

/-- The least whole number is minus this one. -/
def signedLimit : Nat := 0x8000000000000000

def digitValue (c : Char) : Nat := c.toNat - '0'.toNat

/-- Appends digits to a number as long as a word can hold it; gives also the digits
    that are left. -/
def appendDigits : Nat → List Char → Nat × List Char
  | n, [] => (n, [])
  | n, c :: r =>
    let next := 10 * n + digitValue c
    if next < wordLimit then appendDigits next r else (n, c :: r)

/-! ## Doubles from decimals -/

/-- The powers of ten that a number is multiplied with or divided by at once. -/
def maxPower : Nat := 308

def powerSize (e : Nat) : Nat := sizeOfNat (Nat.pow 10 e)

def scaledUp? (size e : Nat) : Option Nat :=
  if size == 0 then some 0
  else if maxPower < e then none
  else
    let product := productSize size (powerSize e)
    if product < sizeLimit then some product else none

def scaledDown (size e : Nat) : Nat :=
  if size == 0 then 0
  else if maxPower < e then scaledDown (quotientSize size (powerSize maxPower)) (e - maxPower)
  else quotientSize size (powerSize e)
termination_by e
decreasing_by exact Nat.sub_lt (Nat.lt_of_le_of_lt (Nat.zero_le maxPower) (by assumption)) (by decide)

def scaled? (n : Nat) (e : Int) : Option Nat :=
  if 0 ≤ e then scaledUp? (sizeOfNat n) e.toNat else some (scaledDown (sizeOfNat n) (-e).toNat)

/-! ## Numbers as they are written -/

structure Written where
  negative : Bool
  whole : List Char
  /-- The digits after the point, if there is one. -/
  fraction : Option (List Char)
  exponent : Option Int
  deriving Repr

/-- The number without fraction and exponent, if it is whole. -/
def wholeOf? (negative : Bool) (n : Nat) : Option Number :=
  if !negative then some (.whole n)
  else if 0 < n && n ≤ signedLimit then some (.whole (-n))
  else none

namespace Written

def double? (w : Written) : Option Number :=
  let (n, left) := appendDigits 0 w.whole
  let fraction := w.fraction.getD []
  let (n, unused) := appendDigits n fraction
  let places : Int := (fraction.length - unused.length : Nat)
  (scaled? n (left.length - places + w.exponent.getD 0)).map fun units => .double ⟨w.negative, units⟩

def value? (w : Written) : Option Number :=
  match w.fraction, w.exponent, appendDigits 0 w.whole with
  | none, none, (n, []) => wholeOf? w.negative n <|> w.double?
  | _, _, _ => w.double?

end Written

/-! ## Values -/

def ofNat (n : Nat) : Number := .whole n

def shown : Number → List Char
  | whole n => (toString n).toList
  | double x => x.shown

/-- Neither zero nor so near to it that digits are lost. -/
def isSignificant : Number → Bool
  | whole n => n != 0
  | double x => x.isNormal

/-- Equal numbers; a whole number equals no double. -/
def sameAs : Number → Number → Bool
  | whole m, whole n => m == n
  | double x, double y => x.sameAs y
  | _, _ => false

def nat? : Number → Option Nat
  | whole n => if 0 ≤ n then some n.toNat else none
  | double _ => none

def int? : Number → Option Int
  | whole n => if n < signedLimit then some n else none
  | double _ => none

end Number

end ComponentSite
