/-
  ComponentSite.Text.Hex — numbers written in hexadecimal digits.
-/

namespace ComponentSite.Text

def hexDigit? (c : Char) : Option Nat :=
  if c.isDigit then some (c.toNat - '0'.toNat)
  else if 'a' ≤ c && c ≤ 'f' then some (c.toNat - 'a'.toNat + 10)
  else if 'A' ≤ c && c ≤ 'F' then some (c.toNat - 'A'.toNat + 10)
  else none

def hexNumber? (digits : List Char) : Option Nat :=
  digits.foldlM (fun n c => (hexDigit? c).map (n * 16 + ·)) 0

def hexField? (n : Nat) (s : List Char) : Option (Nat × List Char) :=
  if s.length < n then none else (hexNumber? (s.take n)).map fun value => (value, s.drop n)

/-- A character other than a surrogate has this code. -/
def charOfCode? (n : Nat) : Option Char :=
  if n.isValidChar then some (Char.ofNat n) else none

end ComponentSite.Text
