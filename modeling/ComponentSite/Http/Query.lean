/-
  ComponentSite.Http.Query — the fields of a query.

  Fields are separated by ampersands, empty ones count for nothing, and a name ends
  at the first equals sign. In names and values a plus is a space and a percent sign
  with two hexadecimal digits is a byte; a percent sign without them is itself.
-/
import ComponentSite.Text.Hex
import ComponentSite.Text.Search
import ComponentSite.Text.Utf8

namespace ComponentSite.Http.Query
open Text

def hexByte? (a b : UInt8) : Option UInt8 := do
  let high ← hexDigit? (Char.ofNat a.toNat)
  let low ← hexDigit? (Char.ofNat b.toNat)
  return UInt8.ofNat (high * 16 + low)

def percentDecoded : List UInt8 → List UInt8
  | 37 :: a :: b :: r =>
    match hexByte? a b with
    | some byte => byte :: percentDecoded r
    | none => 37 :: percentDecoded (a :: b :: r)
  | byte :: r => byte :: percentDecoded r
  | [] => []

def decoded (s : List Char) : String :=
  let spaced := s.map fun c => if c == '+' then ' ' else c
  String.ofList (Utf8.decode (percentDecoded (Utf8.encode spaced)))

/-- A field with its name and value; without an equals sign the value is empty. -/
def field (piece : List Char) : String × String :=
  match breakOn ['='] piece with
  | some (name, v) => (decoded name, decoded v)
  | none => (decoded piece, "")

def fields (query : String) : List (String × String) :=
  ((query.toList.splitOn '&').filter (!·.isEmpty)).map field

end ComponentSite.Http.Query
