/-
  ComponentSite.Text.Utf8 — text as bytes.

  `decode` reads any bytes. Where they are no text it gives one replacement character
  for each longest run that begins a character but does not finish it, and one for
  each byte that begins none.
-/

namespace ComponentSite.Text.Utf8

def encode (s : List Char) : List UInt8 := (String.ofList s).toUTF8.toList

def replacement : Char := '\uFFFD'

/-- A character that has begun: the range of its next byte, how many bytes are still
    to come, and the bits so far. -/
structure Begun where
  low : Nat := 0x80
  high : Nat := 0xbf
  missing : Nat
  bits : Nat

def begin (b : UInt8) : List Char × Option Begun :=
  let n := b.toNat
  if n < 0x80 then ([Char.ofNat n], none)
  else if n < 0xc2 then ([replacement], none)
  else if n < 0xe0 then ([], some { missing := 1, bits := n % 0x20 })
  else if n == 0xe0 then ([], some { low := 0xa0, missing := 2, bits := 0 })
  else if n == 0xed then ([], some { high := 0x9f, missing := 2, bits := 0xd })
  else if n < 0xf0 then ([], some { missing := 2, bits := n % 0x10 })
  else if n == 0xf0 then ([], some { low := 0x90, missing := 3, bits := 0 })
  else if n < 0xf4 then ([], some { missing := 3, bits := n % 0x08 })
  else if n == 0xf4 then ([], some { high := 0x8f, missing := 3, bits := 4 })
  else ([replacement], none)

/-- The characters that a byte finishes, and the one that has begun after it. -/
def step (begun : Option Begun) (b : UInt8) : List Char × Option Begun :=
  match begun with
  | none => begin b
  | some c =>
    if c.low ≤ b.toNat && b.toNat ≤ c.high then
      let bits := c.bits * 0x40 + b.toNat % 0x40
      if c.missing ≤ 1 then ([Char.ofNat bits], none)
      else ([], some { missing := c.missing - 1, bits })
    else
      let (done, begun) := begin b
      (replacement :: done, begun)

def decodeFrom : Option Begun → List UInt8 → List Char
  | none, [] => []
  | some _, [] => [replacement]
  | begun, b :: r =>
    let (done, begun) := step begun b
    done ++ decodeFrom begun r

def decode (bytes : List UInt8) : List Char := decodeFrom none bytes

end ComponentSite.Text.Utf8
