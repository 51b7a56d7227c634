/-
  ComponentSite.Text.Quoted — text in double quotes, as messages show paths.

  The quote and the backslash take a backslash, five control characters their
  letter, every other hidden character its code point in hexadecimal. An
  apostrophe needs nothing.
-/
import ComponentSite.Text.Printable

namespace ComponentSite.Text

def quotedChar (c : Char) : List Char :=
  if c = '\x22' then ['\\', '\x22']
  else if c = '\\' then ['\\', '\\']
  else if c = '\n' then ['\\', 'n']
  else if c = '\r' then ['\\', 'r']
  else if c = '\t' then ['\\', 't']
  else if c.toNat = 0 then ['\\', '0']
  else if isPrintable c then [c]
  else ['\\', 'u', '\x7b'] ++ Nat.toDigits 16 c.toNat ++ ['\x7d']

def quoted (s : String) : String :=
  String.ofList (['\x22'] ++ s.toList.flatMap quotedChar ++ ['\x22'])

end ComponentSite.Text
