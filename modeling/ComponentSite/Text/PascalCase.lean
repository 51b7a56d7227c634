/-
  ComponentSite.Text.PascalCase — names in capitalised words.

  Only ASCII letters and digits stay, in order. A letter is raised at the start,
  after a digit and after a separator (`_`, space, `-`, `.`), and lowered right
  after a capital. Any other character vanishes; the letter after it is kept as it
  is.
-/
import ComponentSite.Text.Blank

namespace ComponentSite.Text

def isSeparator (c : Char) : Bool := c == '_' || c == ' ' || c == '-' || c == '.'

/-- `raise`: the next letter starts a word. `afterCapital`: the character before was
    a capital. -/
def pascalFrom (raise afterCapital : Bool) : List Char → List Char
  | [] => []
  | c :: r =>
    if c.isAlpha then
      let d := if raise then c.toUpper else if afterCapital then c.toLower else c
      d :: pascalFrom false c.isUpper r
    else if c.isDigit then c :: pascalFrom true false r
    else pascalFrom (isSeparator c) false r

def pascalCase (s : String) : String := String.ofList (pascalFrom true false (trim s.toList))

end ComponentSite.Text
