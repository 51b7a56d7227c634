/-
  ComponentSite.CustomElement — the custom element a component is wrapped in.

  Tag and class name come from the path of the source below the app folder,
  without its extension: letters are lowered, and whatever is then no ASCII letter
  or digit becomes a dash.
-/
import ComponentSite.Path
import ComponentSite.Text.PascalCase

namespace ComponentSite

structure CustomElement where
  tag : String
  className : String
  deriving DecidableEq, Repr

namespace CustomElement

/-- What a character of the path becomes. Beyond ASCII, two characters have an ASCII
    letter in their lower case: the Kelvin sign and the dotted capital I, which
    lowers to an `i` and a combining dot. -/
def tagChars (c : Char) : List Char :=
  if c.isAlphanum then [c.toLower]
  else if c.toNat == 0x212A then ['k']
  else if c.toNat == 0x130 then ['i', '-']
  else ['-']

def isDash (c : Char) : Bool := c == '-'

def trimDashes (s : List Char) : List Char :=
  ((s.dropWhile isDash).reverse.dropWhile isDash).reverse

def forPath (path appDir : Path) : CustomElement :=
  let stem := ((path.relativeTo? appDir).getD path).withoutExtension
  let tag := "goo-" ++ String.ofList (trimDashes (stem.text.toList.flatMap tagChars))
  ⟨tag, Text.pascalCase tag⟩

/-- A class that runs the script when an element is made, and its registration. -/
def wrapScript (e : CustomElement) (script : String) : String :=
  "class " ++ e.className ++ " extends HTMLElement \x7b\nstatic observedAttributes = [\x22name\x22];\n\n" ++
    "constructor() \x7b\nsuper();\n\n" ++ script ++ "\n\x7d\n\x7d\n\n" ++
    "customElements.define(\x22" ++ e.tag ++ "\x22, " ++ e.className ++ ");"

def wrapMarkup (e : CustomElement) (markup : String) : String :=
  "<" ++ e.tag ++ ">\n" ++ markup ++ "\n</" ++ e.tag ++ ">"

end CustomElement

end ComponentSite
