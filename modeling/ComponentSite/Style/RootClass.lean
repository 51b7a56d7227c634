/-
  ComponentSite.Style.RootClass — the scope class on top-level elements.

  The depth of a piece is the number of elements open before it; void elements and
  self-closing tags open none. An opening tag at depth zero whose name is one of
  the scoped tags gets the class, in its class attribute if it has one and in a new
  one otherwise.
-/
import ComponentSite.Style.Markup
import ComponentSite.Text.Blank
import ComponentSite.Text.Word

namespace ComponentSite.Style
open Text

def voidElements : List String :=
  ["area", "base", "br", "col", "embed", "hr", "img", "input", "link", "meta", "source", "track", "wbr"]

def classValue? (s : List Char) : Option (List Char × List Char) := do
  let s ← rest? "class".toList s
  let s ← rest? ['='] (trimStart s)
  match trimStart s with
  | q :: r =>
    if q == '\x22' || q == '\x27' then breakOn [q] r else none
  | [] => none

/-- The text before the first class attribute, its value, and the text after it.
    The attribute name may follow anything but a word character. -/
def findClass (afterWord : Bool) : List Char → Option (List Char × List Char × List Char)
  | [] => none
  | c :: r =>
    match if afterWord then none else classValue? (c :: r) with
    | some (value, rest) => some ([], value, rest)
    | none => (findClass (isWord c) r).map fun (before, value, rest) => (c :: before, value, rest)

def classAttribute (value : List Char) : List Char := "class=\x22".toList ++ value ++ ['\x22']

def addClass (cls attributes : List Char) : List Char :=
  match findClass false attributes with
  | some (before, value, rest) =>
    let value := if (trim value).isEmpty then cls else value ++ ' ' :: cls
    before ++ classAttribute value ++ rest
  | none => ' ' :: classAttribute cls ++ attributes

def standsAlone (name : List Char) (selfClosing : Bool) : Bool :=
  selfClosing || voidElements.any (·.toList == name)

/-- The text of the pieces, `depth` elements being open before them, with the class
    on the top-level elements among `tags`. -/
def markRoots (cls : List Char) (tags : List (List Char)) : (depth : Nat) → List MarkupPiece → List Char
  | _, [] => []
  | depth, piece :: rest =>
    match piece with
    | .tag false name attributes selfClosing =>
      let below := if standsAlone name selfClosing then depth else depth + 1
      let marked :=
        if depth == 0 && tags.contains name then
          MarkupPiece.tag false name (addClass cls attributes) selfClosing
        else piece
      marked.text ++ markRoots cls tags below rest
    | .tag true .. => piece.text ++ markRoots cls tags (depth - 1) rest
    | _ => piece.text ++ markRoots cls tags depth rest

def markRootElements (cls : List Char) (tags : List (List Char)) (markup : List Char) : List Char :=
  if tags.isEmpty then markup else markRoots cls tags 0 (readPieces markup)

end ComponentSite.Style
