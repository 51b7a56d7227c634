/-
  ComponentSite.Style.Selector — bare-tag selectors and their qualification.

  The leading compound of a selector ends at white space or a combinator. It is a
  bare tag if it is a lower-case tag name and, after it, nothing but
  pseudo-classes and pseudo-elements with optional arguments; then the scope class
  is put right after the tag name. Any other selector stays as it is.
-/
import ComponentSite.Text.Blank

namespace ComponentSite.Style
open Text

inductive PseudoState
  | outside
  | colon
  | colons
  | name
  | arguments
  deriving DecidableEq, Repr

def isPseudoNameChar (c : Char) : Bool := c.isAlpha || c == '-'

def PseudoState.next? : PseudoState → Char → Option PseudoState
  | outside, c => if c == ':' then some colon else none
  | colon, c => if c == ':' then some colons else if isPseudoNameChar c then some name else none
  | colons, c => if isPseudoNameChar c then some name else none
  | name, c =>
    if isPseudoNameChar c then some name
    else if c == '(' then some arguments
    else if c == ':' then some colon
    else none
  | arguments, c => if c == ')' then some outside else some arguments

/-- The text is a run of pseudo-classes and pseudo-elements, from `state` on. -/
def isPseudos (state : PseudoState) : List Char → Bool
  | [] => state == .outside || state == .name
  | c :: r =>
    match state.next? c with
    | some state => isPseudos state r
    | none => false

def isTagChar (c : Char) : Bool := c.isLower || c.isDigit || c == '-'

def bareTag? (compound : List Char) : Option (List Char × List Char) :=
  match compound with
  | [] => none
  | c :: _ =>
    let pseudos := compound.dropWhile isTagChar
    if c.isLower && isPseudos .outside pseudos then some (compound.takeWhile isTagChar, pseudos)
    else none

def endsCompound (c : Char) : Bool := isBlank c || c == '>' || c == '+' || c == '~'

/-- The selector with its bare tag qualified by the class, and the tag. -/
def scopeSelector (cls selector : List Char) : List Char × Option (List Char) :=
  let body := trimStart selector
  match bareTag? (body.takeWhile (!endsCompound ·)) with
  | some (tag, pseudos) =>
    (selector.takeWhile isBlank ++ tag ++ '.' :: cls ++ pseudos ++ body.dropWhile (!endsCompound ·),
      some tag)
  | none => (selector, none)

def scopeSelectorList (cls prelude : List Char) : List Char × List (List Char) :=
  let results := (prelude.splitOn ',').map (scopeSelector cls)
  (List.intercalate [','] (results.map (·.1)), results.filterMap (·.2))

end ComponentSite.Style
