/-
  ComponentSite.Layout — the layout of a site, with the places for a page's
  fragments.

  An insertion point is a partial block without content, so a fragment that does
  not exist leaves nothing. Styles go before the end of the head, the content of
  the page after the start of the body, scripts before the last end of the body.
  Each anchor is looked for in the text as the insertion before left it; where it
  is missing the styles come first, content and scripts last.
-/
import ComponentSite.Component
import ComponentSite.Text.Word

namespace ComponentSite.Layout
open Text

def insertionPoint (kind : FragmentKind) (scopeClass : String) : String :=
  let name := kind.nameFor scopeClass
  "\x7b\x7b#> " ++ name ++ "\x7d\x7d\x7b\x7b/" ++ name ++ "\x7d\x7d"

/-- What follows `lead` when the text starts with it in any letter case. -/
def restAnyCase? (lead s : List Char) : Option (List Char) :=
  if (s.take lead.length).map Char.toLower == lead then some (s.drop lead.length) else none

def closingTag? (name : String) (s : List Char) : Option (List Char × List Char) := do
  let after ← restAnyCase? ("</".toList ++ name.toList) s
  let rest ← rest? ['>'] (trimStart after)
  return (s.take (s.length - rest.length), rest)

def bodyTag? (s : List Char) : Option (List Char × List Char) := do
  let after ← restAnyCase? "<body".toList s
  if (after.head?.map isWord).getD false then none
  else match after.dropWhile (· != '>') with
    | _ :: rest => some (s.take (s.length - rest.length), rest)
    | [] => none

/-- The text before the first match, the match, and the text after it. -/
def cutFirst (pattern? : List Char → Option (List Char × List Char)) :
    List Char → Option (List Char × List Char × List Char)
  | [] => none
  | c :: r =>
    match pattern? (c :: r) with
    | some (found, rest) => some ([], found, rest)
    | none => (cutFirst pattern? r).map fun (before, found, rest) => (c :: before, found, rest)

def cutLast (pattern? : List Char → Option (List Char × List Char)) :
    List Char → Option (List Char × List Char × List Char)
  | [] => none
  | c :: r =>
    match cutLast pattern? r with
    | some (before, found, rest) => some (c :: before, found, rest)
    | none => (pattern? (c :: r)).map fun (found, rest) => ([], found, rest)

/-- Puts `styles` before the end of the head, or in front of everything. -/
def insertStyles (styles layout : List Char) : List Char :=
  match cutFirst (closingTag? "head") layout with
  | some (before, found, rest) => before ++ styles ++ found ++ rest
  | none => styles ++ layout

/-- Puts `content` on a new line after the start of the body, or after everything. -/
def insertContent (content layout : List Char) : List Char :=
  match cutFirst bodyTag? layout with
  | some (before, found, rest) => before ++ found ++ '\n' :: content ++ rest
  | none => layout ++ '\n' :: content

/-- Puts `scripts` before the last end of the body, or on a new line after everything. -/
def insertScripts (scripts layout : List Char) : List Char :=
  match cutLast (closingTag? "body") layout with
  | some (before, found, rest) => before ++ scripts ++ found ++ rest
  | none => layout ++ '\n' :: scripts

def pointLines (kind : FragmentKind) (classes : List String) : String :=
  String.join (classes.map fun scopeClass => insertionPoint kind scopeClass ++ "\n")

def withPoints (layout pageClass : String) (classes : List String) : String :=
  let owners := pageClass :: classes
  let text := insertStyles (pointLines .style owners).toList layout.toList
  let text := insertContent (pointLines .content [pageClass]).toList text
  let text := insertScripts (pointLines .script owners).toList text
  String.ofList text

def augment (layout : String) (page : Component) (flat : List Component) : String :=
  withPoints layout page.scopeClass (flat.map (·.scopeClass))

end ComponentSite.Layout
