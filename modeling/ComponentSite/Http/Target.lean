/-
  ComponentSite.Http.Target — what a request asks for.

  A target is a path with an optional query, alone or after a scheme and an
  authority. A fragment counts for nothing. An authority alone, and a star, name no
  path of a site.

  Controls, the space, `<` and `>` stand nowhere, a grave accent not in a path and a
  double quote not in a query. Characters beyond ASCII may stand in both.
-/
import ComponentSite.Text.Search

namespace ComponentSite.Http
open Text

structure Target where
  /-- The path as it is written, percent codes included. -/
  path : String
  query : Option String := none
  deriving DecidableEq, Repr

namespace Target

/-! ## Path and query -/

def isVisible (c : Char) : Bool := 0x21 ≤ c.toNat && c != '\x7f'

def isPathChar (c : Char) : Bool :=
  isVisible c && c != '<' && c != '>' && c != '\x60' && c != '?' && c != '#'

def isQueryChar (c : Char) : Bool :=
  isVisible c && c != '"' && c != '<' && c != '>' && c != '#'

def endsPath (c : Char) : Bool := c == '?' || c == '#'

/-- A path and what follows it. An empty path is the root. -/
def pathAndQuery? (s : List Char) : Option Target :=
  let path := s.takeWhile (!endsPath ·)
  let named := String.ofList (if path.isEmpty then ['/'] else path)
  if !path.all isPathChar then none
  else match s.dropWhile (!endsPath ·) with
    | '?' :: r =>
      let query := r.takeWhile (· != '#')
      if query.all isQueryChar then some ⟨named, some (String.ofList query)⟩ else none
    | _ => some ⟨named, none⟩

/-! ## Authority -/

/-- What was seen of an authority. What stands before the last `@` or in brackets is
    no part of the host, so colons and percent signs there are forgotten. -/
structure Seen where
  colons : Nat := 0
  percent : Bool := false
  opened : Bool := false
  closed : Bool := false

def isAuthorityChar (c : Char) : Bool :=
  c.isAlphanum || "!$&'()*+,-.;=_~".toList.contains c

def Seen.next (s : Seen) (c : Char) : Option Seen :=
  if c == ':' then
    if s.colons ≥ 8 then none else some { s with colons := s.colons + 1 }
  else if c == '[' then
    if s.percent || s.opened then none else some { s with opened := true }
  else if c == ']' then
    if !s.opened || s.closed then none
    else some { s with closed := true, colons := 0, percent := false }
  else if c == '@' then some { s with colons := 0, percent := false }
  else if c == '%' then some { s with percent := true }
  else if isAuthorityChar c then some s
  else none

def isAuthority (s : List Char) : Bool :=
  match s.foldlM Seen.next {} with
  | none => false
  | some seen =>
    !s.isEmpty && seen.opened == seen.closed && seen.colons ≤ 1 && !seen.percent &&
      s.getLast? != some '@'

/-! ## Scheme -/

def isSchemeChar (c : Char) : Bool :=
  c.isAlphanum || c == '+' || c == '-' || c == '.' || c == '~'

def maxSchemeSize : Nat := 64

def scheme? (s : List Char) : Option (List Char × List Char) :=
  (rest? "://".toList (s.dropWhile isSchemeChar)).map fun r => (s.takeWhile isSchemeChar, r)

/-! ## Targets -/

def maxBytes : Nat := 65534

def endsAuthority (c : Char) : Bool := c == '/' || endsPath c

def parse? (text : String) : Option Target :=
  if text.utf8ByteSize > maxBytes then none
  else
    let s := text.toList
    match s with
    | '/' :: _ => pathAndQuery? s
    | ['*'] => some ⟨"*", none⟩
    | _ =>
      match scheme? s with
      | some (scheme, r) =>
        if scheme.length ≤ maxSchemeSize && isAuthority (r.takeWhile (!endsAuthority ·)) then
          pathAndQuery? (r.dropWhile (!endsAuthority ·))
        else none
      | none => if isAuthority s then some ⟨"", none⟩ else none

end Target

end ComponentSite.Http
