/-
  ComponentSite.Http.Pattern — route paths as patterns of request paths.

  In a route path `{name}` stands for any text up to the next slash and `{*name}`, at
  the end, for any text. At the end neither stands for nothing, but before more of the
  route a name does. Doubled braces are braces. All else stands for itself, a slash at
  the end too.

  Of several patterns that match, the one counts whose first difference is the more
  definite: a character before a name, a name before the rest.

  A router refuses some route paths before it serves anything, and the program ends: a
  segment that starts with `:` or `*`, a brace that closes nothing or is not closed, and
  two paths that conflict. This is left out. Here such a text stands for itself, and of
  two paths that cannot be told apart the one that is listed first is taken.
-/
import ComponentSite.Text.Search

namespace ComponentSite.Http
open Text

inductive PatternPart
  | char (c : Char)
  /-- Any text up to the next slash. -/
  | segment
  /-- Any text. -/
  | rest
  deriving DecidableEq, Repr

abbrev Pattern := List PatternPart

namespace Pattern

/-- Reads a route path. A brace that closes nothing is itself. -/
def ofChars : (fuel : Nat) → List Char → Pattern
  | 0, _ => []
  | _ + 1, [] => []
  | fuel + 1, '{' :: '{' :: r => .char '{' :: ofChars fuel r
  | fuel + 1, '}' :: '}' :: r => .char '}' :: ofChars fuel r
  | fuel + 1, '{' :: r =>
    match breakOn ['}'] r with
    | some ('*' :: _, r) => .rest :: ofChars fuel r
    | some (_, r) => .segment :: ofChars fuel r
    | none => .char '{' :: ofChars fuel r
  | fuel + 1, c :: r => .char c :: ofChars fuel r

def ofPath (path : String) : Pattern := ofChars path.toList.length path.toList

def isMatch : Pattern → List Char → Bool
  | [], s => s.isEmpty
  | .char c :: ps, s =>
    match s with
    | d :: r => c == d && isMatch ps r
    | [] => false
  | .segment :: ps, s =>
    !((s.takeWhile (· != '/')).isEmpty && ps.isEmpty) && isMatch ps (s.dropWhile (· != '/'))
  | .rest :: _, s => !s.isEmpty

def rank : PatternPart → Nat
  | .char _ => 0
  | .segment => 1
  | .rest => 2

/-- Whether the first difference makes the first of two patterns the more definite. -/
def isBefore : Pattern → Pattern → Bool
  | p :: ps, q :: qs => if rank p == rank q then isBefore ps qs else rank p < rank q
  | _, _ => false

def best? {α : Type} (pathOf : α → String) (path : String) (candidates : List α) : Option α :=
  let found := candidates.filter fun a => (ofPath (pathOf a)).isMatch path.toList
  found.foldl (fun best a =>
    match best with
    | none => some a
    | some b => if (ofPath (pathOf a)).isBefore (ofPath (pathOf b)) then some a else some b) none

end Pattern

end ComponentSite.Http
