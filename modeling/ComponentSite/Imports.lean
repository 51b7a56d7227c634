/-
  ComponentSite.Imports — the component imports of a script.

  A script is read line by line. A line that is the word `import`, a clause, the
  word `from` and a quoted path, optionally with a semicolon and a comment, imports
  a component if the path has the component extension. It is taken out of the
  script, and the capitalised names its clause binds are the names the component has
  in markup. Every other line stays, whatever it imports.

  The clause is the shortest text after which the rest of the line has the form
  above (`splitClause`), so a clause may hold the word `from` only where no path
  follows it.
-/
import ComponentSite.Error
import ComponentSite.Text.Blank

namespace ComponentSite

/-- A component import: the path as written, and the names bound, in source order. -/
structure ImportReference where
  raw : String
  names : List String
  deriving DecidableEq, Repr

/-- The name the component has in the markup of its importer. -/
def ImportReference.displayName (i : ImportReference) : String := i.names.headD ""

structure ScannedScript where
  cleaned : String
  imports : List ImportReference
  deriving DecidableEq, Repr

namespace Imports
open Text

def isQuote (c : Char) : Bool := c == '\x27' || c == '\x22'

/-- A comment that ends the line: `//` and anything, or a closed `/* */` and white space. -/
def isClosingComment (s : List Char) : Bool :=
  match s with
  | '/' :: '/' :: _ => true
  | '/' :: '*' :: body => "*/".toList.isSuffixOf (trimEnd body)
  | _ => false

/-- What may follow the path: a semicolon, then a comment, each optional. -/
def endsLine (s : List Char) : Bool :=
  let s := trimStart s
  let s := match s with
    | ';' :: r => trimStart r
    | _ => s
  s.isEmpty || isClosingComment s

def quotedPath? : List Char → Option (List Char)
  | [] => none
  | q :: r =>
    if isQuote q then
      let path := r.takeWhile fun c => !isQuote c
      match r.dropWhile fun c => !isQuote c with
      | _ :: after => if !path.isEmpty && endsLine after then some path else none
      | [] => none
    else none

def afterBlank? : List Char → Option (List Char)
  | c :: r => if isBlank c then some (trimStart r) else none
  | [] => none

def fromPath? (s : List Char) : Option (List Char) := do
  let s ← rest? "from".toList s
  let s ← afterBlank? s
  quotedPath? s

/-- The shortest clause of at least one character before white space and a path. -/
def splitClause : List Char → Option (List Char × List Char)
  | [] => none
  | c :: r =>
    match (afterBlank? r).bind fromPath? with
    | some path => some ([c], path)
    | none => (splitClause r).map fun (clause, path) => (c :: clause, path)

/-- The clause and the path of an import line. Where no clause stands between
    `import` and `from`, one of three or more blanks there counts as the clause. -/
def splitLine (line : List Char) : Option (List Char × List Char) := do
  let s ← rest? "import".toList (trimStart line)
  let body ← afterBlank? s
  let blanks := s.takeWhile isBlank
  match splitClause body, blanks with
  | some found, _ => some found
  | none, _ :: clause :: _ :: _ => (fromPath? body).map fun path => ([clause], path)
  | none, _ => none

/-- A capital letter, then letters, digits, `_` and `$`, all of them ASCII. -/
def isComponentName : List Char → Bool
  | [] => false
  | c :: r => c.isUpper && r.all fun d => d.isAlphanum || d == '_' || d == '$'

/-- The name that one item of a clause binds: what follows its last ` as `, if any. -/
def localName (item : List Char) : List Char :=
  match breakOnLast " as ".toList item with
  | some (_, name) => trim name
  | none => item

def boundNames (clause : List Char) : List String :=
  let items := clause.splitOnP fun c => c == ',' || c == '\x7b' || c == '\x7d'
  let items := (items.map trim).filter (!·.isEmpty)
  ((items.map localName).filter isComponentName).map String.ofList

inductive Line
  | kept
  | component (reference : ImportReference)
  | unnamed (raw : String)
  deriving DecidableEq, Repr

def classify (extension : String) (line : List Char) : Line :=
  match splitLine line with
  | none => .kept
  | some (clause, path) =>
    let raw := String.ofList path
    if (Path.mk raw).extension? == some extension then
      match boundNames clause with
      | [] => .unnamed raw
      | names => .component ⟨raw, names⟩
    else .kept

/-- The lines that stay and the imports, in order; a fault at the first import that
    binds no component name. -/
def scanLines (extension : String) :
    List (List Char) → Except Malformation (List (List Char) × List ImportReference)
  | [] => .ok ([], [])
  | line :: rest =>
    match classify extension line with
    | .unnamed raw => .error (.unnamedImport raw)
    | .kept => (scanLines extension rest).map fun (kept, imports) => (line :: kept, imports)
    | .component i => (scanLines extension rest).map fun (kept, imports) => (kept, i :: imports)

def scan (extension script : String) (path : Path) : Except SiteError ScannedScript :=
  match scanLines extension (lines script.toList) with
  | .ok (kept, imports) => .ok ⟨String.ofList (trim (List.intercalate ['\n'] kept)), imports⟩
  | .error fault => .error (.malformedSource path fault)

end Imports

end ComponentSite
