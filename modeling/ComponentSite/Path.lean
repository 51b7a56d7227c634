/-
  ComponentSite.Path — file paths as they are written.

  A path keeps its spelling, because messages and listings show it. What it names
  is its list of segments: repeated and trailing slashes and inner `.` pieces are
  no segments, a leading `.` is one. Two spellings with the same segments are one
  path to every look-up (`Path.same`).

  Cutting a path (`parent?`, `relativeTo?`, `withoutExtension`) keeps the spelling
  of the part that stays.
-/
import ComponentSite.Text.Search

namespace ComponentSite

inductive Segment
  | root
  /-- A leading `.`. -/
  | here
  | up
  | name (text : String)
  deriving DecidableEq, Repr

namespace Segment

def text : Segment → String
  | root => "/"
  | here => "."
  | up => ".."
  | name t => t

/-- The step that a piece between slashes stands for, unless it is the first piece. -/
def ofPiece? : List Char → Option Segment
  | [] => none
  | ['.'] => none
  | ['.', '.'] => some up
  | piece => some (name (String.ofList piece))

/-- The step that the first piece stands for. The empty piece before a slash is the root. -/
def ofFirstPiece? (slashFollows : Bool) : List Char → Option Segment
  | [] => if slashFollows then some root else none
  | ['.'] => some here
  | piece => ofPiece? piece

end Segment

structure Path where
  text : String
  deriving DecidableEq, Inhabited, Repr

namespace Path

abbrev Piece := List Char × Option Segment

def pieces (p : Path) : List Piece :=
  match p.text.toList.splitOn '/' with
  | [] => []
  | first :: rest =>
    (first, Segment.ofFirstPiece? (!rest.isEmpty) first) ::
      rest.map fun piece => (piece, Segment.ofPiece? piece)

def ofPieces : List Piece → Path
  | [(_, some .root)] => ⟨"/"⟩
  | pieces => ⟨String.ofList (List.intercalate ['/'] (pieces.map (·.1)))⟩

def segments (p : Path) : List Segment := p.pieces.filterMap (·.2)

/-- Equal step by step, whatever the spelling. -/
def same (p q : Path) : Bool := p.segments == q.segments

def isAbsolute (p : Path) : Bool := p.text.toList.head? == some '/'

def trimPieces (pieces : List Piece) : List Piece :=
  (pieces.reverse.dropWhile (·.2.isNone)).reverse

/-- The folder a path lies in; the root and the empty path lie in none. -/
def parent? (p : Path) : Option Path :=
  match (trimPieces p.pieces).reverse with
  | [] => none
  | (_, some .root) :: _ => none
  | _ :: above => some (ofPieces (trimPieces above.reverse))

/-- `p` seen from the folder `base`. An absolute path is itself from everywhere. -/
def join (base p : Path) : Path :=
  if p.isAbsolute then p
  else if base.text.isEmpty || base.text.toList.getLast? == some '/' then ⟨base.text ++ p.text⟩
  else ⟨base.text ++ "/" ++ p.text⟩

def fileName? (p : Path) : Option String :=
  match p.segments.getLast? with
  | some (.name n) => some n
  | _ => none

/-- A file name cut at its last dot. A dot in front of everything starts no extension. -/
def cutExtension (name : List Char) : List Char × Option (List Char) :=
  match Text.breakOnLast ['.'] name with
  | none => (name, none)
  | some ([], _) => (name, none)
  | some (stem, ext) => (stem, some ext)

def extension? (p : Path) : Option String :=
  p.fileName?.bind fun n => (cutExtension n.toList).2.map String.ofList

/-- The path without the extension of its file name and without what follows the
    name; the path itself when its last segment is no name. -/
def withoutExtension (p : Path) : Path :=
  match (trimPieces p.pieces).reverse with
  | (name, some (.name _)) :: above =>
    ofPieces (above.reverse ++ [((cutExtension name).1, none)])
  | _ => p

def dropSegments : Nat → List Piece → List Piece
  | 0, pieces => pieces
  | _ + 1, [] => []
  | n + 1, (_, none) :: pieces => dropSegments (n + 1) pieces
  | n + 1, (_, some _) :: pieces => dropSegments n pieces

def relativeTo? (p base : Path) : Option Path :=
  let lead := base.segments
  if lead.isPrefixOf p.segments then
    let left := dropSegments lead.length p.pieces
    let left := if lead.isEmpty then left else left.dropWhile (·.2.isNone)
    some (ofPieces (trimPieces left))
  else none

end Path

end ComponentSite
