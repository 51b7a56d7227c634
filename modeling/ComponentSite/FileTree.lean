/-
  ComponentSite.FileTree — the files of a project, as a value.

  A tree is a finite table from locations (the names from the root down) to
  entries, and the folder in which relative paths start. `resolve` walks a path
  through it: a name needs a folder to stand in, `..` leaves the folder the walk
  is in and stays at the root, and a link continues at its target, at most forty
  times.

  A file's content is its text, or nothing when its bytes are no text. Times are
  whole seconds. A folder has a time only while it was set and nothing was added
  to it or taken from it since.
-/
import ComponentSite.Path

namespace ComponentSite

inductive ReadFailure
  | notFound
  | isFolder
  | notAFolder
  | tooManyLinks
  | nameTooLong
  | nulInName
  | notText
  deriving DecidableEq, Repr

def ReadFailure.message : ReadFailure → String
  | notFound => "No such file or directory (os error 2)"
  | isFolder => "Is a directory (os error 21)"
  | notAFolder => "Not a directory (os error 20)"
  | tooManyLinks => "Too many levels of symbolic links (os error 40)"
  | nameTooLong => "File name too long (os error 36)"
  | nulInName => "file name contained an unexpected NUL byte"
  | notText => "stream did not contain valid UTF-8"

inductive Entry
  | file (text : Option String) (modified : Int)
  | folder (modified : Option Int)
  | link (target : Path)
  deriving DecidableEq, Repr

/-- The names from the root down; none for the root itself. -/
abbrev Location := List String

structure FileTree where
  entries : List (Location × Entry)
  /-- The folder in which relative paths start. -/
  start : Location := []
  deriving Repr

namespace FileTree

/-- Nothing but the folders down to the start folder. -/
def startingAt (start : Location) : FileTree :=
  { entries := (List.range start.length).map fun n => (start.take (n + 1), .folder none), start }

def empty : FileTree := startingAt ["home"]

def entry? (t : FileTree) (location : Location) : Option Entry :=
  if location.isEmpty then some (.folder none)
  else (t.entries.find? (·.1 == location)).map (·.2)

def isFolderAt (t : FileTree) (location : Location) : Bool := (t.entry? location) matches some (.folder _)

/-! ## Walking a path -/

def maxLinks : Nat := 40
def maxNameBytes : Nat := 255
def maxPathBytes : Nat := 4095

def steps (p : Path) : List (Option Segment) := p.pieces.map (·.2)

/-- Walks along the steps; `follow` goes on from a link. If `creates`, no entry need
    have the last name. -/
def walkWith (t : FileTree) (creates : Bool)
    (follow : Location → List (Option Segment) → Except ReadFailure Location) :
    Location → List (Option Segment) → Except ReadFailure Location
  | here, [] => .ok here
  | _, some .root :: rest => walkWith t creates follow [] rest
  | here, some (.name n) :: rest =>
    if !t.isFolderAt here then .error .notAFolder
    else if n.utf8ByteSize > maxNameBytes then .error .nameTooLong
    else match t.entry? (here ++ [n]) with
      | none => if creates && rest.isEmpty then .ok (here ++ [n]) else .error .notFound
      | some (.link target) => follow here (steps target ++ rest)
      | some _ => walkWith t creates follow (here ++ [n]) rest
  | here, some .up :: rest =>
    if t.isFolderAt here then walkWith t creates follow here.dropLast rest else .error .notAFolder
  | here, _ :: rest =>
    if t.isFolderAt here then walkWith t creates follow here rest else .error .notAFolder

def walk (t : FileTree) (creates : Bool) :
    (links : Nat) → Location → List (Option Segment) → Except ReadFailure Location
  | 0 => walkWith t creates fun _ _ => .error .tooManyLinks
  | links + 1 => walkWith t creates (walk t creates links)

def walkPath (t : FileTree) (creates : Bool) (p : Path) : Except ReadFailure Location :=
  if p.text.toList.any (·.toNat == 0) then .error .nulInName
  else if p.text.isEmpty then .error .notFound
  else if p.text.utf8ByteSize > maxPathBytes then .error .nameTooLong
  else t.walk creates maxLinks t.start (steps p)

def resolve (t : FileTree) (p : Path) : Except ReadFailure Location := t.walkPath false p

/-- Where a file is created at a path: where the path leads, though nothing need be
    there yet. -/
def resolveNew (t : FileTree) (p : Path) : Except ReadFailure Location := t.walkPath true p

/-- The entry a path leads to, links followed. -/
def lookup (t : FileTree) (p : Path) : Except ReadFailure Entry :=
  (t.resolve p).bind fun location =>
    match t.entry? location with
    | some e => .ok e
    | none => .error .notFound

def read (t : FileTree) (p : Path) : Except ReadFailure (String × Int) :=
  (t.lookup p).bind fun
    | .file (some text) modified => .ok (text, modified)
    | .file none _ => .error .notText
    | _ => .error .isFolder

def isFile (t : FileTree) (p : Path) : Bool := (t.lookup p) matches .ok (.file ..)

def isFolder (t : FileTree) (p : Path) : Bool := (t.lookup p) matches .ok (.folder _)

def modified? (t : FileTree) (p : Path) : Option Int :=
  match t.lookup p with
  | .ok (.file _ modified) => some modified
  | .ok (.folder modified) => modified
  | _ => none

def namesIn (t : FileTree) (location : Location) : List String :=
  t.entries.filterMap fun (l, _) =>
    if l.dropLast == location then l.getLast? else none

/-! ## Changing files -/

/-- A folder whose names changed has a new, unknown time. -/
def forgetTime (t : FileTree) (location : Location) : FileTree :=
  { t with
    entries := t.entries.map fun
      | (l, .folder m) => (l, .folder (if l == location then none else m))
      | other => other }

def set (t : FileTree) (location : Location) (e : Entry) : FileTree :=
  if (t.entry? location).isSome then
    { t with entries := t.entries.map fun (l, old) => (l, if l == location then e else old) }
  else { t with entries := (t.forgetTime location.dropLast).entries ++ [(location, e)] }

/-- The location a path names, its last name itself not followed. -/
def locationOf? (t : FileTree) (p : Path) : Option Location := do
  let name ← p.fileName?
  let folder ← p.parent?
  let place := if folder.text.isEmpty then .ok t.start else t.resolve folder
  match place with
  | .ok location => if t.isFolderAt location then some (location ++ [name]) else none
  | .error _ => none

/-- Creates a folder where the path leads nowhere yet. -/
def addFolder (t : FileTree) (p : Path) : FileTree :=
  match t.resolve p, t.locationOf? p with
  | .error .notFound, some location => t.set location (.folder none)
  | _, _ => t

def addFolders (t : FileTree) (segments : List Segment) : FileTree :=
  (List.range segments.length).foldl
    (fun t n => t.addFolder (Path.ofPieces ((segments.take (n + 1)).map fun s => (s.text.toList, some s)))) t

def createFolder (t : FileTree) (p : Path) : FileTree := t.addFolders p.segments

/-- Puts an entry at `p`, creating the folders above. It goes where links lead. -/
def create (t : FileTree) (p : Path) (e : Entry) : FileTree :=
  let t := t.addFolders p.segments.dropLast
  match t.resolveNew p, t.locationOf? p with
  | .ok location, _ => t.set location e
  | .error _, some location => t.set location e
  | .error _, none => t

def writeFile (t : FileTree) (p : Path) (text : Option String) (modified : Int) : FileTree :=
  t.create p (.file text modified)

def touch (t : FileTree) (p : Path) (modified : Int) : FileTree :=
  match t.resolve p with
  | .ok location =>
    match t.entry? location with
    | some (.file text _) => t.set location (.file text modified)
    | some (.folder _) => t.set location (.folder (some modified))
    | _ => t
  | .error _ => t

/-- Takes away what is at `p`, with everything below it. -/
def remove (t : FileTree) (p : Path) : FileTree :=
  match t.locationOf? p with
  | none => t
  | some location =>
    if (t.entry? location).isSome then
      { t with entries := (t.forgetTime location.dropLast).entries.filter fun (l, _) => !location.isPrefixOf l }
    else t

end FileTree

end ComponentSite
