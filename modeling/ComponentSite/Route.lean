/-
  ComponentSite.Route — the pages of a site and their addresses.

  Every file below the app folder that is named like the entry page is a page; its
  address is the folder it lies in, seen from the app folder. Links are followed. A
  link to a folder that is being listed already is left out, so a listing ends; so
  is what cannot be read.

  The listing takes one unit of `depth` for each folder on the way down. Each of them
  makes the path longer, and a path of more than `FileTree.maxPathBytes` bytes leads
  nowhere, so that many units are enough.
-/
import ComponentSite.FileTree

namespace ComponentSite

structure Route where
  /-- The address, `/` for the entry page. -/
  path : String
  source : Path
  deriving DecidableEq, Repr

namespace Route

/-- The address of a page: its folder relative to the app folder. A page that does
    not lie below the app folder has the address `/`. -/
def pathOf (appDir page : Path) : String :=
  let folder := (page.parent?.bind (·.relativeTo? appDir)).getD ⟨""⟩
  "/" ++ String.intercalate "/" (folder.segments.map Segment.text)

def isLoop (files : FileTree) (above : List Location) (location : Location) (path : Path) : Bool :=
  match files.entry? location, files.resolve path with
  | some (.link _), .ok target => above.contains target
  | _, _ => false

/-- The files at and below a path, as that path spells them. `above` are the folders
    being listed. A folder tells which of its entries are files, so no path to these is
    walked, however long it is. -/
def filesBelow (files : FileTree) : (depth : Nat) → (above : List Location) → Path → List Path
  | 0, _, _ => []
  | depth + 1, above, path =>
    match files.resolve path with
    | .ok here =>
      match files.entry? here with
      | some (.file ..) => [path]
      | some (.folder _) =>
        (files.namesIn here).flatMap fun name =>
          let child := path.join ⟨name⟩
          match files.entry? (here ++ [name]) with
          | some (.file ..) => [child]
          | _ =>
            if isLoop files (here :: above) (here ++ [name]) child then []
            else filesBelow files depth (here :: above) child
      | _ => []
    | .error _ => []

def discover (files : FileTree) (appDir : Path) (entryFile : String) : List Route :=
  let pages := (filesBelow files FileTree.maxPathBytes [] appDir).filter (·.fileName? == some entryFile)
  (pages.map fun page => { path := pathOf appDir page, source := page }).mergeSort
    fun a b => decide (a.path ≤ b.path)

end Route

end ComponentSite
