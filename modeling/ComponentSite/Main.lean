/-
  ComponentSite.Main — the program on the command line.

  It reads the files below the current folder, runs the command line on them, and
  writes the outcome.
-/
import ComponentSite.CommandLine

namespace ComponentSite.Main

/-- The entry of a file: its text, unless its bytes are none, and its time. -/
def fileEntry (content : ByteArray) (modified : Int) : Entry :=
  .file (String.fromUTF8? content) modified

def linkTarget (source target : Location) : Path :=
  ⟨String.intercalate "/" (source.dropLast.map (fun _ => "..") ++ target)⟩

/-- Where an absolute path lies below the current folder, if it does. -/
def locationBelow? (base absolute : String) : Option Location :=
  (Text.rest? (base ++ "/").toList absolute.toList).map fun r =>
    (r.splitOn '/').map String.ofList

partial def readEntries (base : String) (location : Location) : IO (List (Location × Entry)) := do
  let folder ← IO.FS.realPath (String.intercalate "/" (base :: location))
  let mut entries := []
  for item in ← folder.readDir do
    let here := location ++ [item.fileName]
    let info ← item.path.symlinkMetadata
    match info.type with
    | .dir => entries := entries ++ (here, .folder none) :: (← readEntries base here)
    | .file =>
      let content ← IO.FS.readBinFile item.path
      entries := entries ++ [(here, fileEntry content info.modified.sec)]
    | .symlink =>
      let target ← (some <$> IO.FS.realPath item.path).catchExceptions fun _ => pure none
      match target.bind fun t => locationBelow? base t.toString with
      | some target => entries := entries ++ [(here, .link (linkTarget here target))]
      | none => pure ()
    | .other => pure ()
  return entries

end ComponentSite.Main

def main (words : List String) : IO UInt32 := do
  let base := (← IO.FS.realPath (← IO.currentDir)).toString
  let start := (base.splitOn "/").filter (· != "")
  let folders := ComponentSite.FileTree.startingAt start
  let below := (← ComponentSite.Main.readEntries base []).map fun (location, entry) => (start ++ location, entry)
  let files := { folders with entries := folders.entries ++ below }
  let outcome := ComponentSite.CommandLine.run files words
  IO.print outcome.stdout
  IO.eprint outcome.stderr
  return outcome.exit.toUInt32
