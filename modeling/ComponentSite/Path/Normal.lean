/-
  ComponentSite.Path.Normal — the normal form of a path, which is the identity of
  a source.

  No file is looked at: `.` goes, `..` takes the name before it away, stays in
  front of a relative path and has no effect at the root. An import path is read
  from the folder of the importing file and then brought to its normal form, so
  that a source has one key however it is reached.
-/
import ComponentSite.Path

namespace ComponentSite.Path

def pushSegment (stack : List Segment) : Segment → List Segment
  | .here => stack
  | .up =>
    match stack with
    | .name _ :: above => above
    | .root :: _ => stack
    | _ => .up :: stack
  | s => s :: stack

def normalSegments (segments : List Segment) : List Segment :=
  (segments.foldl pushSegment []).reverse

def ofSegments : List Segment → Path
  | .root :: rest => ⟨"/" ++ "/".intercalate (rest.map Segment.text)⟩
  | segments => ⟨"/".intercalate (segments.map Segment.text)⟩

def normalize (p : Path) : Path := ofSegments (normalSegments p.segments)

/-- The key of the source that `importer` imports as `raw`. -/
def resolveImport (importer : Path) (raw : String) : Path :=
  normalize ((importer.parent?.getD ⟨""⟩).join ⟨raw⟩)

end ComponentSite.Path
