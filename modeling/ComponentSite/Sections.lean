/-
  ComponentSite.Sections — the script, style and markup of a component source.

  Each section is the text between the first opening marker and the first closing
  marker after it; the three are looked for independently, so one may lie inside
  another, and what is in none of them is ignored.
-/
import ComponentSite.Error
import ComponentSite.Text.Blank

namespace ComponentSite

structure Markers where
  opening : String
  closing : String
  deriving DecidableEq, Repr

structure SectionMarkers where
  script : Markers := ⟨"<script>", "</script>"⟩
  style : Markers := ⟨"<style>", "</style>"⟩
  markup : Markers := ⟨"<component>", "</component>"⟩
  deriving DecidableEq, Repr

/-- The sections of a source, trimmed. An absent section is empty. -/
structure Sections where
  script : String
  style : String
  markup : String
  /-- The markup was delimited, even if there is nothing in it. -/
  hasMarkup : Bool
  deriving DecidableEq, Repr

namespace Sections

/-- What lies between the markers: nothing if the section is not opened, a fault if
    it is not closed. -/
def between (m : Markers) (source : List Char) : Except Malformation (Option (List Char)) :=
  match Text.breakOn m.opening.toList source with
  | none => .ok none
  | some (_, after) =>
    match Text.breakOn m.closing.toList after with
    | some (body, _) => .ok (some body)
    | none => .error (.unclosedSection m.opening)

def content (body : Option (List Char)) : String :=
  String.ofList (Text.trim (body.getD []))

/-- The sections of a source, or the fault of the first one (script before style
    before markup) that is not closed. -/
def ofSource? (m : SectionMarkers) (source : List Char) : Except Malformation Sections := do
  let script ← between m.script source
  let style ← between m.style source
  let markup ← between m.markup source
  return {
    script := content script
    style := content style
    markup := content markup
    hasMarkup := markup.isSome }

def extract (m : SectionMarkers) (source : String) (path : Path) : Except SiteError Sections :=
  (ofSource? m source.toList).mapError (.malformedSource path)

end Sections

end ComponentSite
