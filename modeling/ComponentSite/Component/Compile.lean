/-
  ComponentSite.Component.Compile — compiling a page with everything it imports.

  A source is compiled after its imports, in their order, and then added to the
  graph; a source that is in the graph already is not read again, it only gets one
  more name. The sources on the way from the page down to the one being compiled
  are `above` it; an import of one of them is a cycle. A failed compile keeps
  whatever was finished before it failed.

  The recursion takes one unit of `depth` per source on the way down. These sources
  are readable, pairwise different, and have paths of at most
  `FileTree.maxPathBytes` bytes, so there are fewer of them than `maxDepth`.
-/
import ComponentSite.Component
import ComponentSite.Imports
import ComponentSite.Path.Normal
import ComponentSite.Sections
import ComponentSite.Style.Scope

namespace ComponentSite

structure CompileOptions where
  /-- The extension of component sources. -/
  extension : String := "goo"
  markers : SectionMarkers := {}
  scopedStyles : Bool := true
  /-- The scope class of each source. -/
  classOf : Path → String
  /-- The app folder after which custom elements are named; without it there are none. -/
  webComponents : Option Path := none

structure ReadSource where
  raw : String
  modified : Int
  sections : Sections
  scanned : ScannedScript

namespace Compile

/-- Reads the source at a key. A page must have a markup section. -/
def readSource (files : FileTree) (options : CompileOptions) (isPage : Bool) (key : Path) :
    Except SiteError ReadSource := do
  let (raw, modified) ← (files.read key).mapError (.sourceNotFound key)
  let sections ← Sections.extract options.markers raw key
  if isPage && !sections.hasMarkup then throw (.malformedSource key .noMarkup)
  let scanned ← Imports.scan options.extension sections.script key
  return { raw, modified, sections, scanned }

/-- The component of a source whose imports are in the graph. -/
def finish (options : CompileOptions) (graph : ComponentGraph) (key : Path) (name : String)
    (source : ReadSource) (children : List Path) : Component :=
  let scopeClass := options.classOf key
  let sections := source.sections
  let (style, markup) :=
    if options.scopedStyles && !sections.style.isEmpty then
      let result := Style.scope sections.style sections.markup scopeClass
      (result.style, result.markup)
    else (sections.style, sections.markup)
  let element := options.webComponents.map (CustomElement.forPath key)
  let script := source.scanned.cleaned
  { name
    sourcePath := key
    rawSource := source.raw
    script
    style
    markup
    scopeClass
    fragments := Fragment.generate scopeClass script markup style element
    children
    descendants := graph.reached children
    aliases := []
    modified := source.modified }

/-- Compiles imports one after the other with `compile`, up to the first that fails.
    The children are the keys, each once. -/
def compileImports (compile : Path → String → ComponentGraph → Except SiteError Path × ComponentGraph)
    (importer : Path) :
    List ImportReference → List Path → ComponentGraph → Except SiteError (List Path) × ComponentGraph
  | [], children, graph => (.ok children, graph)
  | i :: rest, children, graph =>
    match compile (importer.resolveImport i.raw) i.displayName graph with
    | (.ok child, graph) =>
      let children := if children.contains child then children else children ++ [child]
      compileImports compile importer rest children graph
    | (.error e, graph) => (.error (.importFailed importer i.raw e), graph)

def compileSource (files : FileTree) (options : CompileOptions) :
    (depth : Nat) → (above : List Path) → (isPage : Bool) → Path → String → ComponentGraph →
      Except SiteError Path × ComponentGraph
  | depth, above, isPage, path, name, graph =>
    let key := path.normalize
    if graph.contains key then (.ok key, graph.bind key name)
    else if above.any (·.same key) then (.error (.cyclicImport key), graph)
    else match depth with
      | 0 => (.error (.cyclicImport key), graph)
      | depth + 1 =>
        match readSource files options isPage key with
        | .error e => (.error e, graph)
        | .ok source =>
          let compile := compileSource files options depth (key :: above) false
          match compileImports compile key source.scanned.imports [] graph with
          | (.error e, graph) => (.error e, graph)
          | (.ok children, graph) =>
            (.ok key, graph.add (finish options graph key name source children))

/-- More than there are paths of up to `FileTree.maxPathBytes` bytes. -/
def maxDepth : Nat := Nat.pow (Nat.pow 2 256) 128

end Compile

namespace ComponentGraph

def compile (g : ComponentGraph) (files : FileTree) (options : CompileOptions) (path : Path)
    (name : String) : Except SiteError Path × ComponentGraph :=
  Compile.compileSource files options Compile.maxDepth [] false path name g

def compilePage (g : ComponentGraph) (files : FileTree) (options : CompileOptions) (path : Path)
    (name : String) : Except SiteError Path × ComponentGraph :=
  Compile.compileSource files options Compile.maxDepth [] true path name g

end ComponentGraph

end ComponentSite
