/-
  ComponentSite.Site — a site that is open: its configuration, layout and routes as
  they were found when it was opened, and the pages it has compiled since.

  The files are no part of it. Every operation that may compile gets them as they are
  at that moment, so a change of a file shows only where something is compiled.

  A page is known by the normal form of its path. Each run of the compiler has a seed
  of its own for random scope classes. `compilations` counts the runs that ended with
  a page.
-/
import ComponentSite.CompiledPage
import ComponentSite.Composition
import ComponentSite.Config
import ComponentSite.Layout
import ComponentSite.PageCache
import ComponentSite.Route
import ComponentSite.Structure

namespace ComponentSite

structure Site where
  config : Config
  layout : String
  routes : List Route
  cache : PageCache
  compilations : Nat := 0
  /-- The seed of the next run of the compiler. -/
  runs : Nat := 0

/-- What compiling every route came to: how many pages there are, and the routes
    without one, in their order. -/
structure WarmReport where
  compiled : Nat := 0
  failures : List (String × SiteError) := []

def WarmReport.add (r : WarmReport) (path : String) : Except SiteError CompiledPage → WarmReport
  | .ok _ => { r with compiled := r.compiled + 1 }
  | .error cause => { r with failures := r.failures ++ [(path, cause)] }

namespace Site

/-- The name under which the markup of a page itself is compiled. -/
def pageName : String := "Page"

/-- Opens the site of a configuration. All required pieces must be there. The seeds of
    its compiles count from `firstRun`. -/
def load (files : FileTree) (config : Config) (firstRun : Nat := 0) : Except SiteError Site := do
  let pieces ← SiteStructure.locate files config
  return { config
           layout := pieces.layout
           routes := Route.discover files pieces.appDir config.entryFile
           cache := { invalidateOnChange := config.invalidateOnChange }
           runs := firstRun }

def route? (s : Site) (path : String) : Option Route := s.routes.find? (·.path == path)

/-! ## Compiling -/

/-- The templates of a compiled page: its own, those of its components, and the
    layout as the entry. -/
def pageTemplates (layout : String) (page : Component) (flat : List Component) : TemplateSet :=
  (Composition.composePage page flat).insert TemplateSet.base (Layout.augment layout page flat)

/-- Compiles the page at a normal path, with the times of its sources. -/
def build (files : FileTree) (options : CompileOptions) (layout : String) (key : Path) :
    Except SiteError CacheEntry := do
  let (compiled, graph) := ComponentGraph.empty.compilePage files options key pageName
  let root ← compiled
  match graph.get? root with
  | none => throw (.malformedSource root (.described "page missing from component graph"))
  | some component =>
    let flat ← graph.flatten root
    let templates := pageTemplates layout component flat
    let page ← CompiledPage.register root templates TemplateSet.base
    return { page, sources := graph.sources.map fun (path, modified) => (path, some modified) }

def nextEntry (s : Site) (files : FileTree) (key : Path) : Except SiteError CacheEntry :=
  build files (s.config.compileOptions s.runs) s.layout key

def afterRun (s : Site) (succeeded : Bool) : Site :=
  { s with
    runs := s.runs + 1
    compilations := if succeeded then s.compilations + 1 else s.compilations }

/-- Compiles a page, whatever is kept of it; the result is not kept. -/
def compilePage (s : Site) (files : FileTree) (page : Path) : Except SiteError CompiledPage × Site :=
  let result := s.nextEntry files page.normalize
  (result.map (·.page), s.afterRun result.isOk)

/-- The page from the cache, compiled first if need be. Without a cache every look-up
    compiles. -/
def page (s : Site) (files : FileTree) (page : Path) : Except SiteError CompiledPage × Site :=
  if s.config.cache then
    let key := page.normalize
    let (found, cache) := s.cache.getOrCompile files key fun _ => s.nextEntry files key
    let s := { s with cache }
    (found.result, if found.isMiss then s.afterRun found.result.isOk else s)
  else s.compilePage files page

def renderPage (s : Site) (files : FileTree) (page : Path) (data : Template.Value) :
    Except SiteError String × Site :=
  let (found, s) := s.page files page
  (found.bind (·.render data), s)

def invalidate (s : Site) (page : Path) : Site :=
  { s with cache := s.cache.invalidate page.normalize }

/-- Looks up the page of every route. A page that fails does not stop the others. -/
def warm (s : Site) (files : FileTree) : WarmReport × Site :=
  s.routes.foldl (fun (report, s) route =>
    let (found, s) := s.page files route.source
    (report.add route.path found, s)) ({}, s)

end Site

end ComponentSite
