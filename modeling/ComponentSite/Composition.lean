/-
  ComponentSite.Composition — the template set of a page and its components.

  In the content of the page, and of every component, each element of another
  component is replaced by an include of that component's content. One pass is made
  for every name of every component, in their order, over the text that the passes
  before left. A component's own tags are not replaced in its own content.
-/
import ComponentSite.Component
import ComponentSite.ComponentTag
import ComponentSite.TemplateSet

namespace ComponentSite.Composition

def includeTag (template : String) : String := "\x7b\x7b> " ++ template ++ "\x7d\x7d"

/-- What an element of the component becomes: nothing if it has no content. -/
def includeFor (c : Component) : String :=
  match Fragment.ofKind? c.fragments .content with
  | some f => includeTag f.name
  | none => ""

/-- The text with every element of the component replaced, under each of its names. -/
def replaceElements (text : String) (target : Component) : String :=
  target.names.foldl (fun text name => (ComponentTag.replace name text (includeFor target)).1) text

def replaceAll (targets : List Component) (text : String) : String :=
  targets.foldl replaceElements text

def replaceInContent (targets : List Component) (fragments : List Fragment) : List Fragment :=
  Fragment.modifyBody .content (replaceAll targets) fragments

/-- The fragments of each component, with the elements of the others replaced. -/
def componentFragments (flat : List Component) : List (List Fragment) :=
  flat.mapIdx fun i c => replaceInContent (flat.eraseIdx i) c.fragments

def composePage (page : Component) (flat : List Component) : TemplateSet :=
  let fragments := replaceInContent flat page.fragments :: componentFragments flat
  fragments.flatten.foldl TemplateSet.push .empty

end ComponentSite.Composition
