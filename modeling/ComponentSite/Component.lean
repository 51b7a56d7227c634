/-
  ComponentSite.Component — a compiled component, and the graph of all that a page
  is made of.

  The graph is a list of components in the order in which they were finished;
  children and descendants are referred to by source path. A component has the
  name it was first compiled under and the further names that other importers gave
  it.
-/
import ComponentSite.Error
import ComponentSite.Fragment

namespace ComponentSite

structure Component where
  name : String
  sourcePath : Path
  rawSource : String
  /-- The script without its component imports. -/
  script : String
  style : String
  markup : String
  scopeClass : String
  fragments : List Fragment
  /-- The sources imported, in the order of the imports, each once. -/
  children : List Path
  /-- The sources reached through imports, in the order in which they are first
      reached. -/
  descendants : List Path
  /-- Names given by importers after the first. -/
  aliases : List String
  /-- The time of the source when it was read. -/
  modified : Int
  deriving DecidableEq, Repr

namespace Component

/-- Every name the component has in markup. -/
def names (c : Component) : List String := c.name :: c.aliases

def template (c : Component) : String := String.join (c.fragments.map Fragment.definition)

def bind (c : Component) (name : String) : Component :=
  if c.names.contains name then c else { c with aliases := c.aliases ++ [name] }

end Component

structure ComponentGraph where
  components : List Component
  deriving DecidableEq, Repr

namespace ComponentGraph

def empty : ComponentGraph := ⟨[]⟩

def get? (g : ComponentGraph) (path : Path) : Option Component :=
  g.components.find? (·.sourcePath.same path)

def contains (g : ComponentGraph) (path : Path) : Bool := (g.get? path).isSome

def size (g : ComponentGraph) : Nat := g.components.length

def add (g : ComponentGraph) (c : Component) : ComponentGraph := ⟨g.components ++ [c]⟩

def bind (g : ComponentGraph) (path : Path) (name : String) : ComponentGraph :=
  ⟨g.components.map fun c => if c.sourcePath.same path then c.bind name else c⟩

def sources (g : ComponentGraph) : List (Path × Int) :=
  g.components.map fun c => (c.sourcePath, c.modified)

/-- The children and, after each, its descendants; each path where it comes first. -/
def reached (g : ComponentGraph) (children : List Path) : List Path :=
  (children.flatMap fun child =>
    match g.get? child with
    | some c => child :: c.descendants
    | none => []).eraseDups

/-- Records that `names` belong to the source at `path`. Fails at the first name that
    another source has. -/
def claimNames (path : Path) :
    List String → List (String × Path) → Except SiteError (List (String × Path))
  | [], owners => .ok owners
  | name :: names, owners =>
    match owners.find? (·.1 == name) with
    | some (_, first) =>
      if first.same path then claimNames path names owners
      else .error (.ambiguousName name first path)
    | none => claimNames path names (owners ++ [(name, path)])

def claimAll : List Component → List (String × Path) → Except SiteError Unit
  | [], _ => .ok ()
  | c :: rest, owners => do claimAll rest (← claimNames c.sourcePath c.names owners)

/-- The components reached from the one at `root`, without it. Fails if two of them
    share a name, because a tag of that name would be either. A path outside the
    graph reaches nothing. -/
def flatten (g : ComponentGraph) (root : Path) : Except SiteError (List Component) :=
  match g.get? root with
  | none => .ok []
  | some c => do
    let flat := c.descendants.filterMap g.get?
    claimAll flat []
    return flat

end ComponentGraph

end ComponentSite
