/-
  ComponentSite.Proofs.Reclassing — a compile with other scope classes.

  What a component has of its class is made of its source alone, so that the component can be
  given another class afterwards (`Component.reclass`). Its source, names and descendants stay
  (`retouches_reclass`). So a compile with other classes comes to the same outcome, and its
  graph is the one that is reclassed (`compilePage_reclass`); flattening, too, comes to the
  same (`flatten_reclass`).
-/
import ComponentSite.Proofs.Retouching

namespace ComponentSite
open Compile

def CompileOptions.withClasses (options : CompileOptions) (classOf : Path → String) : CompileOptions :=
  { options with classOf }

/-- The component as it is finished with these options, out of the same source and with the same
    names, children and descendants. -/
def Component.reclass (options : CompileOptions) (c : Component) : Component :=
  match Sections.extract options.markers c.rawSource c.sourcePath with
  | .error _ => c
  | .ok sections =>
    let source : ReadSource := ⟨c.rawSource, c.modified, sections, ⟨c.script, []⟩⟩
    { finish options .empty c.sourcePath c.name source c.children with
      descendants := c.descendants, aliases := c.aliases }

namespace Component

variable (options : CompileOptions) (c : Component)

@[simp] theorem reclass_sourcePath : (c.reclass options).sourcePath = c.sourcePath := by unfold reclass; split <;> rfl
@[simp] theorem reclass_descendants : (c.reclass options).descendants = c.descendants := by
  unfold reclass; split <;> rfl
@[simp] theorem reclass_modified : (c.reclass options).modified = c.modified := by unfold reclass; split <;> rfl
@[simp] theorem reclass_names : (c.reclass options).names = c.names := by unfold reclass; split <;> rfl

theorem reclass_bind (name : String) : (c.bind name).reclass options = (c.reclass options).bind name := by
  unfold bind
  rw [reclass_names]
  split
  · rfl
  · unfold reclass
    dsimp only
    split <;> rfl

theorem reclass_finish {files : FileTree} {isPage : Bool} {key : Path} {source : ReadSource}
    (hread : readSource files options isPage key = .ok source) (classOf : Path → String)
    (g g' : ComponentGraph) (name : String)
    (children : List Path) (hreached : g'.reached children = g.reached children) :
    (finish options g key name source children).reclass (options.withClasses classOf) =
      finish (options.withClasses classOf) g' key name source children := by
  have hextract : Sections.extract (options.withClasses classOf).markers source.raw key = .ok source.sections :=
    (readSource_ok hread).2.1
  unfold reclass
  rw [finish_rawSource, finish_sourcePath, hextract]
  unfold finish
  simp only [hreached]

theorem retouches_reclass : Retouches (·.reclass options) where
  sourcePath := reclass_sourcePath options
  descendants := reclass_descendants options
  names := reclass_names options
  bind := reclass_bind options

end Component

theorem Compile.retouched_reclass (options : CompileOptions) (classOf : Path → String) :
    Retouched (·.reclass (options.withClasses classOf)) options (options.withClasses classOf) where
  retouches := Component.retouches_reclass _
  read _ _ _ := rfl
  finish _ _ _ _ hread g name children :=
    Component.reclass_finish options hread classOf g _ name children
      (ComponentGraph.reached_map (Component.retouches_reclass _) g children)

namespace ComponentGraph

def reclass (options : CompileOptions) (g : ComponentGraph) : ComponentGraph := ⟨g.components.map (·.reclass options)⟩

variable (options : CompileOptions) (g : ComponentGraph)

theorem get?_reclass (path : Path) : (g.reclass options).get? path = (g.get? path).map (·.reclass options) :=
  get?_map (Component.retouches_reclass options) g path

theorem sources_reclass : (g.reclass options).sources = g.sources := by
  simp [sources, reclass]

theorem flatten_reclass (root : Path) :
    (g.reclass options).flatten root = (g.flatten root).map (List.map (·.reclass options)) :=
  flatten_map (Component.retouches_reclass options) g root

/-- A page is compiled to the same outcome with other classes, and to the graph with those. -/
theorem compilePage_reclass (files : FileTree) (options : CompileOptions) (classOf : Path → String) (path : Path)
    (name : String) :
    empty.compilePage files (options.withClasses classOf) path name =
      ((empty.compilePage files options path name).1,
        (empty.compilePage files options path name).2.reclass (options.withClasses classOf)) :=
  compileSource_map (retouched_reclass options classOf) files maxDepth [] true path name empty

end ComponentGraph

end ComponentSite
