/-
  ComponentSite.Proofs.Retouching — a compile whose components are finished otherwise.

  No step of a compile looks at the classes, the markup or the fragments of a component that
  is in the graph: what it looks at are names, sources and descendants. A change of components
  that leaves these (`Retouches`) can be made before a compile or after it. So with options
  that read sources alike and finish components with the change made, a compile takes the same
  steps to the same outcome, and its graph is the changed one (`compileSource_map`).
  Flattening, too, comes to the same (`flatten_map`).
-/
import ComponentSite.Proofs.GraphOrder

namespace ComponentSite
open Compile

/-- A change that leaves what the graph goes by. -/
structure Component.Retouches (change : Component → Component) : Prop where
  sourcePath : ∀ c, (change c).sourcePath = c.sourcePath
  descendants : ∀ c, (change c).descendants = c.descendants
  names : ∀ c, (change c).names = c.names
  bind : ∀ c name, change (c.bind name) = (change c).bind name

namespace ComponentGraph

variable {change : Component → Component} (hc : Component.Retouches change) (g : ComponentGraph)

def map (change : Component → Component) (g : ComponentGraph) : ComponentGraph := ⟨g.components.map change⟩

include hc

theorem get?_map (path : Path) : (g.map change).get? path = (g.get? path).map change := by
  unfold get? map
  rw [List.find?_map]
  refine congrArg (Option.map _) (congrArg (List.find? · _) (funext fun c => ?_))
  simp [hc.sourcePath]

theorem contains_map (path : Path) : (g.map change).contains path = g.contains path := by
  rw [contains, get?_map hc, Option.isSome_map]
  rfl

theorem bind_map (path : Path) (name : String) : (g.bind path name).map change = (g.map change).bind path name := by
  unfold bind map
  simp only [List.map_map]
  refine congrArg mk (List.map_congr_left fun c _ => ?_)
  simp only [Function.comp, hc.sourcePath]
  split
  · exact hc.bind c name
  · rfl

theorem reached_map (children : List Path) : (g.map change).reached children = g.reached children := by
  unfold reached
  congr 2
  funext child
  rw [get?_map hc]
  cases g.get? child with
  | none => rfl
  | some c => exact congrArg (child :: ·) (hc.descendants c)

theorem claimAll_map (flat : List Component) (owners : List (String × Path)) :
    claimAll (flat.map change) owners = claimAll flat owners := by
  induction flat generalizing owners with
  | nil => rfl
  | cons c rest ih => simp only [List.map_cons, claimAll, hc.sourcePath, hc.names, ih]

theorem flatten_map (root : Path) : (g.map change).flatten root = (g.flatten root).map (List.map change) := by
  unfold flatten
  rw [get?_map hc]
  cases g.get? root with
  | none => rfl
  | some c =>
    have hflat : c.descendants.filterMap (g.map change).get? = (c.descendants.filterMap g.get?).map change := by
      rw [List.map_filterMap]
      exact List.filterMap_congr fun k _ => get?_map hc g k
    simp only [Option.map_some, hc.descendants, hflat, claimAll_map hc]
    cases claimAll (c.descendants.filterMap g.get?) [] <;> rfl

end ComponentGraph

namespace Compile

/-- Imports are compiled alike if each one is. -/
theorem compileImports_map {change : Component → Component}
    {compile compile' : Path → String → ComponentGraph → Except SiteError Path × ComponentGraph}
    (h : ∀ path name g, compile' path name (g.map change) =
    ((compile path name g).1, (compile path name g).2.map change))
    (importer : Path) (imports : List ImportReference) (children : List Path) (g : ComponentGraph) :
    compileImports compile' importer imports children (g.map change) =
      ((compileImports compile importer imports children g).1,
        (compileImports compile importer imports children g).2.map change) := by
  induction imports generalizing children g with
  | nil => rfl
  | cons i rest ih =>
    rw [compileImports, compileImports, h]
    rcases compile (importer.resolveImport i.raw) i.displayName g with ⟨result, g'⟩
    cases result with
    | error e => rfl
    | ok child => exact ih _ g'

structure Retouched (change : Component → Component) (options options' : CompileOptions) : Prop where
  retouches : Component.Retouches change
  read : ∀ files isPage key, readSource files options' isPage key = readSource files options isPage key
  finish : ∀ files isPage key source, readSource files options isPage key = .ok source → ∀ g name children,
    change (finish options g key name source children) = finish options' (g.map change) key name source children

theorem compileSource_map {change : Component → Component} {options options' : CompileOptions}
    (h : Retouched change options options') (files : FileTree) (depth : Nat)
    (above : List Path) (isPage : Bool) (path : Path)
    (name : String) (g : ComponentGraph) :
    compileSource files options' depth above isPage path name (g.map change) =
      ((compileSource files options depth above isPage path name g).1,
        (compileSource files options depth above isPage path name g).2.map change) := by
  induction depth generalizing above isPage path name g with
  | zero =>
    unfold compileSource
    simp only [ComponentGraph.contains_map h.retouches]
    split
    · rw [ComponentGraph.bind_map h.retouches]
    · split <;> rfl
  | succ depth ih =>
    rw [compileSource_succ, compileSource_succ, ComponentGraph.contains_map h.retouches, h.read]
    split
    · rw [ComponentGraph.bind_map h.retouches]
    · split
      · rfl
      · split
        · rfl
        · rename_i source hsource
          rw [compileImports_map (ih (path.normalize :: above) false)]
          rcases compileImports (compileSource files options depth (path.normalize :: above) false) path.normalize
            source.scanned.imports [] g with ⟨result, g'⟩
          cases result with
          | error e => rfl
          | ok children =>
            have hfinish := h.finish files isPage path.normalize source hsource g' name children
            simp only [ComponentGraph.add, ← hfinish]
            simp only [ComponentGraph.map, List.map_append, List.map_cons, List.map_nil]

end Compile

end ComponentSite
