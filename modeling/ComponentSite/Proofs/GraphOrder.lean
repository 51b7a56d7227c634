/-
  ComponentSite.Proofs.GraphOrder — the graph of a compiler is closed and without
  cycles, whatever was compiled into it.

  A compiler lives through any calls, with any files at each of them, and some calls
  may fail half-way (`Reachable`). At every moment what a component imports stands
  before it, and its descendants are what it reaches, in the order of the walk down its
  imports (`ImportOrder`). The first page of a compiler leaves nothing in the graph but
  itself and its descendants.
-/
import ComponentSite.Proofs.CompileRun

namespace ComponentSite.ComponentGraph
open Compile

inductive Reachable (options : CompileOptions) : ComponentGraph → Prop
  | empty : Reachable options empty
  | component {g : ComponentGraph} (files : FileTree) (path : Path) (name : String) :
      Reachable options g → Reachable options (g.compile files options path name).2
  | page {g : ComponentGraph} (files : FileTree) (path : Path) (name : String) :
      Reachable options g → Reachable options (g.compilePage files options path name).2

structure ImportOrder (options : CompileOptions) (g : ComponentGraph) : Prop where
  /-- An import leads to an earlier place. -/
  earlier : ∀ (i : Nat) (c : Component), g.components[i]? = some c → ∀ k ∈ c.children, ∃ j < i, g.keys[j]? = some k
  acyclic : ∀ k, ¬ g.Reaches k k
  children : ∀ c ∈ g.components,
    c.children = ((importsOf options c).map fun i => c.sourcePath.resolveImport i.raw).eraseDups
  nodup : ∀ c ∈ g.components, c.descendants.Nodup
  not_self : ∀ c ∈ g.components, c.sourcePath ∉ c.descendants
  reached : ∀ c ∈ g.components, ∀ k, k ∈ c.descendants ↔ g.Reaches c.sourcePath k
  /-- Each child comes with its own descendants behind it; repetitions are dropped. -/
  descendants : ∀ c ∈ g.components, c.descendants = g.reached c.children
  /-- They are in the order in which the walk down the imports first comes by. -/
  walk : ∀ c ∈ g.components, ∃ walk, g.Walk c.children walk ∧ c.descendants = walk.eraseDups

def AskedFor (path : Path) (name : String) : Path → String → Prop :=
  fun p n => p = path.normalize ∧ n = name

theorem compile_ran (files : FileTree) (options : CompileOptions) (isPage : Bool) (path : Path) (name : String)
    {g : ComponentGraph} (hg : g.Ordered) :
    Ran files options (AskedFor path name) [] g path.normalize name
      (compileSource files options maxDepth [] isPage path name g) :=
  compileSource_ran maxDepth [] isPage path (Or.inl ⟨rfl, rfl⟩) hg

theorem Reachable.inv {options : CompileOptions} {g : ComponentGraph} (h : Reachable options g) :
    g.Ordered ∧ AllLinked options g := by
  induction h with
  | empty => exact ⟨ordered_empty, by simp [AllLinked, ComponentGraph.empty]⟩
  | component files path name _ ih =>
    have hr := (compile_ran files options false path name ih.1).run
    exact ⟨hr.ordered ih.1, hr.allLinked ih.2⟩
  | page files path name _ ih =>
    have hr := (compile_ran files options true path name ih.1).run
    exact ⟨hr.ordered ih.1, hr.allLinked ih.2⟩

theorem reachable_of_compilePage {files : FileTree} {options : CompileOptions} {path : Path} {name : String}
    {result : Except SiteError Path} {g : ComponentGraph}
    (h : empty.compilePage files options path name = (result, g)) :
    Reachable options g := by
  have hempty : Reachable options empty := .empty
  have := hempty.page files path name
  rwa [h] at this

theorem Reachable.forall_components {options : CompileOptions} {P : Component → Prop}
    (hbind : ∀ (c : Component) (name : String), P c → P (c.bind name))
    (hadd : ∀ (files : FileTree) (g : ComponentGraph) (key : Path) (name : String) (isPage : Bool)
      (source : ReadSource) (children : List Path), readSource files options isPage key = .ok source →
      P (finish options g key name source children))
    {g : ComponentGraph} (h : Reachable options g) : ∀ c ∈ g.components, P c := by
  have step : ∀ {files asked g g'}, Run files options asked g g' → (∀ k ∈ g'.keys, k.IsKey) →
      (∀ c ∈ g.components, P c) → ∀ c ∈ g'.components, P c := fun hr hk hg =>
    hr.forall_components (fun c name hc _ => hbind c name hc)
      (fun g key name isPage source children _ hread => hadd _ g key name isPage source children hread) hk hg
  induction h with
  | empty => simp [ComponentGraph.empty]
  | component files path name hr ih =>
    have hrun := (compile_ran files options false path name hr.inv.1).run
    exact step hrun (fun _ hk => (hrun.ordered hr.inv.1).isKey_of_mem hk) ih
  | page files path name hr ih =>
    have hrun := (compile_ran files options true path name hr.inv.1).run
    exact step hrun (fun _ hk => (hrun.ordered hr.inv.1).isKey_of_mem hk) ih

theorem Ordered.importOrder {options : CompileOptions} {g : ComponentGraph} (h : g.Ordered)
    (hl : AllLinked options g) : ImportOrder options g where
  earlier := h.earlier
  acyclic := h.not_reaches_self
  children c hc := (hl c hc).children_eq
  nodup _ hc := h.descendants_nodup hc
  not_self _ hc := h.sourcePath_not_mem_descendants hc
  reached _ hc k := h.mem_descendants hc k
  descendants := h.descendants
  walk c hc := by
    obtain ⟨walk, hw, he⟩ := h.exists_walk hc
    exact ⟨walk, hw, he.symm⟩

/-- A compiler that was empty holds the page it compiled and what that reaches, each once. -/
theorem page_and_descendants {files : FileTree} {options : CompileOptions} {path key : Path} {name : String}
    {g : ComponentGraph} (h : empty.compilePage files options path name = (.ok key, g)) :
    ∃ page ∈ g.components, page.sourcePath = key ∧ g.keys.Perm (key :: page.descendants) := by
  have hran := compile_ran files options true path name ordered_empty
  rw [← compilePage, h] at hran
  have hg := hran.run.ordered ordered_empty
  obtain ⟨rfl, page, hpage, hkey, -⟩ := hran.found key rfl
  refine ⟨page, hpage, hkey, (List.perm_ext_iff_of_nodup hg.nodup ?_).mpr fun k => ?_⟩
  · exact List.nodup_cons.mpr ⟨hkey ▸ hg.sourcePath_not_mem_descendants hpage, hg.descendants_nodup hpage⟩
  · rw [List.mem_cons, hg.mem_descendants hpage, hkey]
    constructor
    · intro hk
      exact hran.only ⟨_, rfl⟩ k hk (by simp [keys, empty])
    · rintro (rfl | hk)
      · exact mem_keys.mpr ⟨page, hpage, hkey⟩
      · exact hg.reaches_mem hk

/-- At every moment of a compiler its graph is closed, without cycles and in the order of
    the imports; after its first page it holds that page and its descendants only. -/
theorem compiled_graph_in_order (options : CompileOptions) :
    (∀ g, Reachable options g → ImportOrder options g) ∧
      ∀ files path name key g, empty.compilePage files options path name = (.ok key, g) →
        ∃ page ∈ g.components, page.sourcePath = key ∧ (g.sources.map (·.1)).Perm (key :: page.descendants) := by
  refine ⟨fun g h => h.inv.1.importOrder h.inv.2, fun files path name key g h => ?_⟩
  have hs : g.sources.map (·.1) = g.keys := by rw [sources, List.map_map]; rfl
  rw [hs]
  exact page_and_descendants h

/-- A page that imports `a.goo`, before that file is there and after. -/
theorem in_order_after_failure :
    let page : Path := ⟨"page.goo"⟩
    let before : FileTree :=
      { entries := [(["page.goo"], .file (some "<script>import A from './a.goo'</script><component/>") 1)] }
    let after : FileTree := { entries := (["a.goo"], .file (some "<component>a</component>") 2) :: before.entries }
    let options : CompileOptions := { classOf := fun p => p.text }
    let g := ((empty.compile before options page "Page").2.compile after options page "Page").2
    let fresh := empty.compilePage after options ⟨"a.goo"⟩ "A"
    Reachable options g ∧ ImportOrder options g ∧ g.keys = [⟨"a.goo"⟩, page] ∧
      fresh.1 = .ok ⟨"a.goo"⟩ ∧ ∃ c ∈ fresh.2.components, c.sourcePath = ⟨"a.goo"⟩ ∧
        (fresh.2.sources.map (·.1)).Perm (⟨"a.goo"⟩ :: c.descendants) := by
  intro page before after options g fresh
  have hg : Reachable options g := .component _ _ _ (.component _ _ _ .empty)
  have hfresh : fresh.1 = .ok ⟨"a.goo"⟩ := by decide +kernel
  exact ⟨hg, (compiled_graph_in_order options).1 g hg, by decide +kernel, hfresh,
    (compiled_graph_in_order options).2 _ _ _ _ _ (Prod.ext hfresh rfl)⟩

end ComponentSite.ComponentGraph
