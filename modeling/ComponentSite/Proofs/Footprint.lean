/-
  ComponentSite.Proofs.Footprint — the files that a compiled page depends on.

  A compile that succeeds has read a file for every component of its graph and no other
  one that matters: with files that hold the same there, it comes to the same
  (`compileSource_footprint`). So a page that was built is built again, to the last
  template, from any files that agree with the first ones on its sources
  (`build_footprint`), and the time recorded for a source is the time it was read with
  (`read_of_mem_sources`).
-/
import ComponentSite.Proofs.GraphOrder
import ComponentSite.Site

namespace ComponentSite.Compile

def AgreeOn (files files' : FileTree) (g : ComponentGraph) : Prop :=
  ∀ k ∈ g.keys, files'.read k = files.read k

variable {files files' : FileTree} {options : CompileOptions}

theorem AgreeOn.of_grows {g g' : ComponentGraph} (h : AgreeOn files files' g') (hgr : g.Grows g') :
    AgreeOn files files' g :=
  fun k hk => h k (hgr.mem_keys hk)

theorem readSource_congr {isPage : Bool} {key : Path} (h : files'.read key = files.read key) :
    readSource files' options isPage key = readSource files options isPage key := by
  unfold readSource
  rw [h]

/-! ## Compiling -/

abbrev Any : Path → String → Prop := fun _ _ => True

/-- Where one compiler succeeds and the files agree on its graph, the other does the same. -/
def Follows (files files' : FileTree)
    (compile compile' : Path → String → ComponentGraph → Except SiteError Path × ComponentGraph) : Prop :=
  ∀ (path : Path) (name : String) (g g' : ComponentGraph) (key : Path), g.Ordered →
    compile path name g = (.ok key, g') → AgreeOn files files' g' → compile' path name g = (.ok key, g')

/-- A compiler of this depth that stands below some others. -/
theorem grows_compile (files : FileTree) (options : CompileOptions) (depth : Nat)
    (above : List Path) (isPage : Bool) (path : Path) (name : String)
    {g : ComponentGraph} (hg : g.Ordered) :
    Ran files options Any above g path.normalize name (compileSource files options depth above isPage path name g) :=
  compileSource_ran depth above isPage path (Or.inl trivial) hg

theorem compileImports_footprint {depth : Nat} {above : List Path} {importer : Path}
    {compile' : Path → String → ComponentGraph → Except SiteError Path × ComponentGraph}
    (hf : Follows files files' (compileSource files options depth above false) compile')
    {imports : List ImportReference} {done : List Path} {g g' : ComponentGraph} {children : List Path}
    (hg : g.Ordered)
    (h : compileImports (compileSource files options depth above false) importer imports done g = (.ok children, g'))
    (ha : AgreeOn files files' g') :
    g.Grows g' ∧ compileImports compile' importer imports done g = (.ok children, g') := by
  induction imports generalizing done g with
  | nil =>
    rw [compileImports] at h ⊢
    cases h
    exact ⟨.refl _, rfl⟩
  | cons i rest ih =>
    have hran := grows_compile files options depth above false (importer.resolveImport i.raw) i.displayName hg
    rw [compileImports] at h ⊢
    rcases hc : compileSource files options depth above false (importer.resolveImport i.raw) i.displayName g
      with ⟨result, g₁⟩
    rw [hc] at h hran
    cases result with
    | error e => cases h
    | ok child =>
      obtain ⟨hgrows, hrest⟩ := ih (hran.run.ordered hg) h
      refine ⟨hran.run.grows.trans hgrows, ?_⟩
      rw [hf _ _ g g₁ child hg hc (ha.of_grows hgrows)]
      exact hrest

/-- A compile that succeeds depends on the sources of its graph only. -/
theorem compileSource_footprint (depth : Nat) (above : List Path) (isPage : Bool) :
    Follows files files' (compileSource files options depth above isPage)
      (compileSource files' options depth above isPage) := by
  induction depth generalizing above isPage with
  | zero =>
    intro path name g g' key _ h _
    unfold compileSource at h ⊢
    exact h
  | succ depth ih =>
    intro path name g g' key hg h ha
    rw [compileSource_succ] at h ⊢
    split
    · rename_i hin
      rwa [if_pos hin] at h
    · rename_i hin
      rw [if_neg hin] at h
      split
      · rename_i hcycle
        rw [if_pos hcycle] at h
        cases h
      · rename_i hcycle
        rw [if_neg hcycle] at h
        cases hr : readSource files options isPage path.normalize with
        | error e => rw [hr] at h; cases h
        | ok source =>
          rw [hr] at h
          simp only at h
          rcases hi : compileImports (compileSource files options depth (path.normalize :: above) false)
            path.normalize source.scanned.imports [] g with ⟨result, g₁⟩
          rw [hi] at h
          cases result with
          | error e => cases h
          | ok children =>
            simp only [Prod.mk.injEq, Except.ok.injEq] at h
            obtain ⟨rfl, rfl⟩ := h
            have hgrows := g₁.grows_add (finish options g₁ path.normalize name source children)
            -- the source is one of the graph that comes of it, so both files hold the same there
            have hread : files'.read path.normalize = files.read path.normalize :=
              ha _ (by simp [ComponentGraph.keys, ComponentGraph.add])
            rw [readSource_congr hread, hr]
            simp only
            rw [(compileImports_footprint (ih _ _) hg hi (ha.of_grows hgrows)).2]

theorem read_of_mem_components {path key : Path} {name : String} {isPage : Bool} {depth : Nat}
    {g : ComponentGraph}
    (h : compileSource files options depth [] isPage path name ComponentGraph.empty = (.ok key, g)) :
    ∀ c ∈ g.components, files.read c.sourcePath = .ok (c.rawSource, c.modified) := by
  have hran := grows_compile files options depth [] isPage path name ComponentGraph.ordered_empty
  rw [h] at hran
  have hg := hran.run.ordered ComponentGraph.ordered_empty
  refine hran.run.forall_components (P := fun c => files.read c.sourcePath = .ok (c.rawSource, c.modified))
    ?_ ?_ (fun _ hk => hg.isKey_of_mem hk) (by simp [ComponentGraph.empty])
  · intro c name hc _
    obtain ⟨more, he⟩ := Component.Extends.bind c name
    rw [he]
    exact hc
  · intro g key name isPage source children _ hread
    exact (readSource_ok hread).1

end ComponentSite.Compile

namespace ComponentSite.Site
open Compile

variable {files files' : FileTree} {options : CompileOptions} {layout : String} {key : Path}

/-! ## Building a page -/

structure Built (files : FileTree) (options : CompileOptions) (layout : String) (key : Path) (e : CacheEntry)
    (root : Path) (g : ComponentGraph) (page : Component) (flat : List Component) : Prop where
  compiled : ComponentGraph.empty.compilePage files options key pageName = (.ok root, g)
  found : g.get? root = some page
  flattened : g.flatten root = .ok flat
  registered : CompiledPage.register root (pageTemplates layout page flat) TemplateSet.base = .ok e.page
  sources : e.sources = g.sources.map fun (path, modified) => (path, some modified)

theorem build_eq_ok {e : CacheEntry} :
    build files options layout key = .ok e ↔ ∃ root g page flat, Built files options layout key e root g page flat := by
  unfold build
  rcases hc : ComponentGraph.empty.compilePage files options key pageName with ⟨result, g⟩
  constructor
  · intro h
    cases result with
    | error cause => cases h
    | ok root =>
      simp only [bind, Except.bind] at h
      cases hp : g.get? root with
      | none => rw [hp] at h; cases h
      | some page =>
        rw [hp] at h
        simp only at h
        cases hf : g.flatten root with
        | error cause => rw [hf] at h; cases h
        | ok flat =>
          rw [hf] at h
          simp only at h
          cases hr : CompiledPage.register root (pageTemplates layout page flat) TemplateSet.base with
          | error cause => rw [hr] at h; cases h
          | ok compiled =>
            rw [hr] at h
            cases h
            exact ⟨root, g, page, flat, hc, hp, hf, hr, rfl⟩
  · rintro ⟨root, g', page, flat, hb⟩
    have hc' := hc.symm.trans hb.compiled
    cases hc'
    simp only [bind, Except.bind, hb.found, hb.flattened, hb.registered, ← hb.sources]
    rfl

theorem Built.entry_sources {e : CacheEntry} {root : Path} {g : ComponentGraph} {page : Component}
    {flat : List Component} (h : Built files options layout key e root g page flat) {k : Path} {t : Option Int} :
    (k, t) ∈ e.sources ↔ ∃ c ∈ g.components, c.sourcePath = k ∧ t = some c.modified := by
  simp only [h.sources, ComponentGraph.sources, List.map_map, List.mem_map, Function.comp_apply, Prod.mk.injEq]
  grind

/-- The time recorded for a source is the one it was read with. -/
theorem read_of_mem_sources {e : CacheEntry} (h : build files options layout key = .ok e) {k : Path}
    {t : Option Int} (hk : (k, t) ∈ e.sources) :
    ∃ raw modified, files.read k = .ok (raw, modified) ∧ t = some modified := by
  obtain ⟨root, g, page, flat, hb⟩ := build_eq_ok.mp h
  obtain ⟨c, hc, rfl, rfl⟩ := hb.entry_sources.mp hk
  exact ⟨c.rawSource, c.modified, read_of_mem_components hb.compiled c hc, rfl⟩

/-- A page depends on its sources only: files that hold the same there build the same page. -/
theorem build_footprint {e : CacheEntry} (h : build files options layout key = .ok e)
    (ha : ∀ k t, (k, t) ∈ e.sources → files'.read k = files.read k) :
    build files' options layout key = .ok e := by
  obtain ⟨root, g, page, flat, hb⟩ := build_eq_ok.mp h
  have hagree : AgreeOn files files' g := by
    intro k hk
    obtain ⟨c, hc, hck⟩ := ComponentGraph.mem_keys.mp hk
    exact ha k (some c.modified) (hb.entry_sources.mpr ⟨c, hc, hck, rfl⟩)
  have hcompiled := compileSource_footprint maxDepth [] true key pageName _ _ _ ComponentGraph.ordered_empty
    hb.compiled hagree
  exact build_eq_ok.mpr ⟨root, g, page, flat, hcompiled, hb.found, hb.flattened, hb.registered, hb.sources⟩

end ComponentSite.Site
