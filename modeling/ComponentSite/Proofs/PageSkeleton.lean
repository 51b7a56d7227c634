/-
  ComponentSite.Proofs.PageSkeleton — the templates of a page are the same but for the scope
  classes in them.

  A page is compiled, flattened, composed and put into the layout (`Site.assemble`, which is
  all of building it but reading the templates: `Site.build_eq_assemble`) to the same outcome
  whatever the scope classes are. If it is assembled, there is one list of skeletons, with
  holes for the classes of the sources, and the templates are these, filled with any classes
  that tell the sources apart (`assembled_up_to_classes`). Drawn classes are such, as long as
  no two sources draw the same.

  The components are those of one compile, given the other classes (`Component.reclass`). Each
  is outlined (`outlined_reclass`), so each gives templates that are skeletons; that the classes
  differ is needed for the set to keep all of them.
-/
import ComponentSite.Proofs.Reclassing
import ComponentSite.Proofs.SkeletonLayout
import ComponentSite.Proofs.SkeletonStyle
import ComponentSite.Proofs.SkeletonTemplates

namespace ComponentSite
open Compile ComponentSite.Composition Skeleton

/-! ## Assembling a page -/

structure Assembled where
  root : Path
  sources : List (Path × Int)
  set : TemplateSet
  deriving DecidableEq

/-- Flattens the graph of a compile, composes the templates and puts them into the layout. -/
def Site.assembleGraph (layout : String) : Except SiteError Path × ComponentGraph → Except SiteError Assembled
  | (.error e, _) => .error e
  | (.ok root, graph) =>
    match graph.get? root with
    | none => .error (.malformedSource root (.described "page missing from component graph"))
    | some page => (graph.flatten root).map fun flat => ⟨root, graph.sources, pageTemplates layout page flat⟩

def Site.assemble (files : FileTree) (options : CompileOptions) (layout : String) (path : Path) (name : String) :
    Except SiteError Assembled :=
  assembleGraph layout (ComponentGraph.empty.compilePage files options path name)

theorem Site.build_eq_assemble (files : FileTree) (options : CompileOptions) (layout : String) (key : Path) :
    build files options layout key = (do
      let assembled ← assemble files options layout key pageName
      let page ← CompiledPage.register assembled.root assembled.set TemplateSet.base
      return { page, sources := assembled.sources.map fun (path, modified) => (path, some modified) }) := by
  unfold build assemble
  generalize ComponentGraph.empty.compilePage files options key pageName = compiled
  obtain ⟨result, graph⟩ := compiled
  cases result with
  | error e => rfl
  | ok root =>
    simp only [bind, Except.bind, assembleGraph]
    cases graph.get? root with
    | none => rfl
    | some page => cases graph.flatten root <;> rfl

/-! ## Components with other classes -/

theorem Component.reclass_fragments {options : CompileOptions} {c : Component} {sections : Sections}
    (h : Sections.extract options.markers c.rawSource c.sourcePath = .ok sections) :
    (c.reclass options).fragments =
      let result := Style.scope sections.style sections.markup (options.classOf c.sourcePath)
      let qualified := options.scopedStyles && !sections.style.isEmpty
      Fragment.generate (options.classOf c.sourcePath) c.script (if qualified then result.markup else sections.markup)
        (if qualified then result.style else sections.style)
          (options.webComponents.map (CustomElement.forPath c.sourcePath)) := by
  unfold reclass
  rw [h]
  unfold finish
  dsimp only
  split <;> rfl

/-- The fragments of a component depend on the classes as fillings do. -/
theorem outlined_reclass {S : Path → Prop} {options : CompileOptions} {c : Component} {sections : Sections}
    (h : Sections.extract options.markers c.rawSource c.sourcePath = .ok sections) (hsource : S c.sourcePath) :
    Outlined S fun classOf => c.reclass (options.withClasses classOf) := by
  obtain ⟨style, markup, hstyle, hmarkup, hscoped⟩ : ∃ style markup, Guarded S true style ∧ Guarded S true markup ∧
      ∀ classOf : Path → String,
        let result := Style.scope sections.style sections.markup (classOf c.sourcePath)
        let qualified := options.scopedStyles && !sections.style.isEmpty
        (if qualified then result.markup else sections.markup) = String.ofList (fill classOf markup) ∧
          (if qualified then result.style else sections.style) = String.ofList (fill classOf style) := by
    cases options.scopedStyles && !sections.style.isEmpty with
    | false =>
      refine ⟨ofChars sections.style.toList, ofChars sections.markup.toList,
        guarded_ofChars _ _, guarded_ofChars _ _, fun classOf => ?_⟩
      simp
    | true =>
      obtain ⟨style, markup, hstyle, hmarkup, e⟩ := exists_scope hsource sections.style sections.markup
      exact ⟨style, markup, hstyle.relax, hmarkup.relax, fun classOf => ⟨(e classOf).2, (e classOf).1⟩⟩
  obtain ⟨o, ho, e⟩ := exists_generate c.sourcePath c.script hmarkup hstyle
    (options.webComponents.map (CustomElement.forPath c.sourcePath))
  refine ⟨c.sourcePath, o, hsource, ho, fun classOf hn => ?_⟩
  have hfragments : (c.reclass (options.withClasses classOf)).fragments = _ := Component.reclass_fragments h
  rw [hfragments, ← e classOf hn, ← (hscoped classOf).1, ← (hscoped classOf).2]
  rfl

/-- The sections of every component can be told apart. -/
theorem ComponentGraph.Reachable.exists_sections {options : CompileOptions}
    {g : ComponentGraph} (h : Reachable options g) :
    ∀ c ∈ g.components, ∃ sections, Sections.extract options.markers c.rawSource c.sourcePath = .ok sections := by
  refine h.forall_components ?_ ?_
  · intro c name hc
    obtain ⟨_, he⟩ := Component.Extends.bind c name
    rw [he]
    exact hc
  · intro files g key name isPage source children hread
    exact ⟨source.sections, (readSource_ok hread).2.1⟩

theorem ComponentGraph.Reachable.scopeClass_reclass {options : CompileOptions}
    {g : ComponentGraph} (h : Reachable options g)
    (classOf : Path → String) {c : Component} (hc : c ∈ g.components) :
    (c.reclass (options.withClasses classOf)).scopeClass = classOf c.sourcePath := by
  obtain ⟨sections, hsections⟩ := h.exists_sections c hc
  have hsections : Sections.extract (options.withClasses classOf).markers c.rawSource c.sourcePath =
      .ok sections := hsections
  unfold Component.reclass
  rw [hsections]
  rfl

/-! ## The templates -/

theorem erase_map_of_injective {α β : Type} [DecidableEq α] [DecidableEq β] {f : α → β} {l : List α} {a : α}
    (h : ∀ b ∈ l, f b = f a → b = a) : (l.map f).erase (f a) = (l.erase a).map f := by
  induction l with
  | nil => rfl
  | cons b l ih =>
    by_cases hb : b = a
    · simp [hb]
    · have hf : f b ≠ f a := fun e => hb (h b List.mem_cons_self e)
      rw [List.map_cons, List.erase_cons_tail (by simpa using hf), List.erase_cons_tail (by simpa using hb),
        List.map_cons, ih fun d hd => h d (List.mem_cons_of_mem _ hd)]

theorem exists_flatMap {P : (Path → String) → Prop} {templates : (Path → String) → Component → List (String × String)}
    {l : List Component} (h : ∀ c ∈ l, ∃ skeletons : List (Skeleton × Skeleton), ∀ classOf, P classOf →
      templates classOf c = skeletons.map (template classOf)) :
    ∃ skeletons : List (Skeleton × Skeleton), ∀ classOf, P classOf →
      l.flatMap (templates classOf) = skeletons.map (template classOf) := by
  induction l with
  | nil => exact ⟨[], fun _ _ => rfl⟩
  | cons c rest ih =>
    obtain ⟨first, e⟩ := h c List.mem_cons_self
    obtain ⟨others, e'⟩ := ih fun d hd => h d (List.mem_cons_of_mem _ hd)
    exact ⟨first ++ others, fun classOf hp => by rw [List.flatMap_cons, e classOf hp, e' classOf hp, List.map_append]⟩

structure Assigns (sources : List Path) (classOf : Path → String) : Prop where
  named : ∀ p ∈ sources, IsClassName (classOf p)
  injective : ∀ p ∈ sources, ∀ q ∈ sources, classOf p = classOf q → p = q

section Page

variable {files : FileTree} {options : CompileOptions} {path root : Path} {name : String} {g : ComponentGraph}
  {page : Component} {flat : List Component}
  (hcompiled : ComponentGraph.empty.compilePage files options path name = (.ok root, g))
  (hpage : g.get? root = some page) (hflat : g.flatten root = .ok flat)
include hcompiled hpage hflat

theorem mem_graph {c : Component} (hc : c ∈ page :: flat) : c ∈ g.components :=
  (ComponentGraph.reachable_of_compilePage hcompiled).inv.1.mem_components hpage hflat hc

theorem sourcePath_mem_keys {c : Component} (hc : c ∈ page :: flat) : c.sourcePath ∈ g.keys :=
  ComponentGraph.mem_keys.mpr ⟨c, mem_graph hcompiled hpage hflat hc, rfl⟩

theorem scopeClass_of_page (classOf : Path → String) {c : Component} (hc : c ∈ page :: flat) :
    (c.reclass (options.withClasses classOf)).scopeClass = classOf c.sourcePath :=
  (ComponentGraph.reachable_of_compilePage hcompiled).scopeClass_reclass classOf (mem_graph hcompiled hpage hflat hc)

/-- With classes that tell the sources apart, a page is composed of templates of different names. -/
theorem distinct_reclass {classOf : Path → String} (h : Assigns g.keys classOf) :
    Distinct (page.reclass (options.withClasses classOf)) (flat.map (·.reclass (options.withClasses classOf))) := by
  have hg := (ComponentGraph.reachable_of_compilePage hcompiled).inv.1
  have hmem : ∀ c ∈ page :: flat, c ∈ g.components := fun c hc => mem_graph hcompiled hpage hflat hc
  have hkey : ∀ c ∈ page :: flat, c.sourcePath ∈ g.keys := fun c hc => sourcePath_mem_keys hcompiled hpage hflat hc
  have hclass : ∀ c ∈ page :: flat, (c.reclass (options.withClasses classOf)).scopeClass = classOf c.sourcePath :=
    fun c hc => scopeClass_of_page hcompiled hpage hflat classOf hc
  have hnodup : (page :: flat).Nodup := by
    refine List.nodup_cons.mpr ⟨fun hin => ?_, hg.nodup_flat hpage hflat⟩
    exact hg.sourcePath_not_mem_descendants (ComponentGraph.mem_of_get? hpage) ((hg.mem_flat hpage hflat).mp hin).2
  constructor
  · show (((page :: flat).map (·.reclass (options.withClasses classOf))).map (·.scopeClass)).Nodup
    rw [List.map_map, List.map_congr_left (g := fun c => classOf c.sourcePath) hclass]
    refine hnodup.map_on fun c hc d hd e => hg.eq_of_sourcePath (hmem c hc) (hmem d hd) ?_
    exact h.injective _ (hkey c hc) _ (hkey d hd) e
  · intro d hd
    obtain ⟨c, hc, rfl⟩ : ∃ c ∈ page :: flat, c.reclass (options.withClasses classOf) = d := List.mem_map.mp hd
    have hother := ComponentGraph.compilePage_reclass files options classOf path name
    rw [hcompiled] at hother
    exact (ComponentGraph.reachable_of_compilePage hother).wellNamed _ (List.mem_map_of_mem (hmem c hc))

theorem outlined_of_page {c : Component} (hc : c ∈ page :: flat) :
    Outlined (· ∈ g.keys) fun classOf => c.reclass (options.withClasses classOf) := by
  obtain ⟨sections, hsections⟩ :=
    (ComponentGraph.reachable_of_compilePage hcompiled).exists_sections c (mem_graph hcompiled hpage hflat hc)
  exact outlined_reclass hsections (sourcePath_mem_keys hcompiled hpage hflat hc)

theorem placed_of_flat {c : Component} (hc : c ∈ flat) :
    Placed (· ∈ g.keys) fun classOf => c.reclass (options.withClasses classOf) := by
  refine ⟨outlined_of_page hcompiled hpage hflat (List.mem_cons_of_mem _ hc),
    c.names, fun n hn => ?_, fun classOf => c.reclass_names _⟩
  exact isWord_of_isComponentName (isComponentName_of_flat hcompiled hpage hflat c hc n hn)

/-- Other classes leave the same components to compose one with. -/
theorem erase_reclass (options' : CompileOptions) {c : Component} (hc : c ∈ page :: flat) :
    (flat.map (·.reclass options')).erase (c.reclass options') = (flat.erase c).map (·.reclass options') := by
  have hg := (ComponentGraph.reachable_of_compilePage hcompiled).inv.1
  refine erase_map_of_injective fun d hd hsame => ?_
  refine hg.eq_of_sourcePath (mem_graph hcompiled hpage hflat (List.mem_cons_of_mem _ hd))
    (mem_graph hcompiled hpage hflat hc) ?_
  have := congrArg Component.sourcePath hsame
  rwa [Component.reclass_sourcePath, Component.reclass_sourcePath] at this

theorem exists_templatesOf {c : Component} (hc : c ∈ page :: flat) :
    ∃ skeletons : List (Skeleton × Skeleton), ∀ classOf, Assigns g.keys classOf →
      templatesOf (flat.map (·.reclass (options.withClasses classOf))) (c.reclass (options.withClasses classOf)) =
        skeletons.map (template classOf) := by
  have htargets : ∀ target ∈ (flat.erase c).map fun d classOf => d.reclass (options.withClasses classOf),
      Placed (· ∈ g.keys) target := by
    intro target htarget
    obtain ⟨d, hd, rfl⟩ := List.mem_map.mp htarget
    exact placed_of_flat hcompiled hpage hflat (List.mem_of_mem_erase hd)
  obtain ⟨skeletons, e⟩ := exists_templates (outlined_of_page hcompiled hpage hflat hc) htargets
  refine ⟨skeletons, fun classOf h => ?_⟩
  have e := e classOf h.named
  rw [List.map_map] at e
  rw [templatesOf, erase_reclass hcompiled hpage hflat _ hc]
  exact e

theorem exists_pageTemplates (layout : String) :
    ∃ skeletons : List (Skeleton × Skeleton), ∀ classOf, Assigns g.keys classOf →
      (Site.pageTemplates layout (page.reclass (options.withClasses classOf))
        (flat.map (·.reclass (options.withClasses classOf)))).templates = skeletons.map (template classOf) := by
  have hkey : ∀ c ∈ page :: flat, c.sourcePath ∈ g.keys := fun c hc => sourcePath_mem_keys hcompiled hpage hflat hc
  obtain ⟨owns, howns⟩ := exists_flatMap fun c hc => exists_templatesOf hcompiled hpage hflat hc
  have hsources : ∀ source ∈ flat.map (·.sourcePath), source ∈ g.keys := by
    intro source hsource
    obtain ⟨c, hc, rfl⟩ := List.mem_map.mp hsource
    exact hkey c (List.mem_cons_of_mem _ hc)
  obtain ⟨base, hbase⟩ := exists_withPoints layout (hkey page List.mem_cons_self) hsources
  refine ⟨owns ++ [(ofChars TemplateSet.base.toList, base)], fun classOf h => ?_⟩
  have hclass : ∀ c ∈ page :: flat, (c.reclass (options.withClasses classOf)).scopeClass = classOf c.sourcePath :=
    fun c hc => scopeClass_of_page hcompiled hpage hflat classOf hc
  rw [templates_pageTemplates_eq (distinct_reclass hcompiled hpage hflat h),
    List.map_append, ← howns classOf h, ← List.map_cons, List.flatMap_map]
  have hclasses : (flat.map (·.reclass (options.withClasses classOf))).map (·.scopeClass) =
      (flat.map (·.sourcePath)).map classOf := by
    rw [List.map_map, List.map_map]
    exact List.map_congr_left fun c hc => hclass c (List.mem_cons_of_mem _ hc)
  have hbase := hbase classOf h.named
  rw [← hclass page List.mem_cons_self, ← hclasses] at hbase
  rw [List.map_cons, List.map_nil, template, fill_ofChars, String.ofList_toList, ← hbase, String.ofList_toList]
  rfl

end Page

theorem Site.assembleGraph_reclass (options : CompileOptions) (layout : String) (root : Path) (g : ComponentGraph) :
    assembleGraph layout (.ok root, g.reclass options) =
      match g.get? root with
      | none => .error (.malformedSource root (.described "page missing from component graph"))
      | some page => (g.flatten root).map fun flat =>
          ⟨root, g.sources, pageTemplates layout (page.reclass options) (flat.map (·.reclass options))⟩ := by
  rw [assembleGraph, ComponentGraph.get?_reclass, ComponentGraph.flatten_reclass, ComponentGraph.sources_reclass]
  cases g.get? root with
  | none => rfl
  | some page => cases g.flatten root <;> rfl

/-- A page is assembled to the same outcome whatever the scope classes are: the same failure, or
    the same root and sources, and then templates that are one list of skeletons filled with the
    classes, whenever these tell the sources apart. Drawn classes do so if no two are equal. -/
theorem assembled_up_to_classes (files : FileTree) (options : CompileOptions)
    (layout : String) (path : Path) (name : String) :
    (∃ e, ∀ classOf, Site.assemble files (options.withClasses classOf) layout path name = .error e) ∨
      ∃ (root : Path) (sources : List (Path × Int)) (skeletons : List (Skeleton × Skeleton)),
        (∀ classOf, ∃ set, Site.assemble files (options.withClasses classOf) layout path name =
          .ok ⟨root, sources, set⟩ ∧
          (Assigns (sources.map (·.1)) classOf → set.templates = skeletons.map (template classOf))) ∧
        ∀ seed, ((sources.map (·.1)).map (ScopeStrategy.random.classOf seed)).Nodup →
          Site.assemble files (options.withClasses (ScopeStrategy.random.classOf seed)) layout path name =
            .ok ⟨root, sources, ⟨skeletons.map (template (ScopeStrategy.random.classOf seed))⟩⟩ := by
  unfold Site.assemble
  simp only [ComponentGraph.compilePage_reclass files options]
  rcases hcompiled : ComponentGraph.empty.compilePage files options path name with ⟨result, g⟩
  cases result with
  | error e => exact Or.inl ⟨e, fun _ => rfl⟩
  | ok root =>
    simp only [Site.assembleGraph_reclass]
    cases hpage : g.get? root with
    | none => exact Or.inl ⟨_, fun _ => rfl⟩
    | some page =>
      cases hflat : g.flatten root with
      | error e => exact Or.inl ⟨e, fun _ => rfl⟩
      | ok flat =>
        obtain ⟨skeletons, e⟩ := exists_pageTemplates hcompiled hpage hflat layout
        have hkeys : g.sources.map (·.1) = g.keys := by
          rw [ComponentGraph.sources, List.map_map]
          rfl
        refine Or.inr ⟨root, g.sources, skeletons, fun classOf => ⟨_, rfl, fun h => e classOf (hkeys ▸ h)⟩,
          fun seed hnodup => ?_⟩
        have hassigns : Assigns g.keys (ScopeStrategy.random.classOf seed) :=
          ⟨fun p _ => ScopeStrategy.random.isClassName_classOf seed p, List.inj_on_of_nodup_map (hkeys ▸ hnodup)⟩
        rw [← e _ hassigns]
        rfl

/-- A page with a styled component that it shows twice, under classes of other lengths. -/
theorem assembled_of_two_assignments :
    let files : FileTree := { entries := [
      (["p.goo"], .file
        (some "<script>import A from './a.goo'</script><component><A/><i class='x'>p</i><A/></component>") 1),
      (["a.goo"], .file (some "<style>b:hover, .x { top: 0 }</style><component><b class='x'>a</b></component>") 1)] }
    let options : CompileOptions := { classOf := fun p => p.text }
    let short (p : Path) : String := if p = ⟨"p.goo"⟩ then "x" else "b"
    let long (p : Path) : String := if p = ⟨"p.goo"⟩ then "goo-1-page" else "goo-2"
    let templates (classOf : Path → String) : Except SiteError (List (String × String)) :=
      (Site.assemble files (options.withClasses classOf) "<head></head><body></body>" ⟨"p.goo"⟩ "Page").map
        (·.set.templates)
    ∃ skeletons : List (Skeleton × Skeleton), skeletons.length = 4 ∧
      templates short = .ok (skeletons.map (template short)) ∧
      templates long = .ok (skeletons.map (template long)) := by
  intro files options short long templates
  have hsources : ((Site.assemble files (options.withClasses short) "<head></head><body></body>"
      ⟨"p.goo"⟩ "Page").toOption.map
      fun a => (a.sources.map (·.1), a.set.templates.length)) = some ([⟨"a.goo"⟩, ⟨"p.goo"⟩], 4) := by decide +kernel
  rcases assembled_up_to_classes files options "<head></head><body></body>" ⟨"p.goo"⟩ "Page" with
    ⟨e, herror⟩ | ⟨root, sources, skeletons, hassembled, -⟩
  · rw [herror short] at hsources
    cases hsources
  · obtain ⟨first, hfirst, efirst⟩ := hassembled short
    obtain ⟨second, hsecond, esecond⟩ := hassembled long
    rw [hfirst] at hsources
    obtain ⟨hpaths, hlength⟩ := Prod.mk.inj (Option.some.inj hsources)
    rw [hpaths] at efirst esecond
    have efirst := efirst ⟨by decide +kernel, by decide +kernel⟩
    have esecond := esecond ⟨by decide +kernel, by decide +kernel⟩
    refine ⟨skeletons, ?_, ?_, ?_⟩
    · rw [← hlength, efirst, List.length_map]
    · simp only [templates, hfirst, Except.map, efirst]
    · simp only [templates, hsecond, Except.map, esecond]

end ComponentSite
