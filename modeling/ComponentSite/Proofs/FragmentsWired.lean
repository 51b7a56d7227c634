/-
  ComponentSite.Proofs.FragmentsWired — every fragment of a page has its template and its place.

  Where scope classes differ, the templates of a page are its fragments, those of each of its
  components, and the layout, all under names of their own (`templates_pageTemplates_eq`).
  What is put into a content names one of them (`includeFor_pageTemplates`). In the layout there
  is one point for each style and script, one for the content of the page, and none for that
  of a component (`occurrences_augment`): the points are counted as texts (`occurrences`), and
  as no point goes over a line feed, nor into another point (`not_prefix_point`), each is
  counted in its own line. Together they are `fragments_wired`.
-/
import ComponentSite.Proofs.PageMeaning
import ComponentSite.Proofs.PlacedIncludes
import Mathlib.Data.List.Infix

namespace ComponentSite

/-! ## Occurrences -/

namespace Text

def occurrences (needle text : List Char) : Nat := text.tails.countP fun t => needle.isPrefixOf t

variable {needle a b : List Char}

theorem occurrences_cons (needle : List Char) (c : Char) (r : List Char) :
    occurrences needle (c :: r) = (if needle <+: c :: r then 1 else 0) + occurrences needle r := by
  rw [occurrences, List.tails_cons, List.countP_cons, Nat.add_comm]
  simp only [List.isPrefixOf_iff_prefix]
  rfl

theorem occurrences_eq_zero (h : ¬ needle <:+: a) : occurrences needle a = 0 := by
  rw [occurrences, List.countP_eq_zero]
  intro t ht hp
  exact h ((List.isPrefixOf_iff_prefix.mp hp).isInfix.trans ((List.mem_tails t a).mp ht).isInfix)

theorem occurrences_append (hne : needle ≠ [])
    (h : ∀ u v, needle = u ++ v → u ≠ [] → v ≠ [] → u <:+ a → ¬ v <+: b) :
    occurrences needle (a ++ b) = occurrences needle a + occurrences needle b := by
  induction a with
  | nil => rw [List.nil_append, occurrences_eq_zero (fun hi => hne (List.infix_nil.mp hi)), Nat.zero_add]
  | cons c a ih =>
    have hstart : needle <+: c :: (a ++ b) ↔ needle <+: c :: a := by
      constructor
      · rintro ⟨after, e⟩
        rw [← List.cons_append] at e
        rcases List.append_eq_append_iff.mp e with ⟨w, hw, -⟩ | ⟨w, rfl, hb⟩
        · exact ⟨w, hw.symm⟩
        · by_cases hw : w = []
          · simp [hw]
          · exact absurd ⟨after, hb.symm⟩ (h _ w rfl (List.cons_ne_nil c a) hw (List.suffix_refl _))
      · exact fun hp => hp.trans (List.prefix_append (c :: a) b)
    have hrest := ih fun u v e hu hv hs => h u v e hu hv (hs.trans (List.suffix_cons c a))
    rw [List.cons_append, occurrences_cons, occurrences_cons, hrest]
    simp only [hstart]
    omega

/-- What has no line feed is counted line by line. -/
theorem occurrences_lineFeed (hne : needle ≠ []) (hfeed : '\n' ∉ needle) (a b : List Char) :
    occurrences needle (a ++ '\n' :: b) = occurrences needle a + occurrences needle b := by
  have hstart : ∀ v, v <:+ needle → v ≠ [] → ¬ v <+: '\n' :: b := by
    intro v hs hv hp
    have hhead : v.head hv = '\n' := by rw [hp.head hv]; rfl
    exact hfeed (hs.subset (hhead ▸ List.head_mem hv))
  rw [occurrences_append hne fun u v e _ hv _ => hstart v ⟨u, e.symm⟩ hv, occurrences_cons,
    if_neg (hstart needle (List.suffix_refl _) hne), Nat.zero_add]

end Text

/-! ## Insertion points -/

namespace Layout
open Text
open Template (openingTag closingTag)

/-- The number sign of a point stands in its start only. -/
theorem eq_nil_of_sharp {n u w : List Char} (hn : IsPlain n)
    (h : openingTag n ++ closingTag n = u ++ '\x7b' :: '\x7b' :: '#' :: w) : u = [] := by
  have hsharp : '#' ∉ '>' :: ' ' :: n ++ ['\x7d', '\x7d'] ++ closingTag n := by
    have : '#' ∉ n := fun hmem => absurd (hn _ hmem) (by decide)
    simp [closingTag, this]
  rw [openingTag] at h
  rcases u with _ | ⟨_, _ | ⟨_, _ | ⟨_, u⟩⟩⟩
  · rfl
  · cases h
  · cases h
  · have hmem : '#' ∈ u ++ '\x7b' :: '\x7b' :: '#' :: w := by simp
    simp only [List.cons_append, List.cons.injEq] at h
    rw [← h.2.2.2] at hmem
    exact absurd hmem hsharp

/-- No end of a point begins another one. -/
theorem not_prefix_point {n m u v : List Char} (hn : IsPlain n) (h : openingTag n ++ closingTag n = u ++ v)
    (hu : u ≠ []) (hv : v ≠ []) : ¬ v <+: openingTag m ++ closingTag m := by
  rintro ⟨after, e⟩
  have hlast : v.getLast? = some '\x7d' := by
    have hclosing : closingTag n = '\x7b' :: '\x7b' :: '/' :: n ++ ['\x7d'] ++ ['\x7d'] := by simp [closingTag]
    rw [← List.getLast?_append_of_ne_nil u hv, ← h, hclosing, ← List.append_assoc, List.getLast?_concat]
  rw [openingTag] at e
  rcases v with _ | ⟨_, _ | ⟨_, _ | ⟨_, w⟩⟩⟩
  · cases hlast
  · cases hlast
    cases e
  · cases hlast
    cases e
  · simp only [List.cons_append, List.cons.injEq] at e
    rw [e.1, e.2.1, e.2.2.1] at h
    exact hu (eq_nil_of_sharp hn h)

variable {kind kind' : FragmentKind} {x y : String}

theorem insertionPoint_ne_nil (kind : FragmentKind) (x : String) : (insertionPoint kind x).toList ≠ [] := by
  rw [toList_insertionPoint]
  exact List.cons_ne_nil _ _

theorem lineFeed_not_mem_insertionPoint (hx : IsPlain x.toList) : '\n' ∉ (insertionPoint kind x).toList := by
  have hname : '\n' ∉ (kind.nameFor x).toList := fun hmem => absurd (kind.isPlain_nameFor hx _ hmem) (by decide)
  rw [toList_insertionPoint]
  simp [Template.Token.source, openingTag, closingTag, hname]

/-- Points are told apart by their starts. -/
theorem insertionPoint_prefix_iff (kind kind' : FragmentKind) (hx : IsPlain x.toList) (hy : IsPlain y.toList) :
    (insertionPoint kind x).toList <+: (insertionPoint kind' y).toList ↔ kind = kind' ∧ x = y := by
  constructor
  · rintro ⟨after, e⟩
    rw [toList_insertionPoint, toList_insertionPoint] at e
    have e : includeRest (kind.nameFor x).toList ++ (closingTag (kind.nameFor x).toList ++ after) =
        includeRest (kind'.nameFor y).toList ++ closingTag (kind'.nameFor y).toList := by
      simpa [Template.Token.source, openingTag, includeRest] using e
    have hname := Composition.includeRest_inj (kind.isPlain_nameFor hx) (kind'.isPlain_nameFor hy) e
    exact FragmentKind.nameFor_inj (String.toList_injective hname)
  · rintro ⟨rfl, rfl⟩
    exact List.prefix_refl _

theorem occurrences_insertionPoint (hx : IsPlain x.toList) (hy : IsPlain y.toList) :
    occurrences (insertionPoint kind x).toList (insertionPoint kind' y).toList =
      if kind = kind' ∧ x = y then 1 else 0 := by
  have hstart := insertionPoint_prefix_iff kind kind' hx hy
  have hpoint := toList_insertionPoint kind' y
  cases hcut : (insertionPoint kind' y).toList with
  | nil => exact absurd hcut (insertionPoint_ne_nil kind' y)
  | cons c r =>
    have hrest : occurrences (insertionPoint kind x).toList r = 0 := by
      refine occurrences_eq_zero ?_
      rintro ⟨u, w, rfl⟩
      rw [hcut, toList_insertionPoint, Template.Token.source, openingTag] at hpoint
      simp only [List.append_assoc, List.cons_append] at hpoint
      cases eq_nil_of_sharp (u := c :: u) (kind'.isPlain_nameFor hy) hpoint.symm
    rw [occurrences_cons, ← hcut, hrest, Nat.add_zero]
    simp only [hstart]

theorem toList_pointLines_cons (kind : FragmentKind) (c : String) (classes : List String) :
    (pointLines kind (c :: classes)).toList =
      (insertionPoint kind c).toList ++ '\n' :: (pointLines kind classes).toList := by
  simp only [pointLines, List.map_cons, String.toList_join, List.flatMap_cons, String.toList_append]
  simp

theorem occurrences_pointLines (kind kind' : FragmentKind) (hx : IsPlain x.toList) {classes : List String}
    (hclasses : ∀ c ∈ classes, IsPlain c.toList)
    (after : List Char) :
    occurrences (insertionPoint kind x).toList ((pointLines kind' classes).toList ++ after) =
      (if kind = kind' then classes.count x else 0) + occurrences (insertionPoint kind x).toList after := by
  induction classes with
  | nil => simp [pointLines]
  | cons c classes ih =>
    rw [toList_pointLines_cons, List.append_assoc, List.cons_append,
      occurrences_lineFeed (insertionPoint_ne_nil kind x) (lineFeed_not_mem_insertionPoint hx),
      ih fun d hd => hclasses d (List.mem_cons_of_mem _ hd),
      occurrences_insertionPoint hx (hclasses c List.mem_cons_self)]
    rw [List.count_cons]
    by_cases hkind : kind = kind'
    · simp only [hkind, true_and, if_true, beq_iff_eq, eq_comm (a := c)]
      omega
    · simp [hkind]

theorem occurrences_pointLines_between (hx : IsPlain x.toList) {classes : List String}
    (hclasses : ∀ c ∈ classes, IsPlain c.toList)
    (hne : classes ≠ []) (before after : List Char) :
    occurrences (insertionPoint kind x).toList (before ++ (pointLines kind' classes).toList ++ after) =
      occurrences (insertionPoint kind x).toList before + (if kind = kind' then classes.count x else 0) +
        occurrences (insertionPoint kind x).toList after := by
  obtain ⟨c, classes, rfl⟩ := List.exists_cons_of_ne_nil hne
  have hborder : occurrences (insertionPoint kind x).toList (before ++ (insertionPoint kind' c).toList) =
      occurrences (insertionPoint kind x).toList before +
        occurrences (insertionPoint kind x).toList (insertionPoint kind' c).toList := by
    refine occurrences_append (insertionPoint_ne_nil kind x) fun u v e hu hv _ => ?_
    rw [toList_insertionPoint] at e ⊢
    exact not_prefix_point (kind.isPlain_nameFor hx) e hu hv
  have hlines := occurrences_pointLines kind kind' hx hclasses after
  rw [toList_pointLines_cons, List.append_assoc, List.cons_append,
    occurrences_lineFeed (insertionPoint_ne_nil kind x) (lineFeed_not_mem_insertionPoint hx)] at hlines
  rw [toList_pointLines_cons]
  have hcut : before ++ ((insertionPoint kind' c).toList ++ '\n' :: (pointLines kind' classes).toList) ++ after =
      (before ++ (insertionPoint kind' c).toList) ++ '\n' :: ((pointLines kind' classes).toList ++ after) := by simp
  rw [hcut, occurrences_lineFeed (insertionPoint_ne_nil kind x) (lineFeed_not_mem_insertionPoint hx), hborder]
  omega

def pointClasses (kind : FragmentKind) (page : Component) (flat : List Component) : List String :=
  if kind = .content then [page.scopeClass] else (page :: flat).map (·.scopeClass)

/-- A point that is not in the layout itself is there once for each of its classes. -/
theorem occurrences_augment {layout : String} {a : Anchored} (ha : a.Of layout.toList) {page : Component}
    {flat : List Component} (hplain : ∀ c ∈ page :: flat, IsPlain c.scopeClass.toList) (hx : IsPlain x.toList)
    (hlayout : ¬ (insertionPoint kind x).toList <:+: layout.toList) :
    occurrences (insertionPoint kind x).toList (augment layout page flat).toList =
      (pointClasses kind page flat).count x := by
  have hclasses : ∀ cls ∈ page.scopeClass :: flat.map (·.scopeClass), IsPlain cls.toList := by
    intro cls hcls
    obtain ⟨c, hc, rfl⟩ := List.mem_map.mp (show cls ∈ (page :: flat).map (·.scopeClass) from hcls)
    exact hplain c hc
  have hnone : ∀ s : List Char, s <:+: a.text → occurrences (insertionPoint kind x).toList s = 0 := fun s hs =>
    occurrences_eq_zero fun hi => hlayout (ha.text_eq ▸ hi.trans hs)
  have hstart := hnone a.start ⟨[], a.headEnd ++ a.between ++ a.bodyStart ++ a.inside ++ a.bodyEnd ++ a.rest,
    by simp [Anchored.text]⟩
  have hhead := hnone (a.headEnd ++ a.between ++ a.bodyStart)
    ⟨a.start, a.inside ++ a.bodyEnd ++ a.rest, by simp [Anchored.text]⟩
  have hinside := hnone a.inside ⟨a.start ++ a.headEnd ++ a.between ++ a.bodyStart,
    a.bodyEnd ++ a.rest, by simp [Anchored.text]⟩
  have hend := hnone (a.bodyEnd ++ a.rest) ⟨a.start ++ a.headEnd ++ a.between ++ a.bodyStart ++ a.inside,
    [], by simp [Anchored.text]⟩
  have htext : (augment layout page flat).toList =
      a.start ++ (pointLines .style (page.scopeClass :: flat.map (·.scopeClass))).toList ++
        ((a.headEnd ++ a.between ++ a.bodyStart) ++ '\n' :: ((pointLines .content [page.scopeClass]).toList ++
          (a.inside ++ (pointLines .script (page.scopeClass :: flat.map (·.scopeClass))).toList ++
            (a.bodyEnd ++ a.rest)))) := by
    rw [augment, withPoints_anchored ha hclasses]
    simp [Anchored.fill, Anchored.fillWith]
  rw [htext, occurrences_pointLines_between hx hclasses (List.cons_ne_nil _ _),
    occurrences_lineFeed (insertionPoint_ne_nil kind x) (lineFeed_not_mem_insertionPoint hx),
    occurrences_pointLines _ _ hx (List.forall_mem_singleton.mpr (hclasses _ List.mem_cons_self)),
    occurrences_pointLines_between hx hclasses (List.cons_ne_nil _ _), hstart, hhead, hinside, hend]
  unfold pointClasses
  cases kind <;> simp

end Layout

/-! ## The templates -/

namespace Composition

variable {page : Component} {flat : List Component}

/-- The fragments of a component as templates of a page: a content after the passes, and a
    script or a style as it is. -/
def templatesOf (flat : List Component) (c : Component) : List (String × String) :=
  c.fragments.map fun f =>
    (f.name, if f.kind = .content then replaceAll (flat.erase c) f.body else TemplateSet.verbatim f.body)

theorem map_modifyBody_content (change : String → String) {fragments : List Fragment}
    (h : (fragments.map (·.kind)).Nodup) :
    (Fragment.modifyBody .content change fragments).map (fun f => (f.name, TemplateSet.fragmentBody f)) =
      fragments.map fun f => (f.name, if f.kind = .content then change f.body else TemplateSet.verbatim f.body) := by
  have hother : ∀ f : Fragment, f.kind ≠ .content → TemplateSet.fragmentBody f = TemplateSet.verbatim f.body := by
    intro f hf
    unfold TemplateSet.fragmentBody
    split <;> simp_all
  induction fragments with
  | nil => rfl
  | cons f rest ih =>
    obtain ⟨hfirst, hrest⟩ := List.nodup_cons.mp h
    unfold Fragment.modifyBody
    by_cases hf : f.kind = .content
    · -- no other fragment is a content
      have hmap : rest.map (fun f => (f.name, TemplateSet.fragmentBody f)) =
          rest.map fun f => (f.name, if f.kind = .content then change f.body else TemplateSet.verbatim f.body) := by
        refine List.map_congr_left fun d hd => ?_
        have hd : d.kind ≠ .content := fun e => hfirst (List.mem_map.mpr ⟨d, hd, e.trans hf.symm⟩)
        rw [hother d hd, if_neg hd]
      have hbody : TemplateSet.fragmentBody { f with body := change f.body } = change f.body := by
        simp only [TemplateSet.fragmentBody, hf]
      rw [if_pos (beq_iff_eq.mpr hf), List.map_cons, List.map_cons, hmap, hbody, if_pos hf]
    · simp [hf, hother f hf, ih hrest]

theorem templates_pageTemplates_eq (h : Distinct page flat) (layout : String) :
    (Site.pageTemplates layout page flat).templates =
      (page :: flat).flatMap (templatesOf flat) ++ [(TemplateSet.base, Layout.augment layout page flat)] := by
  rw [templates_pageTemplates h, h.templates, List.map_flatMap]
  congr 1
  refine List.flatMap_congr fun c hc => ?_
  exact map_modifyBody_content _ (h.wellNamed c hc).kinds

theorem names_pageTemplates_nodup (h : Distinct page flat) (layout : String) :
    (Site.pageTemplates layout page flat).names.Nodup := by
  rw [TemplateSet.names, templates_pageTemplates h, h.templates, List.map_append, List.map_map]
  refine List.nodup_append.mpr ⟨h.names_nodup, List.nodup_singleton _, fun name hname base hbase => ?_⟩
  obtain ⟨f, hf, rfl⟩ := List.mem_map.mp hname
  obtain ⟨c, hc, hf⟩ := List.mem_flatMap.mp hf
  rw [List.mem_singleton.mp hbase]
  show f.name ≠ _
  rw [h.composed_name hc hf]
  exact nameFor_ne_base _ _

/-- What a component's elements become is an include of a template that is there. -/
theorem includeFor_pageTemplates (h : Distinct page flat) (layout : String) {c : Component} (hc : c ∈ page :: flat)
    (hplain : IsPlain c.scopeClass.toList) :
    includeFor c = "" ∨ ∃ n, ((Site.pageTemplates layout page flat).contains n = true ∧ IsPlain n.toList) ∧
      includeFor c = includeTag n := by
  cases hown : c.body? .content with
  | none => exact Or.inl (includeFor_of_no_content hown)
  | some own =>
    refine Or.inr ⟨c.contentName, ⟨?_, isPlain_contentName hplain⟩, includeFor_of_content (h.wellNamed c hc) hown⟩
    rw [TemplateSet.contains, Component.contentName, get?_pageTemplates h, h.get?_content hc, hown]
    rfl

/-- The components below a page are named by imports, whatever name the page has. -/
theorem isComponentName_of_flat {files : FileTree} {options : CompileOptions} {path root : Path} {name : String}
    {g : ComponentGraph} (hcompiled : ComponentGraph.empty.compilePage files options path name = (.ok root, g))
    (hpage : g.get? root = some page) (hflat : g.flatten root = .ok flat) :
    ∀ c ∈ flat, ∀ n ∈ c.names, Imports.isComponentName n.toList = true := by
  have hran := ComponentGraph.compile_ran files options true path name ComponentGraph.ordered_empty
  rw [← ComponentGraph.compilePage, hcompiled] at hran
  have hg := hran.run.ordered ComponentGraph.ordered_empty
  obtain ⟨rfl, -⟩ := hran.found root rfl
  -- only the page is asked for from outside; every other name stands in an import
  have hcalled : ∀ {key n}, key ≠ path.normalize →
      Compile.Called files options (ComponentGraph.AskedFor path name) key n →
      Imports.isComponentName n.toList = true := by
    rintro key n hkey (⟨hroot, -⟩ | ⟨isPage, importer, source, hread, i, hi, -, rfl⟩)
    · exact absurd hroot hkey
    · exact Imports.isComponentName_of_scan (Compile.readSource_ok hread).2.2.1 i hi
  have hnames : ∀ c ∈ g.components, c.sourcePath ≠ path.normalize →
      ∀ n ∈ c.names, Imports.isComponentName n.toList = true := by
    refine hran.run.forall_components ?_ ?_ (fun k hk => hg.isKey_of_mem hk) (by simp [ComponentGraph.empty])
    · intro c bound hc hbound hroot n hn
      unfold Component.bind at hn hroot
      split at hn
      · rename_i hin
        rw [if_pos hin] at hroot
        exact hc hroot n hn
      · rename_i hin
        rw [if_neg hin] at hroot
        rcases List.mem_cons.mp hn with rfl | hn
        · exact hc hroot _ List.mem_cons_self
        · rcases List.mem_append.mp hn with hn | hn
          · exact hc hroot n (List.mem_cons_of_mem _ hn)
          · rw [List.mem_singleton.mp hn]
            exact hcalled hroot hbound
    · intro g key first isPage source children hfirst _ hroot n hn
      obtain rfl : n = first := List.mem_singleton.mp hn
      exact hcalled hroot hfirst
  intro c hc
  obtain ⟨hmem, hdesc⟩ := (hg.mem_flat hpage hflat).mp hc
  have hroot : page.sourcePath = path.normalize := ((hg.get?_eq_some (Path.isKey_normalize path)).mp hpage).2
  refine hnames c hmem fun e => ?_
  rw [e, ← hroot] at hdesc
  exact hg.sourcePath_not_mem_descendants (ComponentGraph.mem_of_get? hpage) hdesc

theorem fragments_of_compiled {files : FileTree} {options : CompileOptions} {path root : Path} {name : String}
    {g : ComponentGraph} (hcompiled : ComponentGraph.empty.compilePage files options path name = (.ok root, g)) :
    ∀ c ∈ g.components, c.fragments = Fragment.generate c.scopeClass c.script c.markup c.style
      (options.webComponents.map (CustomElement.forPath c.sourcePath)) := by
  refine (ComponentGraph.reachable_of_compilePage hcompiled).forall_components ?_ ?_
  · intro c name hc
    obtain ⟨_, he⟩ := Component.Extends.bind c name
    rw [he]
    exact hc
  · intro files g key name isPage source children _
    exact Compile.finish_fragments options g key name source children

/-- In a compiled page whose scope classes differ, with a layout whose anchors are in order: the
    templates are the fragments of the page and of its components as generated, each under a name
    of its own, with the layout behind them; what tag passes put into a content are includes of
    templates that are there; and the layout has a point for every style and script, one for the
    content of the page, and no other, besides those that it is written with. -/
theorem fragments_wired {files : FileTree} {config : Config} {seed : Nat} {path root : Path} {name layout : String}
    {g : ComponentGraph} {page : Component} {flat : List Component} {a : Layout.Anchored}
    (hcompiled : ComponentGraph.empty.compilePage files (config.compileOptions seed) path name = (.ok root, g))
    (hpage : g.get? root = some page) (hflat : g.flatten root = .ok flat) (hclasses : ClassesDiffer page flat)
    (hanchors : a.Of layout.toList) :
    let set := Site.pageTemplates layout page flat
    (set.templates = (page :: flat).flatMap (templatesOf flat) ++
      [(TemplateSet.base, Layout.augment layout page flat)] ∧
        set.names.Nodup) ∧
      (∀ c ∈ page :: flat, c.fragments = Fragment.generate c.scopeClass c.script c.markup c.style
        ((config.compileOptions seed).webComponents.map (CustomElement.forPath c.sourcePath))) ∧
      (∀ t ∈ flat, includeFor t = "" ∨ ∃ n, set.contains n = true ∧ includeFor t = includeTag n) ∧
      (∀ c ∈ page :: flat, ∀ own ∈ c.body? .content,
        MadeOf (fun n => set.contains n = true) own (replaceAll (flat.erase c) own)) ∧
      ∀ (kind : FragmentKind) (x : String), IsPlain x.toList →
        ¬ (Layout.insertionPoint kind x).toList <:+: layout.toList →
        Text.occurrences (Layout.insertionPoint kind x).toList (Layout.augment layout page flat).toList =
          if x ∈ Layout.pointClasses kind page flat then 1 else 0 := by
  intro set
  have hreach := ComponentGraph.reachable_of_compilePage hcompiled
  have hmem : ∀ c ∈ page :: flat, c ∈ g.components := fun c hc => hreach.inv.1.mem_components hpage hflat hc
  have h : Distinct page flat := ⟨hclasses, fun c hc => hreach.wellNamed c (hmem c hc)⟩
  have hplain : ∀ c ∈ page :: flat, IsPlain c.scopeClass.toList := fun c hc =>
    hreach.scopeClass_eq c (hmem c hc) ▸ config.scopeStrategy.isPlain_classOf seed c.sourcePath
  have hinclude : ∀ t ∈ flat, includeFor t = "" ∨ ∃ n, (set.contains n = true ∧ IsPlain n.toList) ∧
      includeFor t = includeTag n :=
    fun t ht => includeFor_pageTemplates h layout (List.mem_cons_of_mem _ ht) (hplain t (List.mem_cons_of_mem _ ht))
  refine ⟨⟨templates_pageTemplates_eq h layout, names_pageTemplates_nodup h layout⟩,
    fun c hc => fragments_of_compiled hcompiled c (hmem c hc), fun t ht => ?_, fun c _ own _ => ?_, ?_⟩
  · exact (hinclude t ht).imp_right fun ⟨n, hn, e⟩ => ⟨n, hn.1, e⟩
  · have hplaceable : ∀ t ∈ flat.erase c, Placeable (fun n => set.contains n = true ∧ IsPlain n.toList) t := by
      intro t ht
      have ht := List.mem_of_mem_erase ht
      refine ⟨fun n hn => ?_, hinclude t ht⟩
      exact Imports.not_mem_componentName (isComponentName_of_flat hcompiled hpage hflat t ht n hn) (by decide)
    have hT : ∀ n, (set.contains n = true ∧ IsPlain n.toList) → '<' ∉ n.toList ∧ '>' ∉ n.toList := fun n hn =>
      ⟨(not_mem_of_isPlain hn.2).2, fun hb => absurd (hn.2 _ hb) (by decide)⟩
    obtain ⟨pieces, htext, hsub, hplaced⟩ := madeOf_replaceAll hT hplaceable own
    exact ⟨pieces, htext, hsub, fun n hn => (hplaced n hn).1⟩
  · intro kind x hx hlayout
    have hnodup : (Layout.pointClasses kind page flat).Nodup := by
      unfold Layout.pointClasses
      split
      · exact List.nodup_singleton _
      · exact hclasses
    rw [Layout.occurrences_augment hanchors hplain hx hlayout, hnodup.count]

/-- A page whose script speaks of a component that it shows twice. -/
theorem fragments_wired_of_script_with_tag :
    let files : FileTree := { entries := [
      (["p.goo"],
        .file (some "<script>import A from './a.goo'\nsay('<A/>')</script><component><A/><A/></component>") 1),
      (["a.goo"], .file (some "<style>b</style><component><i>a</i></component>") 1)] }
    let config : Config := { scopeStrategy := .hashed }
    let layout := "<head></head><body></body>"
    ∃ page flat, composed? files (config.compileOptions 0) ⟨"p.goo"⟩ Site.pageName = some (page, flat) ∧
      (Site.pageTemplates layout page flat).templates =
        (page :: flat).flatMap (templatesOf flat) ++ [(TemplateSet.base, Layout.augment layout page flat)] ∧
      (Site.pageTemplates layout page flat).size = 5 ∧
      Text.occurrences (Layout.insertionPoint .script page.scopeClass).toList
        (Layout.augment layout page flat).toList = 1 := by
  intro files config layout
  let a : Layout.Anchored := ⟨"<head>".toList, "</head>".toList, [], "<body>".toList, [], "</body>".toList, []⟩
  have hcheck : (composed? files (config.compileOptions 0) ⟨"p.goo"⟩ Site.pageName).any (fun t =>
      decide (ClassesDiffer t.1 t.2 ∧ (Site.pageTemplates layout t.1 t.2).size = 5 ∧
        t.1.scopeClass.toList.all Style.isMarkupNameChar = true)) = true := by
    rw [Config.compileOptions_hashed]
    decide +kernel
  cases hc : composed? files (config.compileOptions 0) ⟨"p.goo"⟩ Site.pageName with
  | none => rw [hc] at hcheck; cases hcheck
  | some found =>
    obtain ⟨page, flat⟩ := found
    rw [hc] at hcheck
    obtain ⟨hclasses, hsize, hplain⟩ := of_decide_eq_true hcheck
    obtain ⟨root, g, hcompiled, hpage, hflat⟩ := exists_of_composed? hc
    have hanchors : a.Of layout.toList := by decide
    obtain ⟨⟨htemplates, -⟩, -, -, -, hpoints⟩ := fragments_wired hcompiled hpage hflat hclasses hanchors
    have hlayout : ¬ (Layout.insertionPoint .script page.scopeClass).toList <:+: layout.toList := by
      intro hi
      have : '\x7b' ∈ layout.toList := hi.subset (by rw [Layout.toList_insertionPoint]; exact List.mem_cons_self)
      exact absurd this (by decide)
    refine ⟨page, flat, rfl, htemplates, hsize, ?_⟩
    rw [hpoints .script page.scopeClass (isPlain_of_all hplain) hlayout]
    simp [Layout.pointClasses]

end Composition

end ComponentSite
