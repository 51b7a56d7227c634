/-
  ComponentSite.Proofs.PageMeaning — what a page of a site is rendered as.

  A page whose sources are well written and whose layout has its anchors in order is
  built, and whatever its data it is rendered, up to white space, as its layout with the
  styles of the page and its components before the end of the head, what the page expands
  to after the start of the body, and the scripts before the last end of the body
  (`rendered_page_expands`). Every template of such a page can be read, and what each of
  them gives is known by its name (`Registered`); the nodes of the layout alone are more
  than templates can be nested in each other.
-/
import ComponentSite.Proofs.Footprint
import ComponentSite.Proofs.LayoutPoints
import ComponentSite.Proofs.PageExpansion
import ComponentSite.Site

namespace ComponentSite
open Text Template ComponentGraph
open ComponentSite.Composition (composePage Distinct replaceAll)

/-! ## The templates of a page -/

theorem CompiledPage.readAll_ok {templates : List (String × String)}
    (h : ∀ t ∈ templates, ∃ nodes, read? t.2 = .ok nodes) :
    ∃ registry, readAll templates = .ok registry ∧
      ∀ name, Registered registry name (TemplateSet.get? ⟨templates⟩ name) := by
  induction templates with
  | nil => exact ⟨[], rfl, fun _ => rfl⟩
  | cons t rest ih =>
    obtain ⟨title, body⟩ := t
    obtain ⟨nodes, hnodes⟩ := h _ List.mem_cons_self
    obtain ⟨registry, hread, hreg⟩ := ih fun t ht => h t (List.mem_cons_of_mem _ ht)
    refine ⟨(title, nodes) :: registry, ?_, fun name => ?_⟩
    · unfold readAll
      rw [show read? body = .ok nodes from hnodes, hread]
      rfl
    · by_cases hname : title = name
      · have hget : TemplateSet.get? ⟨(title, body) :: rest⟩ name = some body := by simp [TemplateSet.get?, hname]
        rw [hget]
        exact ⟨nodes, title, hnodes, by simp [hname]⟩
      · have hget : TemplateSet.get? ⟨(title, body) :: rest⟩ name = TemplateSet.get? ⟨rest⟩ name := by
          simp [TemplateSet.get?, hname]
        have hfind : ((title, nodes) :: registry).find? (·.1 == name) = registry.find? (·.1 == name) := by simp [hname]
        have := hreg name
        rw [hget]
        unfold Registered at this ⊢
        rwa [hfind]

section Set

variable {page : Component} {flat : List Component} (h : Distinct page flat) (layout : String)
include h

theorem templates_pageTemplates : (Site.pageTemplates layout page flat).templates =
    (composePage page flat).templates ++ [(TemplateSet.base, Layout.augment layout page flat)] := by
  rw [Site.pageTemplates, TemplateSet.insert_of_not_mem h.base_not_mem]

theorem get?_pageTemplates (kind : FragmentKind) (scopeClass : String) :
    (Site.pageTemplates layout page flat).get? (kind.nameFor scopeClass) =
      (composePage page flat).get? (kind.nameFor scopeClass) :=
  TemplateSet.get?_insert_of_ne h.base_not_mem (nameFor_ne_base kind scopeClass).symm _

theorem get?_base : (Site.pageTemplates layout page flat).get? TemplateSet.base =
    some (Layout.augment layout page flat) :=
  TemplateSet.get?_insert_self h.base_not_mem _

end Set

/-! ## Scripts and styles -/

/-- Around a text without a mark there may be anything that shares no character with it. -/
theorem Text.Lacks.surround {mark u s v : List Char} (h : Lacks mark s) (hne : mark ≠ []) (hu : ∀ x ∈ u, x ∉ mark)
    (hv : ∀ x ∈ v, x ∉ mark) : Lacks mark (u ++ s ++ v) := by
  have apart : ∀ {t w : List Char}, t ≠ [] → t ⊆ mark → (∀ x ∈ w, x ∉ mark) → ¬ t ⊆ w := by
    intro t w ht hmark hw hsub
    obtain ⟨x, hx⟩ := List.exists_mem_of_ne_nil t ht
    exact hw x (hsub hx) (hmark hx)
  intro hi
  rw [List.append_assoc] at hi
  rcases List.infix_append_iff_ne_nil.mp hi with hi | hi | ⟨t₁, t₂, h1, _, rfl, hs, _⟩
  · exact apart hne (List.Subset.refl _) hu hi.subset
  · rcases List.infix_append_iff_ne_nil.mp hi with hi | hi | ⟨t₁, t₂, _, h2, rfl, _, hp⟩
    · exact h hi
    · exact apart hne (List.Subset.refl _) hv hi.subset
    · exact apart h2 (List.subset_append_right t₁ t₂) hv hp.subset
  · exact apart h1 (List.subset_append_left t₁ t₂) hu hs.subset

section Page

variable {options : CompileOptions} {g : ComponentGraph} {root : Path} {page : Component} {flat : List Component}
  {tree : Component → Markup} (h : Flattened options g root page flat) (hw : WellWritten options page flat tree)
include h hw

/-- Nothing in a script or style means something to the reader. -/
theorem verbatim_of_body? {c : Component} (hc : c ∈ page :: flat) {kind : FragmentKind} (hkind : kind ≠ .content)
    {body : String} (hbody : c.body? kind = some body) : Verbatim body.toList := by
  have htagged : ∀ (opening closing text : String), Lacks ['\x7b', '\x7b'] text.toList → '\x7b' ∉ opening.toList →
      '\x7b' ∉ closing.toList → closing.toList.getLast? = some '>' →
        Verbatim (opening ++ trimmed text ++ closing).toList := by
    intro opening closing text htext hopening hclosing hlast
    rw [String.toList_append, String.toList_append, trimmed, String.toList_ofList]
    have hmark : ∀ {s : List Char}, '\x7b' ∉ s → ∀ x ∈ s, x ∉ ['\x7b', '\x7b'] := by
      intro s hs x hx hmem
      obtain rfl : x = '\x7b' := by simpa using hmem
      exact hs hx
    refine ⟨(htext.of_part (trim_isInfix _)).surround (by decide) (hmark hopening) (hmark hclosing), ?_⟩
    rw [List.getLast?_append, hlast, Option.some_or]
    decide
  obtain ⟨hscript, _, hstyle⟩ := Component.body?_of_generate (h.fragments c (h.mem_components hc))
  cases kind with
  | content => exact absurd rfl hkind
  | script =>
    rw [hscript] at hbody
    split at hbody
    · cases hbody
    · cases hbody
      exact htagged _ _ _ (hw.script c hc) (by decide) (by decide) (by decide)
  | style =>
    rw [hstyle] at hbody
    split at hbody
    · cases hbody
    · cases hbody
      exact htagged _ _ _ (hw.style c hc) (by decide) (by decide) (by decide)

theorem answers_verbatim {registry : List (String × List Node)} {c : Component}
    (hc : c ∈ page :: flat) {kind : FragmentKind}
    (hkind : kind ≠ .content)
    (hregistry : Registered registry (kind.nameFor c.scopeClass)
      ((composePage page flat).get? (kind.nameFor c.scopeClass))) :
    Answers registry 2 (kind.nameFor c.scopeClass) (withoutBlanks ((c.body? kind).getD "").toList) := by
  rw [h.distinct.get?_verbatim hc hkind] at hregistry
  cases hbody : c.body? kind with
  | none =>
    rw [hbody] at hregistry
    exact .missing hregistry
  | some body =>
    rw [hbody] at hregistry
    obtain ⟨nodes, n, hread, hfind⟩ := hregistry
    obtain rfl := Except.ok.inj (hread.symm.trans (read?_raw (verbatim_of_body? h hw hc hkind hbody).raw))
    rw [Option.getD_some, ← withoutBlanks_skipSpace]
    exact .found hfind (gives_raw (skipSpace body.toList))

theorem read?_fragment : ∀ t ∈ (composePage page flat).templates, ∃ nodes, read? t.2 = .ok nodes := by
  intro t ht
  rw [h.distinct.templates] at ht
  obtain ⟨f, hf, rfl⟩ := List.mem_map.mp ht
  obtain ⟨c, hc, hf⟩ := List.mem_flatMap.mp hf
  have hget := h.distinct.get?_eq_some.mpr ⟨c, hc, f, hf, rfl, rfl⟩
  rw [h.distinct.composed_name hc hf] at hget
  by_cases hkind : f.kind = .content
  · rw [hkind, h.distinct.get?_content hc, Option.map_eq_some_iff] at hget
    obtain ⟨own, hown, e⟩ := hget
    rw [(Component.body?_of_generate (h.fragments c (h.mem_components hc))).2.1] at hown
    obtain rfl : trimmed c.markup = own := by
      split at hown
      · cases hown
      · exact Option.some.inj hown
    obtain ⟨body, hbody⟩ := exists_expands h hw c hc
    obtain ⟨target, _, hbinds, _⟩ := hbody.exists_fill
    obtain ⟨m, hm, halike⟩ := (tree c).exists_alike_trim
    rw [hw.text c hc] at hm
    obtain ⟨nodes, hnodes, _⟩ := read?_written (readable_content h hw hc hbinds hm halike)
    rw [← toList_content h hw hc hbinds hm halike, String.ofList_toList, e] at hnodes
    exact ⟨nodes, hnodes⟩
  · rw [h.distinct.get?_verbatim hc hkind, Option.map_eq_some_iff] at hget
    obtain ⟨body, hbody, e⟩ := hget
    exact ⟨_, e ▸ read?_raw (verbatim_of_body? h hw hc hkind hbody).raw⟩

end Page

/-! ## The layout -/

open Layout (Anchored pointTokens)

def fragmentTexts (kind : FragmentKind) (owners : List Component) : List Char :=
  owners.flatMap fun c => ((c.body? kind).getD "").toList

def layoutTokens (a : Anchored) (page : Component) (flat : List Component) : List Token :=
  a.fillWith .char (pointTokens .style ((page :: flat).map (·.scopeClass)))
    (.char '\n' :: pointTokens .content [page.scopeClass]) (pointTokens .script ((page :: flat).map (·.scopeClass)))

section Points

variable {a : Anchored} {page : Component} {flat : List Component}

theorem toList_augment {layout : String} (ha : a.Of layout.toList)
    (hplain : ∀ c ∈ page :: flat, IsPlain c.scopeClass.toList) :
    (Layout.augment layout page flat).toList = Token.written (layoutTokens a page flat) := by
  have hplain : ∀ cls ∈ page.scopeClass :: flat.map (·.scopeClass), IsPlain cls.toList := by
    intro cls hcls
    obtain ⟨c, hc, rfl⟩ := List.mem_map.mp (show cls ∈ (page :: flat).map (·.scopeClass) from hcls)
    exact hplain c hc
  have hpoints : ∀ kind classes, (pointTokens kind classes).flatMap Token.source =
      (Layout.pointLines kind classes).toList.flatMap fun c => [c] := by
    intro kind classes
    rw [List.flatMap_singleton', Layout.toList_pointLines]
    rfl
  have hfill : Token.written (layoutTokens a page flat) =
      (a.fill (Layout.pointLines .style (page.scopeClass :: flat.map (·.scopeClass))).toList
        ('\n' :: (Layout.pointLines .content [page.scopeClass]).toList)
        (Layout.pointLines .script (page.scopeClass :: flat.map (·.scopeClass))).toList).flatMap fun c => [c] := by
    refine Anchored.flatMap_fillWith (fun _ => rfl) (hpoints _ _) ?_ (hpoints _ _)
    rw [List.flatMap_cons, List.flatMap_cons, hpoints]
    rfl
  rw [hfill, List.flatMap_singleton']
  exact Layout.withPoints_anchored ha hplain

theorem mem_pointTokens {kind : FragmentKind} {owners : List Component} {t : Token}
    (ht : t ∈ pointTokens kind (owners.map (·.scopeClass))) :
    t = .char '\n' ∨ ∃ c ∈ owners, t = .point (kind.nameFor c.scopeClass) := by
  obtain ⟨cls, hcls, ht⟩ := List.mem_flatMap.mp ht
  obtain ⟨c, hc, rfl⟩ := List.mem_map.mp hcls
  rcases List.mem_cons.mp ht with rfl | ht
  · exact Or.inr ⟨c, hc, rfl⟩
  · exact Or.inl (List.mem_singleton.mp ht)

theorem mem_layoutTokens {t : Token} (ht : t ∈ layoutTokens a page flat) :
    (∃ x ∈ '\n' :: a.text, t = .char x) ∨ t = .point page.contentName ∨
      ∃ c ∈ page :: flat, ∃ kind : FragmentKind, kind ≠ .content ∧ t = .point (kind.nameFor c.scopeClass) := by
  have hpoints : ∀ kind : FragmentKind, kind ≠ .content → t ∈ pointTokens kind ((page :: flat).map (·.scopeClass)) →
      (∃ x ∈ '\n' :: a.text, t = .char x) ∨ t = .point page.contentName ∨
        ∃ c ∈ page :: flat, ∃ kind : FragmentKind, kind ≠ .content ∧ t = .point (kind.nameFor c.scopeClass) := by
    intro kind hkind ht
    rcases mem_pointTokens ht with rfl | ⟨c, hc, rfl⟩
    · exact Or.inl ⟨_, List.mem_cons_self, rfl⟩
    · exact Or.inr (Or.inr ⟨c, hc, kind, hkind, rfl⟩)
  rcases Anchored.mem_fillWith ht with ⟨x, hx, rfl⟩ | ht | ht | ht
  · exact Or.inl ⟨x, List.mem_cons_of_mem _ hx, rfl⟩
  · exact hpoints .style (by decide) ht
  · rcases List.mem_cons.mp ht with rfl | ht
    · exact Or.inl ⟨_, List.mem_cons_self, rfl⟩
    · have ht : t ∈ pointTokens .content ([page].map (·.scopeClass)) := ht
      rcases mem_pointTokens ht with rfl | ⟨c, hc, rfl⟩
      · exact Or.inl ⟨_, List.mem_cons_self, rfl⟩
      · obtain rfl := List.mem_singleton.mp hc
        exact Or.inr (Or.inl rfl)
  · exact hpoints .script (by decide) ht

/-- There is a point for the style of every component. -/
theorem length_le_layoutTokens (a : Anchored) (page : Component) (flat : List Component) :
    flat.length + 1 ≤ (layoutTokens a page flat).countP Token.isName := by
  have hpoints : ∀ classes : List String, (pointTokens .style classes).countP Token.isName = classes.length := by
    intro classes
    induction classes with
    | nil => rfl
    | cons cls classes ih =>
      have hcons : pointTokens .style (cls :: classes) =
          .point (FragmentKind.style.nameFor cls) :: .char '\n' :: pointTokens .style classes := rfl
      rw [hcons, List.countP_cons_of_pos rfl, List.countP_cons_of_neg (by simp [Token.isName]), ih, List.length_cons]
  unfold layoutTokens Anchored.fillWith
  simp only [List.countP_append, hpoints, List.length_map, List.length_cons]
  omega

end Points

section Page

variable {options : CompileOptions} {g : ComponentGraph} {root : Path} {page : Component} {flat : List Component}
  {tree : Component → Markup} (h : Flattened options g root page flat) (hw : WellWritten options page flat tree)
  {layout : String} {a : Anchored} (ha : a.Of layout.toList) {registry : List (String × List Node)}
  (hregistry : ∀ c ∈ page :: flat, ∀ kind : FragmentKind,
    Registered registry (kind.nameFor c.scopeClass) ((composePage page flat).get? (kind.nameFor c.scopeClass)))

include h ha in
theorem readable_layout (hlayout : '\x7b' ∉ layout.toList ∧ '\\' ∉ layout.toList) :
    ∀ t ∈ layoutTokens a page flat, t.Readable := by
  intro t ht
  rcases mem_layoutTokens ht with ⟨x, hx, rfl⟩ | rfl | ⟨c, hc, kind, _, rfl⟩
  · rw [ha.text_eq] at hx
    rcases List.mem_cons.mp hx with rfl | hx
    · exact ⟨by decide, by decide⟩
    · refine ⟨?_, ?_⟩
      · rintro rfl
        exact hlayout.1 hx
      · rintro rfl
        exact hlayout.2 hx
  · exact readable_name .content (h.isPlain_class List.mem_cons_self)
  · exact readable_name kind (h.isPlain_class hc)

include h hw hregistry

/-- The layout gives itself with the fragments of all components and what the page expands to. -/
theorem gives_layout {body : List Char} (he : Expands options g tree page body) {nodes : List Node}
    (hshows : Shows nodes (layoutTokens a page flat)) :
    Gives registry (some TemplateSet.base) nodes (g.keys.idxOf page.sourcePath + 3)
      (withoutBlanks (a.fill (fragmentTexts .style (page :: flat)) body (fragmentTexts .script (page :: flat)))) := by
  have hverbatim : ∀ c ∈ page :: flat, ∀ kind : FragmentKind, kind ≠ .content →
      Answers registry (g.keys.idxOf page.sourcePath + 2) (kind.nameFor c.scopeClass)
        (withoutBlanks ((c.body? kind).getD "").toList) := fun c hc kind hkind =>
    (answers_verbatim h hw hc hkind (hregistry c hc kind)).mono (Nat.le_add_left 2 _)
  have hcontent : Answers registry (g.keys.idxOf page.sourcePath + 2) page.contentName (withoutBlanks body) :=
    he.answers h hw (fun c hc => hregistry c hc .content) List.mem_cons_self
  -- a name gives one text only, so what the tokens give can be computed from it
  obtain ⟨meaning, hmeaning⟩ := exists_meaning registry
  have hpoints : ∀ kind : FragmentKind, kind ≠ .content →
      (pointTokens kind ((page :: flat).map (·.scopeClass))).flatMap (Token.gives meaning) =
        (fragmentTexts kind (page :: flat)).flatMap fun x => withoutBlanks [x] := by
    intro kind hkind
    rw [flatMap_withoutBlanks, pointTokens, List.flatMap_assoc, List.flatMap_map,
      fragmentTexts, ← flatMap_withoutBlanks, List.flatMap_assoc]
    refine List.flatMap_congr fun c hc => ?_
    rw [flatMap_withoutBlanks, ← hmeaning _ _ _ (hverbatim c hc kind hkind)]
    exact List.append_nil _
  have hbody : (Token.char '\n' :: pointTokens .content [page.scopeClass]).flatMap (Token.gives meaning) =
      body.flatMap fun x => withoutBlanks [x] := by
    rw [flatMap_withoutBlanks, ← hmeaning _ _ _ hcontent]
    exact List.append_nil _
  have htext : (layoutTokens a page flat).flatMap (Token.gives meaning) =
      withoutBlanks (a.fill (fragmentTexts .style (page :: flat)) body (fragmentTexts .script (page :: flat))) := by
    rw [← flatMap_withoutBlanks]
    exact Anchored.flatMap_fillWith (fun _ => rfl) (hpoints .style (by decide)) hbody (hpoints .script (by decide))
  rw [← htext]
  refine gives_of_shows hshows (Nat.succ_pos _) fun name hname => ?_
  have hpoint : .point name ∈ layoutTokens a page flat := by
    rcases hname with hname | hname
    · rcases mem_layoutTokens hname with ⟨x, _, e⟩ | e | ⟨c, _, kind, _, e⟩
      · cases e
      · cases e
      · cases e
    · exact hname
  have hfound : ∃ c ∈ page :: flat, ∃ kind : FragmentKind, name = kind.nameFor c.scopeClass ∧
      ∃ text, Answers registry (g.keys.idxOf page.sourcePath + 2) name text := by
    rcases mem_layoutTokens hpoint with ⟨x, _, e⟩ | e | ⟨c, hc, kind, hkind, e⟩
    · cases e
    · cases e
      exact ⟨page, List.mem_cons_self, .content, rfl, _, hcontent⟩
    · cases e
      exact ⟨c, hc, kind, rfl, _, hverbatim c hc kind hkind⟩
  obtain ⟨c, hc, kind, rfl, text, hanswers⟩ := hfound
  refine ⟨bodyName_of_isPlain (kind.isPlain_nameFor (h.isPlain_class hc)), ?_, ?_⟩
  · exact fun e => nameFor_ne_base kind _ (Option.some.inj e).symm
  · rw [hmeaning _ _ _ hanswers]
    exact hanswers

end Page

/-! ## The page -/

theorem exists_registered {options : CompileOptions} {g : ComponentGraph} {root : Path} {page : Component}
    {flat : List Component} {tree : Component → Markup} (h : Flattened options g root page flat)
    (hw : WellWritten options page flat tree) {layout : String} {a : Anchored} (ha : a.Of layout.toList)
    (hlayout : '\x7b' ∉ layout.toList ∧ '\\' ∉ layout.toList) :
    ∃ p nodes n, CompiledPage.register root (Site.pageTemplates layout page flat) TemplateSet.base = .ok p ∧
      p.entry = TemplateSet.base ∧ p.registry.find? (·.1 == TemplateSet.base) = some (n, nodes) ∧
      Shows nodes (layoutTokens a page flat) ∧ ∀ c ∈ page :: flat, ∀ kind : FragmentKind,
        Registered p.registry (kind.nameFor c.scopeClass)
          ((composePage page flat).get? (kind.nameFor c.scopeClass)) := by
  have haugment := toList_augment ha fun c hc => h.isPlain_class hc
  obtain ⟨nodes, hnodes, hshows⟩ := read?_written (readable_layout h ha hlayout)
  rw [← haugment, String.ofList_toList] at hnodes
  have hread : ∀ t ∈ (Site.pageTemplates layout page flat).templates, ∃ nodes, read? t.2 = .ok nodes := by
    intro t ht
    rw [templates_pageTemplates h.distinct] at ht
    rcases List.mem_append.mp ht with ht | ht
    · exact read?_fragment h hw t ht
    · rw [List.mem_singleton.mp ht]
      exact ⟨nodes, hnodes⟩
  obtain ⟨registry, hregistry, hreg⟩ := CompiledPage.readAll_ok hread
  have hbase := hreg TemplateSet.base
  rw [get?_base h.distinct] at hbase
  obtain ⟨nodes', n, hnodes', hfind⟩ := hbase
  obtain rfl : nodes' = nodes := Except.ok.inj (hnodes'.symm.trans hnodes)
  refine ⟨⟨root, TemplateSet.base, Site.pageTemplates layout page flat, registry⟩,
    nodes', n, ?_, rfl, hfind, hshows, ?_⟩
  · unfold CompiledPage.register TemplateSet.contains
    rw [hregistry, get?_base h.distinct]
    rfl
  · intro c hc kind
    rw [← get?_pageTemplates h.distinct layout]
    exact hreg _

/-- A well written page is built, and rendered with any data it is, up to white space, its
    layout with the styles, what the page expands to, and the scripts. -/
theorem rendered_page_expands {files : FileTree} {config : Config} {seed : Nat} {layout : String} {key root : Path}
    {g : ComponentGraph} {page : Component} {flat : List Component} {a : Anchored} {tree : Component → Markup}
    (hcompiled : empty.compilePage files (config.compileOptions seed) key Site.pageName = (.ok root, g))
    (hpage : g.get? root = some page) (hflat : g.flatten root = .ok flat)
    (hweb : config.webComponents = false) (hclasses : Composition.ClassesDiffer page flat)
    (hanchors : a.Of layout.toList) (hlayout : '\x7b' ∉ layout.toList ∧ '\\' ∉ layout.toList)
    (hwritten : WellWritten (config.compileOptions seed) page flat tree) :
    ∃ entry body, Site.build files (config.compileOptions seed) layout key = .ok entry ∧
      Expands (config.compileOptions seed) g tree page body ∧
      (∀ other, Expands (config.compileOptions seed) g tree page other → other = body) ∧
      ∀ data, ∃ out, entry.page.render data = .ok out ∧ withoutBlanks out.toList =
        withoutBlanks (a.fill (fragmentTexts .style (page :: flat)) body (fragmentTexts .script (page :: flat))) := by
  have h : Flattened (config.compileOptions seed) g root page flat :=
    .of_compiled (by decide) hcompiled hpage hflat hweb hclasses
  obtain ⟨body, hbody⟩ := exists_expands h hwritten page List.mem_cons_self
  obtain ⟨p, nodes, n, hp, hentry, hfind, hshows, hregistry⟩ := exists_registered h hwritten hanchors hlayout
  refine ⟨⟨p, g.sources.map fun t => (t.1, some t.2)⟩, body, ?_, hbody, ?_, ?_⟩
  · exact Site.build_eq_ok.mpr ⟨root, g, page, flat, hcompiled, hpage, hflat, hp, rfl⟩
  · exact fun other hother => hother.unique h List.mem_cons_self hbody
  · intro data
    have hgives := gives_layout h hwritten (a := a) hregistry hbody hshows
    have hdepth : g.keys.idxOf page.sourcePath + 3 ≤ maxNesting p.registry data := by
      have hkey := List.idxOf_lt_length_of_mem (mem_keys.mpr ⟨page, h.mem_components List.mem_cons_self, rfl⟩)
      have hsize : g.keys.length ≤ flat.length + 1 := by
        rw [keys, List.length_map]
        exact h.size
      have hpoints := Nat.le_trans (length_le_layoutTokens a page flat) (le_sizeList hshows)
      have hnesting := le_maxNesting (List.mem_of_find?_eq_some hfind) data
      omega
    obtain ⟨out, hout, hblanks⟩ := render_gives hgives data hdepth
    refine ⟨out, ?_, hblanks⟩
    show p.render data = _
    unfold CompiledPage.render
    rw [hentry, hfind]
    simp only [hout]
    rfl

/-- A page with a script, which shows a component with a style. -/
theorem rendered_page_of_styled_component :
    let files : FileTree := { entries := [
      (["p.goo"], .file (some "<script>import A from './a.goo'\ngo()</script><component><p>x</p><A/></component>") 1),
      (["a.goo"], .file (some "<style>b</style><component><i>a</i></component>") 1)] }
    let config : Config := { scopeStrategy := .hashed }
    let layout := "<head></head><body></body>"
    let given := "<head><style>b</style></head><body><p>x</p><i>a</i><script>go()</script></body>"
    ∃ entry, Site.build files (config.compileOptions 0) layout ⟨"p.goo"⟩ = .ok entry ∧
      ∀ data, ∃ out, entry.page.render data = .ok out ∧ withoutBlanks out.toList = given.toList := by
  intro files config layout given
  let pageTree : Markup := .tag false ['p'] [] (.chars ['x'] (.tag true ['p'] [] (.single "A" [] .nil)))
  let innerTree : Markup := .tag false ['i'] [] (.chars ['a'] (.tag true ['i'] [] .nil))
  let tree : Component → Markup := fun c => if c.name = "Page" then pageTree else innerTree
  let a : Anchored := ⟨"<head>".toList, "</head>".toList, [], "<body>".toList, [], "</body>".toList, []⟩
  have hcheck : (Composition.composed? files (config.compileOptions 0) ⟨"p.goo"⟩ Site.pageName).any (fun t =>
      decide (Composition.ClassesDiffer t.1 t.2 ∧ WellWritten (config.compileOptions 0) t.1 t.2 tree ∧
        (tree t.1 = pageTree ∧ ∀ c ∈ t.2, tree c = innerTree) ∧
        fragmentTexts .style (t.1 :: t.2) = "<style>\nb\n</style>".toList ∧
        fragmentTexts .script (t.1 :: t.2) = "<script>\ngo()\n</script>".toList)) = true := by
    rw [Config.compileOptions_hashed]
    decide +kernel
  cases hc : Composition.composed? files (config.compileOptions 0) ⟨"p.goo"⟩ Site.pageName with
  | none => rw [hc] at hcheck; cases hcheck
  | some found =>
    obtain ⟨page, flat⟩ := found
    rw [hc] at hcheck
    obtain ⟨hclasses, hwritten, ⟨hpageTree, hinnerTree⟩, hstyles, hscripts⟩ := of_decide_eq_true hcheck
    obtain ⟨root, g, hcompiled, hpage, hflat⟩ := Composition.exists_of_composed? hc
    have hanchors : a.Of layout.toList := by decide
    obtain ⟨entry, body, hbuild, hbody, _, hrender⟩ :=
      rendered_page_expands hcompiled hpage hflat rfl hclasses hanchors (by decide) hwritten
    have h : Flattened (config.compileOptions 0) g root page flat :=
      .of_compiled (by decide) hcompiled hpage hflat rfl hclasses
    obtain ⟨target, inside, hbinds, hinside, rfl⟩ := hbody.exists_fill
    have hA : "A" ∈ (tree page).outermost := by
      rw [hpageTree]
      decide
    obtain ⟨_, inside', _, _, hinner⟩ := (hinside "A" hA).exists_fill
    rw [hinnerTree _ (h.of_binds List.mem_cons_self (hbinds "A" hA)).1] at hinner
    refine ⟨entry, hbuild, fun data => ?_⟩
    obtain ⟨out, hout, hblanks⟩ := hrender data
    refine ⟨out, hout, ?_⟩
    have hpageText : pageTree.expand inside = ['<', 'p', '>', 'x', '<', '/', 'p', '>'] ++ (inside "A" ++ []) := rfl
    have hinnerText : innerTree.expand inside' = ['<', 'i', '>', 'a', '<', '/', 'i', '>'] := rfl
    rw [hblanks, hstyles, hscripts, hpageTree, hpageText, hinner, hinnerText]
    decide +kernel

end ComponentSite
