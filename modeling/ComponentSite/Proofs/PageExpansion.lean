/-
  ComponentSite.Proofs.PageExpansion — what the content of a component stands for.

  A component expands to its markup with the expansion of the component that a name is
  bound to in the place of each outermost element (`Expands`). Where a page is well
  written (`WellWritten`), its components expand to one text each (`exists_expands`,
  `Expands.unique`), and that is what the template of their content gives, up to white
  space (`Expands.answers`). Both go by the order of the graph: what is bound to a name
  stands earlier, and that is also how deep its templates can be nested.
-/
import ComponentSite.Proofs.ComponentNames
import ComponentSite.Proofs.IncludeOrder
import ComponentSite.Proofs.TemplateRendering
import Mathlib.Data.List.Perm.Subperm
import Mathlib.Tactic.Choose

namespace ComponentSite
open Text ComponentGraph

/-! ## Fragments without custom elements -/

theorem Component.body?_of_generate {c : Component}
    (h : c.fragments = Fragment.generate c.scopeClass c.script c.markup c.style none) :
    c.body? .script =
        (if (trimmed c.script).isEmpty then none else some ("<script>\n" ++ trimmed c.script ++ "\n</script>")) ∧
      c.body? .content = (if (trimmed c.markup).isEmpty then none else some (trimmed c.markup)) ∧
      c.body? .style =
        (if (trimmed c.style).isEmpty then none else some ("<style>\n" ++ trimmed c.style ++ "\n</style>")) := by
  unfold Component.body? Fragment.ofKind?
  rw [h]
  unfold Fragment.generate
  generalize trimmed c.script = script
  generalize trimmed c.markup = markup
  generalize trimmed c.style = style
  simp only [ite_self]
  generalize "<script>\n" ++ script ++ "\n</script>" = scriptBody
  generalize "<style>\n" ++ style ++ "\n</style>" = styleBody
  split <;> split <;> split <;> exact ⟨rfl, rfl, rfl⟩

theorem ComponentGraph.Reachable.fragments_eq {options : CompileOptions} {g : ComponentGraph} (h : Reachable options g)
    (hweb : options.webComponents = none) :
    ∀ c ∈ g.components, c.fragments = Fragment.generate c.scopeClass c.script c.markup c.style none := by
  refine h.forall_components ?_ ?_
  · intro c name hc
    obtain ⟨_, he⟩ := Component.Extends.bind c name
    rw [he]
    exact hc
  · intro files g key name isPage source children _
    have := Compile.finish_fragments options g key name source children
    rw [hweb] at this
    exact this

/-- A page that was compiled and flattened, without custom elements and with different
    scope classes. -/
structure Flattened (options : CompileOptions) (g : ComponentGraph) (root : Path) (page : Component)
    (flat : List Component) : Prop where
  ordered : g.Ordered
  linked : Compile.AllLinked options g
  get : g.get? root = some page
  flatten : g.flatten root = .ok flat
  names : ∀ c ∈ g.components, ∀ n ∈ c.names, Imports.isComponentName n.toList = true
  classes : ∀ c ∈ g.components, IsPlain c.scopeClass.toList
  fragments : ∀ c ∈ g.components, c.fragments = Fragment.generate c.scopeClass c.script c.markup c.style none
  distinct : Composition.Distinct page flat
  size : g.components.length ≤ flat.length + 1

namespace Flattened

theorem of_compiled {files : FileTree} {config : Config} {seed : Nat} {path root : Path} {name : String}
    {g : ComponentGraph} {page : Component} {flat : List Component}
    (hname : Imports.isComponentName name.toList = true)
    (hcompiled : empty.compilePage files (config.compileOptions seed) path name = (.ok root, g))
    (hpage : g.get? root = some page) (hflat : g.flatten root = .ok flat) (hweb : config.webComponents = false)
    (hclasses : Composition.ClassesDiffer page flat) : Flattened (config.compileOptions seed) g root page flat := by
  have hreach := reachable_of_compilePage hcompiled
  obtain ⟨hg, hlinked⟩ := hreach.inv
  have hnamed := named_of_compiled hname hcompiled
  have hmem : ∀ c ∈ page :: flat, c ∈ g.components := fun c hc => hg.mem_components hpage hflat hc
  refine ⟨hg, hlinked, hpage, hflat, fun c hc => (hnamed c hc).2.1, fun c hc => (hnamed c hc).2.2,
    hreach.fragments_eq ?_, ⟨hclasses, fun c hc => (hnamed c (hmem c hc)).1⟩, ?_⟩
  · simp [Config.compileOptions, hweb]
  · obtain ⟨p, hp, hroot, hkeys⟩ := page_and_descendants hcompiled
    obtain rfl : p = page :=
      Option.some.inj (((hg.get?_eq_some (hroot ▸ hg.isKey p hp)).mpr ⟨hp, hroot⟩).symm.trans hpage)
    have hsub : g.components ⊆ p :: flat := by
      intro c hc
      rcases List.mem_cons.mp (hkeys.mem_iff.mp (mem_keys.mpr ⟨c, hc, rfl⟩)) with hk | hk
      · rw [hg.eq_of_sourcePath hc hp (hk.trans hroot.symm)]
        exact List.mem_cons_self
      · exact List.mem_cons_of_mem _ ((hg.mem_flat hpage hflat).mpr ⟨hc, hk⟩)
    exact ((hg.nodup.of_map _).subperm hsub).length_le

end Flattened

/-! ## Expansions -/

/-- What a component comes to when each outermost element in its markup is replaced by
    what the component bound to the name comes to. -/
inductive Expands (options : CompileOptions) (g : ComponentGraph) (tree : Component → Markup) :
    Component → List Char → Prop
  | fill {c : Component} (target : String → Component) (inside : String → List Char) :
      (∀ n ∈ (tree c).outermost, Binds options g c n (target n)) →
      (∀ n ∈ (tree c).outermost, Expands options g tree (target n) (inside n)) →
      Expands options g tree c ((tree c).expand inside)

theorem Expands.exists_fill {options : CompileOptions} {g : ComponentGraph} {tree : Component → Markup} {c : Component}
    {body : List Char} (h : Expands options g tree c body) :
      ∃ (target : String → Component) (inside : String → List Char),
      (∀ n ∈ (tree c).outermost, Binds options g c n (target n)) ∧
      (∀ n ∈ (tree c).outermost, Expands options g tree (target n) (inside n)) ∧ body = (tree c).expand inside := by
  cases h with
  | fill target inside hbinds hinside => exact ⟨target, inside, hbinds, hinside, rfl⟩

/-- The markups of a page are of text, tags and the elements that the imports of each
    component bind, and nothing in its sources is a template tag. -/
structure WellWritten (options : CompileOptions) (page : Component) (flat : List Component)
    (tree : Component → Markup) :
    Prop where
  text : ∀ c ∈ page :: flat, (tree c).text = c.markup.toList
  wellFormed : ∀ c ∈ page :: flat, (tree c).WellFormed (flat.flatMap (·.names))
  imported : ∀ c ∈ page :: flat, ∀ n ∈ (tree c).elements, ∃ i ∈ Compile.importsOf options c, i.displayName = n
  markup : ∀ c ∈ page :: flat, '\x7b' ∉ c.markup.toList ∧ '\\' ∉ c.markup.toList
  script : ∀ c ∈ page :: flat, Lacks ['\x7b', '\x7b'] c.script.toList
  style : ∀ c ∈ page :: flat, Lacks ['\x7b', '\x7b'] c.style.toList

instance (options : CompileOptions) (page : Component) (flat : List Component) (tree : Component → Markup) :
    Decidable (WellWritten options page flat tree) :=
  decidable_of_iff ((∀ c ∈ page :: flat, _) ∧ (∀ c ∈ page :: flat, _) ∧ (∀ c ∈ page :: flat, _) ∧
      (∀ c ∈ page :: flat, _) ∧ (∀ c ∈ page :: flat, _) ∧ (∀ c ∈ page :: flat, _))
    ⟨fun h => ⟨h.1, h.2.1, h.2.2.1, h.2.2.2.1, h.2.2.2.2.1, h.2.2.2.2.2⟩,
      fun h => ⟨h.text, h.wellFormed, h.imported, h.markup, h.script, h.style⟩⟩

section Page

variable {options : CompileOptions} {g : ComponentGraph} {root : Path} {page : Component} {flat : List Component}
  {tree : Component → Markup} (h : Flattened options g root page flat)
include h

namespace Flattened

variable {c d : Component} (hc : c ∈ page :: flat)
include hc

theorem mem_components : c ∈ g.components := h.ordered.mem_components h.get h.flatten hc

theorem isPlain_class : IsPlain c.scopeClass.toList := h.classes c (h.mem_components hc)

theorem wellNamed : c.WellNamed := h.distinct.wellNamed c hc

theorem of_binds {n : String} (hd : Binds options g c n d) :
    d ∈ flat ∧ n ∈ d.names ∧ g.Imports c.sourcePath d.sourcePath :=
  ⟨hd.mem_flat h.ordered h.linked h.get h.flatten hc, (hd.imported h.ordered h.linked (h.mem_components hc)).2⟩

end Flattened

theorem Expands.unique {c : Component} {body other : List Char} (he : Expands options g tree c body)
    (hc : c ∈ page :: flat) (ho : Expands options g tree c other) : body = other := by
  induction he generalizing other with
  | fill target inside hbinds _ ih =>
    obtain ⟨target', inside', hbinds', hinside', rfl⟩ := ho.exists_fill
    refine Markup.expand_congr fun n hn => ?_
    have hd := hbinds n hn
    obtain he := hd.unique h.ordered h.linked h.get h.flatten (hbinds' n hn) hc
    exact ih n hn (List.mem_cons_of_mem page (h.of_binds hc hd).1) (he ▸ hinside' n hn)

variable (hw : WellWritten options page flat tree)
include hw

theorem WellWritten.exists_binds {c : Component} (hc : c ∈ page :: flat) {n : String} (hn : n ∈ (tree c).elements) :
    ∃ d, Binds options g c n d := by
  obtain ⟨i, hi, rfl⟩ := hw.imported c hc n hn
  exact ComponentGraph.exists_binds h.ordered h.linked (h.mem_components hc) hi

theorem exists_expands : ∀ c ∈ page :: flat, ∃ body, Expands options g tree c body := by
  intro c hc
  refine h.ordered.induction (motive := fun c => c ∈ page :: flat → ∃ body, Expands options g tree c body) ?_ c
    (h.mem_components hc) hc
  intro c hcomp ih hc
  have hone : ∀ n, ∃ d body, n ∈ (tree c).outermost → Binds options g c n d ∧ Expands options g tree d body := by
    intro n
    by_cases hn : n ∈ (tree c).outermost
    · obtain ⟨d, hd⟩ := hw.exists_binds h hc (Markup.outermost_subset _ hn)
      obtain ⟨hflat, _, himports⟩ := h.of_binds hc hd
      have hmem := List.mem_cons_of_mem page hflat
      obtain ⟨body, hbody⟩ := ih d (h.mem_components hmem) ((h.ordered.imports_iff hcomp).mp himports) hmem
      exact ⟨d, body, fun _ => ⟨hd, hbody⟩⟩
    · exact ⟨c, [], fun hn' => absurd hn' hn⟩
  choose target inside hall using hone
  exact ⟨_, .fill target inside (fun n hn => (hall n hn).1) (fun n hn => (hall n hn).2)⟩

end Page

/-! ## The text of a content -/

open Template
open ComponentSite.Composition (replaceAll includeFor composePage)

def useTokens (d : Component) : List Token :=
  match d.body? .content with
  | some _ => [.use d.contentName]
  | none => []

theorem written_useTokens {d : Component} (hd : d.WellNamed) : Token.written (useTokens d) = (includeFor d).toList := by
  unfold useTokens
  cases hb : d.body? .content with
  | none =>
    rw [Composition.includeFor_of_no_content hb]
    rfl
  | some own =>
    rw [Composition.includeFor_of_content hd hb, toList_includeTag]
    simp [Token.written, Token.source, useTag, includeMark, includeRest]

theorem eq_of_mem_useTokens {d : Component} {t : Token} (ht : t ∈ useTokens d) : t = .use d.contentName := by
  unfold useTokens at ht
  split at ht
  · exact List.mem_singleton.mp ht
  · cases ht

theorem readable_name (kind : FragmentKind) {scopeClass : String} (hclass : IsPlain scopeClass.toList) :
    (kind.nameFor scopeClass).toList ≠ [] ∧ IsPlain (kind.nameFor scopeClass).toList := by
  refine ⟨?_, kind.isPlain_nameFor hclass⟩
  rw [FragmentKind.nameFor, String.toList_append, String.toList_append]
  cases kind <;> simp

section Content

variable {options : CompileOptions} {g : ComponentGraph} {root : Path} {page : Component} {flat : List Component}
  {tree : Component → Markup} (h : Flattened options g root page flat) (hw : WellWritten options page flat tree)
  {c : Component} (hc : c ∈ page :: flat) {target : String → Component}
  (hbinds : ∀ n ∈ (tree c).outermost, Binds options g c n (target n))
  {m : Markup} (hm : m.text = trim c.markup.toList) (halike : (tree c).Alike m)
include h hw hc hbinds hm halike

theorem toList_content :
    (replaceAll (flat.erase c) (trimmed c.markup)).toList =
      Token.written (m.fill .char fun n => useTokens (target n)) := by
  have htarget : ∀ n ∈ m.outermost, target n ∈ flat.erase c ∧ n ∈ (target n).names ∧ target n ∈ flat := by
    intro n hn
    rw [halike.outermost] at hn
    obtain ⟨hflat, hname, himports⟩ := h.of_binds hc (hbinds n hn)
    have hne : target n ≠ c := by
      intro e
      exact h.ordered.not_reaches_self c.sourcePath (.single (e ▸ himports))
    exact ⟨(List.mem_erase_of_ne hne).mpr hflat, hname, hflat⟩
  have hwell : ∀ d ∈ flat, d.WellNamed := fun d hd => h.wellNamed (List.mem_cons_of_mem page hd)
  have htag : ∀ n ∈ m.elements, IsTagName n.toList := by
    intro n hn
    rw [halike.elements] at hn
    obtain ⟨d, hd⟩ := hw.exists_binds h hc hn
    obtain ⟨hflat, hname, _⟩ := h.of_binds hc hd
    exact Imports.isTagName_of_isComponentName (h.names d (h.mem_components (List.mem_cons_of_mem page hflat)) n hname)
  have hinclude : ∀ d ∈ flat, '<' ∉ (includeFor d).toList := by
    intro d hd hmem
    rw [← written_useTokens (hwell d hd)] at hmem
    obtain ⟨t, ht, hmem⟩ := List.mem_flatMap.mp hmem
    obtain rfl := eq_of_mem_useTokens ht
    have := (Composition.not_mem_of_isPlain (Composition.isPlain_contentName
      (h.isPlain_class (List.mem_cons_of_mem page hd)))).2
    simp [Token.source, useTag, this] at hmem
  have hall : (replaceAll (flat.erase c) (String.ofList m.text)).toList = m.expand fun n =>
      (includeFor (target n)).toList := by
    refine Composition.replaceAll_text (halike.wellFormed _ (hw.wellFormed c hc)) htag ?_ ?_ ?_
    · intro t ht n hn
      have ht := List.mem_of_mem_erase ht
      refine ⟨Imports.isTagName_of_isComponentName ?_, List.mem_flatMap.mpr ⟨t, ht, hn⟩⟩
      exact h.names t (h.mem_components (List.mem_cons_of_mem page ht)) n hn
    · exact fun t ht => hinclude t (List.mem_of_mem_erase ht)
    · intro n hn
      obtain ⟨hmem, hname, hflat⟩ := htarget n hn
      exact Composition.puts_eq hmem hname fun u hu hnu =>
        h.ordered.eq_of_mem_names h.get h.flatten (List.mem_of_mem_erase hu) hflat hnu hname
  have hwritten : Token.written (m.fill .char fun n => useTokens (target n)) =
      (m.expand fun n => (includeFor (target n)).toList).flatMap fun c => [c] := by
    refine Markup.flatMap_fill (fun _ => rfl) fun n hn => ?_
    rw [List.flatMap_singleton']
    exact written_useTokens (hwell _ (htarget n hn).2.2)
  rw [hwritten, List.flatMap_singleton', ← hall, hm]
  rfl

theorem readable_content : ∀ t ∈ m.fill .char fun n => useTokens (target n), t.Readable := by
  intro t ht
  rcases Markup.mem_fill ht with ⟨x, hx, rfl⟩ | ⟨n, hn, ht⟩
  · rw [hm] at hx
    have hx := (trim_isInfix _).subset hx
    refine ⟨?_, ?_⟩
    · rintro rfl
      exact (hw.markup c hc).1 hx
    · rintro rfl
      exact (hw.markup c hc).2 hx
  · obtain rfl := eq_of_mem_useTokens ht
    have hflat := (h.of_binds hc (hbinds n (halike.outermost ▸ hn))).1
    exact readable_name .content (h.isPlain_class (List.mem_cons_of_mem page hflat))

end Content

/-! ## What a content gives -/

/-- A registry has for a name what the template of that name is read as, if there is one. -/
def Registered (registry : List (String × List Node)) (name : String) : Option String → Prop
  | some body => ∃ nodes n, read? body = .ok nodes ∧ registry.find? (·.1 == name) = some (n, nodes)
  | none => registry.find? (·.1 == name) = none

theorem bodyName_of_isPlain {name : String} (h : IsPlain name.toList) : name ≠ bodyName := by
  rintro rfl
  exact absurd (h '@' (by decide)) (by decide)

section Answers

variable {options : CompileOptions} {g : ComponentGraph} {root : Path} {page : Component} {flat : List Component}
  {tree : Component → Markup} (h : Flattened options g root page flat) (hw : WellWritten options page flat tree)
  {registry : List (String × List Node)}
  (hregistry : ∀ c ∈ page :: flat, Registered registry c.contentName ((composePage page flat).get? c.contentName))
include h hregistry

/-- What was put in for an element gives what is to be inside it. -/
theorem flatMap_useTokens {depth : Nat} {meaning : String → List Char}
    (hmeaning : ∀ name depth text, Answers registry depth name text → meaning name = text) {d : Component}
    (hd : d ∈ page :: flat) {inside : List Char} (ha : Answers registry depth d.contentName (withoutBlanks inside)) :
    (useTokens d).flatMap (Token.gives meaning) = inside.flatMap fun x => withoutBlanks [x] := by
  rw [flatMap_withoutBlanks]
  unfold useTokens
  cases hb : d.body? .content with
  | some own =>
    rw [← hmeaning _ _ _ ha]
    exact List.append_nil _
  | none =>
    have hset : Registered registry d.contentName ((d.body? .content).map (replaceAll (flat.erase d))) :=
      h.distinct.get?_content hd ▸ hregistry d hd
    rw [hb] at hset
    have hmissing : Answers registry depth d.contentName [] := .missing hset
    exact hmissing.unique ha

include hw

/-- A content gives its markup with what the contents give that are bound in it, one unit of
    depth further down. -/
theorem answers_fill {c : Component} (hc : c ∈ page :: flat) {target : String → Component}
    (hbinds : ∀ n ∈ (tree c).outermost, Binds options g c n (target n)) {inside : String → List Char} {depth : Nat}
    (hdepth : 1 ≤ depth)
    (hinside : ∀ n ∈ (tree c).outermost, Answers registry depth (target n).contentName (withoutBlanks (inside n))) :
    Answers registry (depth + 1) c.contentName (withoutBlanks ((tree c).expand inside)) := by
  obtain ⟨m, hm, halike⟩ := (tree c).exists_alike_trim
  rw [hw.text c hc] at hm
  have hset : Registered registry c.contentName ((c.body? .content).map (replaceAll (flat.erase c))) :=
    h.distinct.get?_content hc ▸ hregistry c hc
  rw [(Component.body?_of_generate (h.fragments c (h.mem_components hc))).2.1] at hset
  rw [← halike.expand]
  by_cases hempty : (trimmed c.markup).isEmpty = true
  · rw [if_pos hempty] at hset
    have htext : m.text = [] := by
      rw [hm]
      simpa [trimmed] using hempty
    rw [Markup.expand_of_text_eq_nil htext]
    exact .missing hset
  · rw [if_neg hempty] at hset
    obtain ⟨nodes, n, hread, hfind⟩ := hset
    obtain ⟨nodes', hread', hshows⟩ := read?_written (readable_content h hw hc hbinds hm halike)
    rw [← toList_content h hw hc hbinds hm halike, String.ofList_toList] at hread'
    obtain rfl : nodes = nodes' := Except.ok.inj (hread.symm.trans hread')
    rw [← halike.outermost] at hbinds hinside
    have hmem : ∀ n ∈ m.outermost, target n ∈ page :: flat := fun n hn =>
      List.mem_cons_of_mem page (h.of_binds hc (hbinds n hn)).1
    obtain ⟨meaning, hmeaning⟩ := exists_meaning registry
    have htext : (m.fill .char fun n => useTokens (target n)).flatMap (Token.gives meaning) =
        withoutBlanks (m.expand inside) := by
      rw [← flatMap_withoutBlanks]
      exact Markup.flatMap_fill (fun _ => rfl) fun n hn =>
        flatMap_useTokens h hregistry hmeaning (hmem n hn) (hinside n hn)
    rw [← htext]
    refine .found hfind (gives_of_shows hshows hdepth fun name hname => ?_)
    obtain ⟨n, hn, rfl⟩ : ∃ n ∈ m.outermost, name = (target n).contentName := by
      rcases hname with hname | hname
      · rcases Markup.mem_fill hname with ⟨x, _, e⟩ | ⟨n, hn, ht⟩
        · cases e
        · exact ⟨n, hn, Token.use.inj (eq_of_mem_useTokens ht)⟩
      · rcases Markup.mem_fill hname with ⟨x, _, e⟩ | ⟨n, _, ht⟩
        · cases e
        · cases eq_of_mem_useTokens ht
    refine ⟨bodyName_of_isPlain (Composition.isPlain_contentName (h.isPlain_class (hmem n hn))), ?_, ?_⟩
    · intro e
      -- a component that used itself would import itself
      have hclass := (FragmentKind.nameFor_inj (Option.some.inj e)).2
      have himports := (h.of_binds hc (hbinds n hn)).2.2
      rw [h.distinct.named.eq_of_scopeClass (hmem n hn) hc hclass.symm] at himports
      exact h.ordered.not_reaches_self c.sourcePath (.single himports)
    · rw [hmeaning _ _ _ (hinside n hn)]
      exact hinside n hn

/-- A content gives what its component expands to. As many units of depth are enough as tell
    the place of the component in the graph, because what it uses stands earlier. -/
theorem Expands.answers {c : Component} {body : List Char} (he : Expands options g tree c body)
    (hc : c ∈ page :: flat) :
    Answers registry (g.keys.idxOf c.sourcePath + 2) c.contentName (withoutBlanks body) := by
  induction he with
  | @fill c target inside hbinds _ ih =>
    refine answers_fill h hw hregistry hc hbinds (Nat.succ_pos _) fun n hn => ?_
    obtain ⟨hflat, _, himports⟩ := h.of_binds hc (hbinds n hn)
    have hearlier := Composition.idxOf_lt_of_reaches h.ordered (mem_keys.mpr ⟨c, h.mem_components hc, rfl⟩)
      (.single himports)
    exact (ih n hn (List.mem_cons_of_mem page hflat)).mono (by omega)

end Answers

end ComponentSite
