/-
  ComponentSite.Proofs.ComposedMarkup — composing does what the markup says, in any order.

  Where a name belongs to one component (`Nameable`), what is put in for it does not depend
  on the order of the components. All passes over a markup put the include of its component
  in the place of each outermost element and keep everything else, so that this is what a
  page and its components become under each order of them (`composed_as_marked`). The
  components of a compiled page are of this kind (`nameable_of_compiled`).
-/
import ComponentSite.Proofs.TagsGone
import Mathlib.Data.List.Pairwise

namespace ComponentSite

/-- A markup of these components: their names are those of its elements, and of no other tag. -/
def Markup.Over (targets : List Component) (m : Markup) : Prop :=
  m.WellFormed (targets.flatMap Component.names) ∧ ∀ n ∈ m.elements, n ∈ targets.flatMap Component.names

instance (targets : List Component) (m : Markup) : Decidable (m.Over targets) := inferInstanceAs (Decidable (_ ∧ _))

namespace Composition

/-- What markup can tell apart: a name is that of one component, and ends where the name of
    a tag does. An include is no markup itself. -/
structure Nameable (flat : List Component) : Prop where
  disjoint : flat.Pairwise fun c d => List.Disjoint c.names d.names
  names : ∀ c ∈ flat, ∀ n ∈ c.names, IsTagName n.toList
  includes : ∀ c ∈ flat, '<' ∉ (includeFor c).toList

namespace Nameable

variable {flat flat' : List Component}

theorem perm (h : Nameable flat) (hp : flat'.Perm flat) : Nameable flat' where
  disjoint := (hp.pairwise_iff fun hd => List.disjoint_symm hd).mpr h.disjoint
  names c hc := h.names c (hp.mem_iff.mp hc)
  includes c hc := h.includes c (hp.mem_iff.mp hc)

theorem sublist (h : Nameable flat) (hs : flat'.Sublist flat) : Nameable flat' where
  disjoint := h.disjoint.sublist hs
  names c hc := h.names c (hs.subset hc)
  includes c hc := h.includes c (hs.subset hc)

/-- No component stands twice in the list, because it would share its name with itself. -/
theorem nodup (h : Nameable flat) : flat.Nodup :=
  h.disjoint.imp fun {c d} hd => by
    rintro rfl
    exact hd (List.mem_cons_self : c.name ∈ c.names) List.mem_cons_self

theorem eq_of_mem_names (h : Nameable flat) {c d : Component} (hc : c ∈ flat) (hd : d ∈ flat) {n : String}
    (hn : n ∈ c.names) (hn' : n ∈ d.names) : c = d := by
  by_contra hne
  have : Std.Symm fun c d : Component => List.Disjoint c.names d.names := ⟨fun _ _ hd => List.disjoint_symm hd⟩
  exact h.disjoint.forall hc hd hne hn hn'

theorem puts_eq (h : Nameable flat) {c : Component} (hc : c ∈ flat) {n : String} (hn : n ∈ c.names) :
    puts flat n = some (includeFor c).toList :=
  Composition.puts_eq hc hn fun _ hu hu' => h.eq_of_mem_names hu hc hu' hn

/-- All passes, in any order, put the include of its component in the place of each outermost
    element. -/
theorem replaceAll_eq (h : Nameable flat) (hp : flat'.Perm flat) {m : Markup} (hm : m.Over flat)
    {inside : String → List Char} (hinside : ∀ c ∈ flat, ∀ n ∈ c.names, inside n = (includeFor c).toList) :
    replaceAll flat' (String.ofList m.text) = String.ofList (m.expand inside) := by
  have h' := h.perm hp
  have hnames : ∀ t ∈ flat', ∀ n ∈ t.names, IsTagName n.toList ∧ n ∈ flat.flatMap Component.names :=
    fun t ht n hn => ⟨h'.names t ht n hn, List.mem_flatMap.mpr ⟨t, hp.mem_iff.mp ht, hn⟩⟩
  have hel : ∀ n ∈ m.elements, IsTagName n.toList := fun n hn => by
    obtain ⟨t, ht, hnt⟩ := List.mem_flatMap.mp (hm.2 n hn)
    exact h.names t ht n hnt
  refine String.toList_injective ?_
  rw [String.toList_ofList]
  refine replaceAll_text hm.1 hel hnames h'.includes fun n hn => ?_
  obtain ⟨t, ht, hnt⟩ := List.mem_flatMap.mp (hm.2 n (m.outermost_subset hn))
  rw [h'.puts_eq (hp.mem_iff.mpr ht) hnt, hinside t ht n hnt]

end Nameable

/-- Composing does what the markup says, in any order of the components: each outermost element
    becomes the include of its component, and the rest stays as it is. For the content of a
    component this holds of markup of the others. -/
theorem composed_as_marked {flat : List Component} (h : Nameable flat) :
    ∃ inside : String → List Char, (∀ c ∈ flat, ∀ n ∈ c.names, inside n = (includeFor c).toList) ∧
      ∀ flat', flat'.Perm flat →
        (∀ (page : Component) (m : Markup), page.body? .content = some (String.ofList m.text) → m.Over flat →
          pageContent page flat' = some (String.ofList (m.expand inside))) ∧
        (∀ (i : Nat) (c : Component) (m : Markup), flat'[i]? = some c → c.body? .content = some (String.ofList m.text) →
          m.Over (flat.erase c) → contentAt flat' i = some (String.ofList (m.expand inside))) ∧
        ∀ page, Distinct page flat' → ∀ c ∈ page :: flat', ∀ m : Markup,
          c.body? .content = some (String.ofList m.text) → m.Over (flat.erase c) →
            (composePage page flat').get? c.contentName = some (String.ofList (m.expand inside)) := by
  let inside : String → List Char := fun n => (puts flat n).getD []
  have hinside : ∀ c ∈ flat, ∀ n ∈ c.names, inside n = (includeFor c).toList := fun c hc n hn => by
    show (puts flat n).getD [] = _
    rw [h.puts_eq hc hn, Option.getD_some]
  have hothers : ∀ {c : Component} {others : List Component} {m : Markup}, others.Perm (flat.erase c) →
      m.Over (flat.erase c) → replaceAll others (String.ofList m.text) = String.ofList (m.expand inside) := fun hp hm =>
    (h.sublist List.erase_sublist).replaceAll_eq hp hm fun c hc => hinside c (List.mem_of_mem_erase hc)
  refine ⟨inside, hinside, fun flat' hp => ⟨fun page m hbody hm => ?_, fun i c m hi hbody hm => ?_, ?_⟩⟩
  · rw [pageContent_eq, hbody, Option.map_some, h.replaceAll_eq hp hm hinside]
  · have herase : flat'.eraseIdx i = flat'.erase c := by
      obtain ⟨hlt, rfl⟩ := List.getElem?_eq_some_iff.mp hi
      exact ((h.perm hp).nodup.erase_getElem i hlt).symm
    rw [contentAt_eq hi, hbody, Option.map_some, herase, hothers (hp.erase c) hm]
  · intro page hdistinct c hc m hbody hm
    rw [Component.contentName, hdistinct.get?_content hc, hbody, Option.map_some, hothers (hp.erase c) hm]

/-- A card inside markup of the page, with an alias, an element of another component in it, and
    a component without content beside it. -/
theorem composed_as_marked_nested :
    let card := shown "Card" "goo-1" "<b><Badge/></b>" ["Tile"]
    let badge := shown "Badge" "goo-2" "<i></i>" []
    let tracker : Component := { shown "Tracker" "goo-3" "" [] with fragments := [] }
    let page := shown "Page" "goo-0" "<main><Card a><Badge/></Card ><Tracker/>x<Tile /></main>" []
    pageContent page [tracker, badge, card] =
        some "<main>\x7b\x7b> content-goo-1\x7d\x7dx\x7b\x7b> content-goo-1\x7d\x7d</main>" ∧
      contentAt [tracker, badge, card] 2 = some "<b>\x7b\x7b> content-goo-2\x7d\x7d</b>" := by
  intro card badge tracker page
  have h : Nameable [card, badge, tracker] := by
    refine ⟨?_, by decide, by decide⟩
    simp [card, badge, tracker, shown, Component.names]
  have hperm : [tracker, badge, card].Perm [card, badge, tracker] := List.reverse_perm [card, badge, tracker]
  let pageTree : Markup := .tag false "main".toList [] (.pair "Card" [' ', 'a'] (.single "Badge" [] .nil) [' ']
    (.single "Tracker" [] (.chars ['x'] (.single "Tile" [' '] (.tag true "main".toList [] .nil)))))
  let cardTree : Markup := .tag false ['b'] [] (.single "Badge" [] (.tag true ['b'] [] .nil))
  obtain ⟨inside, hinside, hcomposed⟩ := composed_as_marked h
  obtain ⟨hpage, hat, -⟩ := hcomposed _ hperm
  have hCard := hinside card (by simp) "Card" (by decide)
  have hTile := hinside card (by simp) "Tile" (by decide)
  have hBadge := hinside badge (by simp) "Badge" (by decide)
  have hTracker := hinside tracker (by simp) "Tracker" (by decide)
  constructor
  · rw [hpage page pageTree (by decide) (by decide)]
    have htext : pageTree.expand inside = "<main>".toList ++ (inside "Card" ++ (inside "Tracker" ++
        ('x' :: (inside "Tile" ++ "</main>".toList)))) := by
      simp [pageTree, Markup.expand, Markup.fill]
    rw [htext, hCard, hTracker, hTile]
    decide
  · rw [hat 2 card cardTree rfl (by decide) (by decide)]
    have htext : cardTree.expand inside = "<b>".toList ++ (inside "Badge" ++ "</b>".toList) := by
      simp [cardTree, Markup.expand, Markup.fill]
    rw [htext, hBadge]
    decide

/-! ## Compiled pages -/

open ComponentGraph

/-- The components that a compiled page is flattened into can be told apart in markup. -/
theorem nameable_of_compiled {files : FileTree} {config : Config} {seed : Nat} {path root : Path} {name : String}
    {g : ComponentGraph} {page : Component} {flat : List Component} (hname : Imports.isComponentName name.toList = true)
    (hcompiled : ComponentGraph.empty.compilePage files (config.compileOptions seed) path name = (.ok root, g))
    (hpage : g.get? root = some page) (hflat : g.flatten root = .ok flat) : Nameable flat := by
  have hg := (reachable_of_compilePage hcompiled).inv.1
  have hnamed : ∀ c ∈ flat, _ := fun c hc => named_of_compiled hname hcompiled c ((hg.mem_flat hpage hflat).mp hc).1
  refine ⟨?_, fun c hc n hn => Imports.isTagName_of_isComponentName ((hnamed c hc).2.1 n hn), fun c hc => ?_⟩
  · exact (hg.nodup_flat hpage hflat).imp_of_mem fun hc hd hne n hn hn' =>
      hne (hg.eq_of_mem_names hpage hflat hc hd hn hn')
  · obtain ⟨hwell, -, hplain⟩ := hnamed c hc
    cases hbody : c.body? .content with
    | none =>
      rw [includeFor_of_no_content hbody]
      decide
    | some own =>
      rw [includeFor_of_content hwell hbody, toList_includeTag]
      exact ComponentTag.not_mem_include (not_mem_of_isPlain (isPlain_contentName hplain)).2

end Composition

end ComponentSite
