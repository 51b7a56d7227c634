/-
  ComponentSite.Proofs.Flattening — when a page can be flattened, and into what.

  Flattening takes the descendants of a page in their order, and each of them claims its
  names. A claim is refused at a name that has another owner already, so the descendants
  before the one that is refused share no names, and one of them owns the name
  (`claimAll_eq_error`). In an ordered graph every descendant is a component of its own,
  and the owner and the one refused are two of them (`FirstClash`).

  So flattening fails exactly if two descendants share a name, and it fails at the first
  that shares one; otherwise it lists the descendants, each once (`flatten_exact`).
-/
import ComponentSite.Proofs.ComponentNames

namespace ComponentSite.ComponentGraph

/-! ## Claiming names -/

theorem claimNames_eq_error {path : Path} {names : List String} {owners : List (String × Path)} {e : SiteError}
    (h : claimNames path names owners = .error e) :
    ∃ n ∈ names, ∃ first, e = .ambiguousName n first path ∧ first ≠ path ∧ (n, first) ∈ owners := by
  induction names generalizing owners with
  | nil => cases h
  | cons name names ih =>
    unfold claimNames at h
    split at h
    · rename_i owner first hfind
      split at h
      · obtain ⟨n, hn, hrest⟩ := ih h
        exact ⟨n, List.mem_cons_of_mem name hn, hrest⟩
      · rename_i hother
        cases h
        have howner : owner = name := by simpa using List.find?_some hfind
        refine ⟨name, List.mem_cons_self, first, rfl, ?_, howner ▸ List.mem_of_find?_eq_some hfind⟩
        rintro rfl
        exact hother (Path.same_refl first)
    · obtain ⟨n, hn, first, rfl, hne, hmem⟩ := ih h
      refine ⟨n, List.mem_cons_of_mem name hn, first, rfl, hne, ?_⟩
      rcases List.mem_append.mp hmem with hmem | hmem
      · exact hmem
      · exact absurd (Prod.ext_iff.mp (List.mem_singleton.mp hmem)).2 hne

theorem mem_of_claimNames {path : Path} {names : List String} {owners owners' : List (String × Path)}
    (h : claimNames path names owners = .ok owners') : ∀ o ∈ owners', o ∈ owners ∨ o.1 ∈ names ∧ o.2 = path := by
  induction names generalizing owners with
  | nil =>
    cases h
    exact fun o ho => Or.inl ho
  | cons name names ih =>
    have later : ∀ {o : String × Path}, o.1 ∈ names ∧ o.2 = path → o.1 ∈ name :: names ∧ o.2 = path :=
      fun ho => ⟨List.mem_cons_of_mem name ho.1, ho.2⟩
    unfold claimNames at h
    intro o ho
    split at h
    · split at h
      · exact (ih h o ho).imp_right later
      · cases h
    · rcases ih h o ho with ho | ho
      · rcases List.mem_append.mp ho with ho | ho
        · exact Or.inl ho
        · rw [List.mem_singleton.mp ho]
          exact Or.inr ⟨List.mem_cons_self, rfl⟩
      · exact Or.inr (later ho)

theorem claimAll_eq_error {components : List Component} {owners : List (String × Path)} {e : SiteError}
    (h : claimAll components owners = .error e) :
    ∃ before d after, components = before ++ d :: after ∧ claimAll before owners = .ok () ∧
      ∃ n ∈ d.names, ∃ first, e = .ambiguousName n first d.sourcePath ∧ first ≠ d.sourcePath ∧
        ((n, first) ∈ owners ∨ ∃ c ∈ before, c.sourcePath = first ∧ n ∈ c.names) := by
  induction components generalizing owners with
  | nil => cases h
  | cons c rest ih =>
    unfold claimAll at h
    cases hclaim : claimNames c.sourcePath c.names owners with
    | error e' =>
      rw [hclaim] at h
      cases h
      obtain ⟨n, hn, first, rfl, hne, hmem⟩ := claimNames_eq_error hclaim
      exact ⟨[], c, rest, rfl, rfl, n, hn, first, rfl, hne, Or.inl hmem⟩
    | ok owners' =>
      rw [hclaim] at h
      obtain ⟨before, d, after, rfl, hbefore, n, hn, first, rfl, hne, howner⟩ := ih h
      have hclaimed : claimAll (c :: before) owners = .ok () := by
        unfold claimAll
        rw [hclaim]
        exact hbefore
      refine ⟨c :: before, d, after, rfl, hclaimed, n, hn, first, rfl, hne, ?_⟩
      rcases howner with hmem | ⟨b, hb, hfirst, hnb⟩
      · rcases mem_of_claimNames hclaim _ hmem with hmem | ⟨hnc, rfl⟩
        · exact Or.inl hmem
        · exact Or.inr ⟨c, List.mem_cons_self, rfl, hnc⟩
      · exact Or.inr ⟨b, List.mem_cons_of_mem c hb, hfirst, hnb⟩

/-! ## Names that clash -/

structure Clash (g : ComponentGraph) (root : Path) (name : String) (a b : Path) : Prop where
  ne : a ≠ b
  reaches_left : g.Reaches root a
  reaches_right : g.Reaches root b
  bound_left : g.Bound a name
  bound_right : g.Bound b name

def Apart (g : ComponentGraph) (sources : List Path) : Prop :=
  ∀ a ∈ sources, ∀ b ∈ sources, ∀ name, g.Bound a name → g.Bound b name → a = b

/-- `b` is the first descendant of the page that shares a name with one before it; that one
    is `a`, and this is a name of both. -/
structure FirstClash (g : ComponentGraph) (page : Component) (name : String) (a b : Path) : Prop where
  ne : a ≠ b
  bound_left : g.Bound a name
  bound_right : g.Bound b name
  first : ∃ before after, page.descendants = before ++ b :: after ∧ a ∈ before ∧ g.Apart before

theorem FirstClash.mem_descendants {g : ComponentGraph} {page : Component} {name : String} {a b : Path}
    (h : g.FirstClash page name a b) : a ∈ page.descendants ∧ b ∈ page.descendants := by
  obtain ⟨before, after, hsplit, ha, -⟩ := h.first
  rw [hsplit]
  exact ⟨List.mem_append_left _ ha, List.mem_append_right _ List.mem_cons_self⟩

theorem FirstClash.not_apart {g : ComponentGraph} {page : Component} {name : String} {a b : Path}
    (h : g.FirstClash page name a b) : ¬ g.Apart page.descendants := by
  intro hapart
  obtain ⟨ha, hb⟩ := h.mem_descendants
  exact h.ne (hapart a ha b hb name h.bound_left h.bound_right)

/-! ## The descendants of a page as components -/

namespace Ordered

variable {g : ComponentGraph} (h : g.Ordered)
include h

/-- Each descendant is a component of its own. -/
theorem map_descendants {page : Component} (hpage : page ∈ g.components) :
    (page.descendants.filterMap g.get?).map (·.sourcePath) = page.descendants := by
  rw [List.map_filterMap]
  refine (List.filterMap_congr fun k hk => ?_).trans List.filterMap_some
  obtain ⟨c, hc, rfl⟩ := mem_keys.mp (h.reaches_mem ((h.mem_descendants hpage k).mp hk))
  rw [(h.get?_eq_some (h.isKey c hc)).mpr ⟨hc, rfl⟩]
  rfl

theorem map_flat {page : Component} (hpage : page ∈ g.components) {flat : List Component}
    (hflat : g.flatten page.sourcePath = .ok flat) : flat.map (·.sourcePath) = page.descendants := by
  have hget := (h.get?_eq_some (h.isKey page hpage)).mpr ⟨hpage, rfl⟩
  rw [(flatten_eq_ok hget hflat).1, h.map_descendants hpage]

/-- Components that claimed their names without a refusal have none in common. -/
theorem apart_of_claimAll {components : List Component} (hmem : ∀ c ∈ components, c ∈ g.components)
    (hclaim : claimAll components [] = .ok ()) : g.Apart (components.map (·.sourcePath)) := by
  intro a ha b hb name hbound hbound'
  obtain ⟨c, hc, rfl⟩ := List.mem_map.mp ha
  obtain ⟨d, hd, rfl⟩ := List.mem_map.mp hb
  obtain ⟨c', hc', e, hn⟩ := hbound
  obtain ⟨d', hd', e', hn'⟩ := hbound'
  obtain rfl := h.eq_of_sourcePath hc' (hmem c hc) e
  obtain rfl := h.eq_of_sourcePath hd' (hmem d hd) e'
  rw [h.eq_of_claimAll hmem hclaim hc hd hn hn']

theorem firstClash_of_flatten {page : Component} (hpage : page ∈ g.components) {e : SiteError}
    (hfail : g.flatten page.sourcePath = .error e) : ∃ n a b, e = .ambiguousName n a b ∧ g.FirstClash page n a b := by
  have hget := (h.get?_eq_some (h.isKey page hpage)).mpr ⟨hpage, rfl⟩
  unfold flatten at hfail
  rw [hget] at hfail
  cases hclaim : claimAll (page.descendants.filterMap g.get?) [] with
  | ok =>
    simp only [hclaim] at hfail
    cases hfail
  | error e' =>
    simp only [hclaim] at hfail
    cases hfail
    obtain ⟨before, d, after, hsplit, hbefore, n, hnd, first, rfl, hne, howner⟩ := claimAll_eq_error hclaim
    obtain ⟨c, hc, rfl, hnc⟩ := howner.resolve_left List.not_mem_nil
    have hmem : ∀ x ∈ before ++ d :: after, x ∈ g.components := by
      intro x hx
      rw [← hsplit] at hx
      obtain ⟨k, -, hk⟩ := List.mem_filterMap.mp hx
      exact mem_of_get? hk
    have hpaths := h.map_descendants hpage
    rw [hsplit, List.map_append, List.map_cons] at hpaths
    have hapart := h.apart_of_claimAll (fun x hx => hmem x (List.mem_append_left _ hx)) hbefore
    refine ⟨n, c.sourcePath, d.sourcePath, rfl, hne, ?_, ?_, ?_⟩
    · exact ⟨c, hmem c (List.mem_append_left _ hc), rfl, hnc⟩
    · exact ⟨d, hmem d (List.mem_append_right _ List.mem_cons_self), rfl, hnd⟩
    · exact ⟨_, _, hpaths.symm, List.mem_map_of_mem hc, hapart⟩

theorem clash_of_flatten {page : Component} (hpage : page ∈ g.components) {e : SiteError}
    (hfail : g.flatten page.sourcePath = .error e) :
    ∃ n a b, e = .ambiguousName n a b ∧ g.Clash page.sourcePath n a b := by
  obtain ⟨n, a, b, rfl, hclash⟩ := h.firstClash_of_flatten hpage hfail
  obtain ⟨ha, hb⟩ := hclash.mem_descendants
  exact ⟨n, a, b, rfl, hclash.ne, (h.mem_descendants hpage a).mp ha, (h.mem_descendants hpage b).mp hb,
    hclash.bound_left, hclash.bound_right⟩

theorem exists_flatten_iff {page : Component} (hpage : page ∈ g.components) :
    (∃ flat, g.flatten page.sourcePath = .ok flat) ↔ g.Apart page.descendants := by
  have hget := (h.get?_eq_some (h.isKey page hpage)).mpr ⟨hpage, rfl⟩
  constructor
  · rintro ⟨flat, hflat⟩
    have hmem : ∀ c ∈ flat, c ∈ g.components := fun c hc => ((h.mem_flat hget hflat).mp hc).1
    rw [← h.map_flat hpage hflat]
    exact h.apart_of_claimAll hmem (flatten_eq_ok hget hflat).2
  · intro hapart
    cases hflat : g.flatten page.sourcePath with
    | ok flat => exact ⟨flat, rfl⟩
    | error e =>
      obtain ⟨n, a, b, -, hclash⟩ := h.firstClash_of_flatten hpage hflat
      exact absurd hapart hclash.not_apart

theorem flatten_eq_error_iff {root : Path} (hroot : root ∈ g.keys) :
    (∃ e, g.flatten root = .error e) ↔ ∃ n a b, g.Clash root n a b := by
  obtain ⟨page, hpage, rfl⟩ := mem_keys.mp hroot
  constructor
  · rintro ⟨e, hfail⟩
    obtain ⟨n, a, b, -, hclash⟩ := h.clash_of_flatten hpage hfail
    exact ⟨n, a, b, hclash⟩
  · rintro ⟨n, a, b, hne, hreach, hreach', hbound, hbound'⟩
    cases hflat : g.flatten page.sourcePath with
    | error e => exact ⟨e, rfl⟩
    | ok flat =>
      have hapart := (h.exists_flatten_iff hpage).mp ⟨flat, hflat⟩
      have ha := (h.mem_descendants hpage a).mpr hreach
      have hb := (h.mem_descendants hpage b).mpr hreach'
      exact absurd (hapart a ha b hb n hbound hbound') hne

end Ordered

/-! ## Flattening -/

/-- The components of `flat` are the descendants of the page in their order, each once and
    never the page, and no two of them have a name in common. -/
structure Flat (g : ComponentGraph) (page : Component) (flat : List Component) : Prop where
  sourcePaths : flat.map (·.sourcePath) = page.descendants
  mem : ∀ c ∈ flat, c ∈ g.components
  nodup : (flat.map (·.sourcePath)).Nodup
  not_page : page ∉ flat
  disjoint : flat.Pairwise fun c d => c.names.Disjoint d.names

theorem Ordered.flat {g : ComponentGraph} (h : g.Ordered) {page : Component} (hpage : page ∈ g.components)
    {flat : List Component} (hflat : g.flatten page.sourcePath = .ok flat) : g.Flat page flat := by
  have hget := (h.get?_eq_some (h.isKey page hpage)).mpr ⟨hpage, rfl⟩
  have hpaths := h.map_flat hpage hflat
  have hnodup : (flat.map (·.sourcePath)).Nodup := hpaths ▸ h.descendants_nodup hpage
  refine ⟨hpaths, fun c hc => ((h.mem_flat hget hflat).mp hc).1, hnodup, fun hmem => ?_, ?_⟩
  · exact h.sourcePath_not_mem_descendants hpage (hpaths ▸ List.mem_map_of_mem hmem)
  · have hne := List.nodup_iff_pairwise_ne.mp hnodup.of_map
    refine hne.imp_of_mem fun {c d} hc hd hcd => ?_
    rw [List.disjoint_iff_ne]
    rintro n hn m hm rfl
    exact hcd (h.eq_of_mem_names hget hflat hc hd hn hm)

theorem exists_get?_of_flatten {g : ComponentGraph} {root : Path} (h : g.flatten root ≠ .ok []) :
    ∃ page, g.get? root = some page := by
  cases hget : g.get? root with
  | some page => exact ⟨page, rfl⟩
  | none =>
    unfold flatten at h
    rw [hget] at h
    exact absurd rfl h

/-- In every graph of a compiler, flattening a source succeeds exactly if no two of its
    descendants have a name in common. It then gives the descendants, and otherwise fails
    at the first one that shares a name. A path outside the graph comes to nothing. -/
theorem flatten_exact {options : CompileOptions} {g : ComponentGraph} (hg : Reachable options g) (root : Path) :
    (g.contains root = false → g.flatten root = .ok []) ∧
      ∀ page, g.get? root = some page →
        ((∃ flat, g.flatten root = .ok flat) ↔ g.Apart page.descendants) ∧
        (∀ flat, g.flatten root = .ok flat → g.Flat page flat) ∧
        (∀ e, g.flatten root = .error e → ∃ name a b, e = .ambiguousName name a b ∧ g.FirstClash page name a b) := by
  have hordered := hg.inv.1
  constructor
  · intro hout
    unfold flatten
    unfold contains at hout
    cases hget : g.get? root with
    | none => rfl
    | some page =>
      rw [hget] at hout
      cases hout
  · intro page hget
    have hpage := mem_of_get? hget
    -- however the root is spelled, the page is found under its own key
    have hself := (hordered.get?_eq_some (hordered.isKey page hpage)).mpr ⟨hpage, rfl⟩
    have hroot : g.flatten root = g.flatten page.sourcePath := by
      unfold flatten
      rw [hget, hself]
    rw [hroot]
    exact ⟨hordered.exists_flatten_iff hpage, fun flat => hordered.flat hpage,
      fun e => hordered.firstClash_of_flatten hpage⟩

/-- Two imports give one source different names, which it may have; then another page gives
    a name of its sibling to `b.goo`. -/
theorem flatten_before_and_after_renaming :
    let files : FileTree := { entries := [
      (["p.goo"], .file (some
        "<script>import A from './a.goo'\nimport B from './b.goo'</script><component><A/><B/></component>") 1),
      (["a.goo"], .file (some "<script>import C from './c.goo'</script>") 1),
      (["b.goo"], .file (some "<script>import D from './c.goo'</script>") 1),
      (["c.goo"], .file (some "<component>c</component>") 1),
      (["q.goo"], .file (some "<script>import A from './b.goo'</script>") 1)] }
    let options : CompileOptions := { classOf := fun p => p.text }
    let root : Path := ⟨"p.goo"⟩
    let before := (empty.compilePage files options root "Page").2
    let now := (before.compile files options ⟨"q.goo"⟩ "Q").2
    Reachable options now ∧
      (∃ page flat, before.get? root = some page ∧ before.flatten root = .ok flat ∧ before.Flat page flat ∧
        flat.map (·.names) = [["A"], ["C", "D"], ["B"]]) ∧
      ∃ page, now.get? root = some page ∧ now.FirstClash page "A" ⟨"a.goo"⟩ ⟨"b.goo"⟩ ∧
        now.flatten root = .error (.ambiguousName "A" ⟨"a.goo"⟩ ⟨"b.goo"⟩) := by
  intro files options root before now
  have hbefore : Reachable options before := .page files root "Page" .empty
  have hnow : Reachable options now := .component files _ _ hbefore
  have hcomes : (before.flatten root).toOption.map (·.map (·.names)) = some [["A"], ["C", "D"], ["B"]] ∧
      now.flatten root = .error (.ambiguousName "A" ⟨"a.goo"⟩ ⟨"b.goo"⟩) := by decide +kernel
  clear_value now before
  obtain ⟨hnames, hfail⟩ := hcomes
  refine ⟨hnow, ?_, ?_⟩
  · cases hflat : before.flatten root with
    | error e =>
      rw [hflat] at hnames
      cases hnames
    | ok flat =>
      rw [hflat] at hnames
      have hnames := Option.some.inj hnames
      have hne : before.flatten root ≠ .ok [] := by
        intro h
        rw [hflat] at h
        cases h
        cases hnames
      obtain ⟨page, hpage⟩ := exists_get?_of_flatten hne
      exact ⟨page, flat, hpage, rfl, ((flatten_exact hbefore root).2 page hpage).2.1 flat hflat, hnames⟩
  · have hne : now.flatten root ≠ .ok [] := by
      intro h
      rw [hfail] at h
      cases h
    obtain ⟨page, hpage⟩ := exists_get?_of_flatten hne
    obtain ⟨name, a, b, he, hclash⟩ := ((flatten_exact hnow root).2 page hpage).2.2 _ hfail
    cases he
    exact ⟨page, hpage, hclash, hfail⟩

end ComponentSite.ComponentGraph
