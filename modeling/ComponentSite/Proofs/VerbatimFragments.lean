/-
  ComponentSite.Proofs.VerbatimFragments — scripts and styles on their way to the page.

  A script or style is a raw block in its template. The reader takes the whole text of the
  fragment for the body of that block exactly if there are no four braces in a row in it
  and no backslash directly before two braces (`scanText_raw_iff`): four braces are taken
  for the end of the block, and such a backslash is dropped.

  A layout that is text with insertion points in it gives this text, to the last blank, and
  in the place of each point what the template of that name gives (`read?_pointed`,
  `renderNodes_pointed`). So the scripts and styles of any components come through such a
  layout unchanged, whatever the data (`fragments_unchanged`), and a page with another
  script is refused, or its script is changed (`fragments_misread`).
-/
import ComponentSite.Proofs.PageMeaning

namespace ComponentSite.Template
open Text

/-! ## What a raw block holds -/

/-- At a character the text stops, or the character is dropped, or it is kept, which it is
    if nothing begins with it. -/
theorem scanText_step (stop : List Char) (c : Char) (r : List Char) :
    (stop <+: c :: r ∧ scanText stop 0 (c :: r) = ([], c :: r)) ∨
      (∃ n, scanText stop 0 (c :: r) = scanText stop n r) ∨
      ¬ stop <+: c :: r ∧ ¬ '\\' :: openBraces.toList <+: c :: r ∧
        scanText stop 0 (c :: r) = (c :: (scanText stop 0 r).1, (scanText stop 0 r).2) := by
  by_cases hstop : stop <+: c :: r
  · refine Or.inl ⟨hstop, ?_⟩
    rw [scanText]
    simp only [List.isPrefixOf_iff_prefix.mpr hstop, if_true]
  have hno : stop.isPrefixOf (c :: r) = false := by rwa [← Bool.not_eq_true, List.isPrefixOf_iff_prefix]
  rw [scanText]
  simp only [hno, Bool.false_eq_true, if_false]
  generalize hrun : (if (c == '\\') = true then r.takeWhile (· == '\\') else []) = run
  by_cases hescape : (c == '\\' && openBraces.toList.isPrefixOf (r.drop run.length)) = true
  · rw [if_pos hescape]
    refine Or.inr (Or.inl ?_)
    split
    · exact ⟨_, rfl⟩
    · exact ⟨_, rfl⟩
  · rw [if_neg hescape]
    refine Or.inr (Or.inr ⟨hstop, fun hp => hescape ?_, rfl⟩)
    obtain ⟨rfl, t, rfl⟩ := List.cons_prefix_cons.mp hp
    rw [← hrun, show openBraces.toList = ['\x7b', '\x7b'] by decide]
    simp [List.isPrefixOf]

theorem length_scanText (stop : List Char) (n : Nat) (s : List Char) :
    (scanText stop n s).1.length + (scanText stop n s).2.length ≤ s.length := by
  induction s generalizing n with
  | nil => cases n <;> simp [scanText]
  | cons c r ih =>
    cases n with
    | succ n =>
      have := ih n
      simp only [scanText, List.length_cons]
      omega
    | zero =>
      rcases scanText_step stop c r with ⟨-, e⟩ | ⟨n, e⟩ | ⟨-, -, e⟩
      · simp [e]
      · rw [e]
        exact Nat.le_succ_of_le (ih n)
      · have := ih 0
        simp only [e, List.length_cons]
        omega

/-- Text that comes through whole has nothing in it that would stop it, and no backslash
    that is dropped. -/
theorem lacks_of_scanText {stop s rest : List Char} (hne : stop ≠ []) (h : scanText stop 0 (s ++ rest) = (s, rest)) :
    Lacks stop s ∧ Lacks ('\\' :: openBraces.toList) s := by
  induction s with
  | nil => exact ⟨fun hi => hne (List.infix_nil.mp hi), fun hi => nomatch List.infix_nil.mp hi⟩
  | cons c s ih =>
    rcases scanText_step stop c (s ++ rest) with ⟨-, e⟩ | ⟨n, e⟩ | ⟨hstop, hescape, e⟩
    · cases e.symm.trans h
    · -- what is left is too short to give all of it
      have := length_scanText stop n (s ++ rest)
      rw [← e, ← List.cons_append, h] at this
      simp only [List.length_append, List.length_cons] at this
      omega
    · obtain ⟨hs, hr⟩ := Prod.mk.inj (e.symm.trans h)
      obtain ⟨hno, hnone⟩ := ih (Prod.ext (List.cons.inj hs).2 hr)
      refine ⟨fun hi => ?_, fun hi => ?_⟩
      · rcases List.infix_cons_iff.mp hi with hp | hi
        · exact hstop (hp.trans (List.prefix_append _ rest))
        · exact hno hi
      · rcases List.infix_cons_iff.mp hi with hp | hi
        · exact hescape (hp.trans (List.prefix_append _ rest))
        · exact hnone hi

/-- A raw block has exactly this body if nothing in it is taken for the end of the block or
    for an escape. The text stands between tags of its own. -/
theorem scanText_raw_iff {inner : List Char} :
    scanText (openBraces ++ openBraces).toList 0 ('<' :: (inner ++ ['>']) ++ rawEndTag) =
      ('<' :: (inner ++ ['>']), rawEndTag) ↔
      Lacks ['\x7b', '\x7b', '\x7b', '\x7b'] ('<' :: (inner ++ ['>'])) ∧
        Lacks ['\\', '\x7b', '\x7b'] ('<' :: (inner ++ ['>'])) := by
  constructor
  · exact lacks_of_scanText (by decide)
  · rintro ⟨hnoTag, hnoEscape⟩
    refine scanText_raw fun _ => ⟨hnoTag, hnoEscape, ?_⟩
    rw [← List.cons_append, List.getLast?_concat]
    decide

/-! ## Texts with insertion points -/

structure Pointed (α : Type) where
  parts : List (List Char × α)
  last : List Char

def textNodes (s : List Char) : List Node := if s.isEmpty then [] else [.text s]

namespace Pointed

variable {α : Type} (p : Pointed α)

def fill (text : α → List Char) : List Char := p.parts.flatMap (fun t => t.1 ++ text t.2) ++ p.last

def nodes (name : α → String) : List Node :=
  p.parts.flatMap (fun t => textNodes t.1 ++ [.partialUse (nameCall (name t.2)) [] (some [])]) ++ textNodes p.last

def source (name : α → String) : List Char := p.fill fun a => (Token.point (name a)).source

structure Readable (name : α → String) : Prop where
  text : ∀ t ∈ p.parts, Verbatim t.1
  last : Verbatim p.last
  names : ∀ t ∈ p.parts, (name t.2).toList ≠ [] ∧ IsPlain (name t.2).toList

theorem infix_fill (text : α → List Char) {t : List Char × α} (ht : t ∈ p.parts) : text t.2 <:+: p.fill text := by
  obtain ⟨before, after, hcut⟩ := List.append_of_mem ht
  refine ⟨before.flatMap (fun t => t.1 ++ text t.2) ++ t.1, after.flatMap (fun t => t.1 ++ text t.2) ++ p.last, ?_⟩
  rw [fill, hcut, List.flatMap_append, List.flatMap_cons]
  simp only [List.append_assoc]

end Pointed

/-! ## Reading them -/

theorem Reading.addText_clear (nodes : List Node) (u : List Char) :
    (⟨[], nodes, false, false⟩ : Reading).addText u u = ⟨[], (textNodes u).reverse ++ nodes, false, false⟩ := by
  unfold Reading.addText textNodes
  rw [Bool.and_false, Bool.or_false]
  split <;> rfl

variable {α : Type} {name : α → String} {p : Pointed α}

/-- Reading goes from point to point and takes nothing away. -/
theorem readFrom_pointed (hp : p.Readable name) {fuel : Nat} (hfuel : (p.source name).length < fuel)
    (before : List Char)
    (done : List Node) : readFrom fuel before (p.source name) ⟨[], done, false, false⟩ =
      .ok ⟨[], (p.nodes name).reverse ++ done, false, false⟩ := by
  obtain ⟨parts, last⟩ := p
  induction parts generalizing fuel before done with
  | nil =>
    obtain ⟨fuel, rfl⟩ := Nat.exists_eq_succ_of_ne_zero (Nat.ne_zero_of_lt hfuel)
    exact (readFrom_end hp.last fuel before _).trans (congrArg Except.ok (Reading.addText_clear done last))
  | cons t parts ih =>
    have hrest : (⟨parts, last⟩ : Pointed α).Readable name :=
      ⟨fun t ht => hp.text t (List.mem_cons_of_mem _ ht), hp.last, fun t ht => hp.names t (List.mem_cons_of_mem _ ht)⟩
    have hcut : (⟨t :: parts, last⟩ : Pointed α).source name =
        t.1 ++ ((Token.point (name t.2)).source ++ (⟨parts, last⟩ : Pointed α).source name) := by
      simp only [Pointed.source, Pointed.fill, List.flatMap_cons, List.append_assoc]
    have hlength : 2 ≤ (Token.point (name t.2)).source.length := by simp [Token.source, openingTag, closingTag]
    rw [hcut, List.length_append, List.length_append] at hfuel
    obtain ⟨fuel, rfl⟩ : ∃ n, fuel = n + 2 := ⟨fuel - 2, by omega⟩
    obtain ⟨hne, hname⟩ := hp.names t List.mem_cons_self
    obtain ⟨before', hpoint⟩ := readFrom_point (hp.text t List.mem_cons_self) hne hname fuel before
      ((⟨parts, last⟩ : Pointed α).source name) ⟨[], done, false, false⟩
    rw [hcut, hpoint, Reading.addText_clear]
    refine (ih before' _ hrest (by omega)).trans ?_
    simp [Pointed.nodes, Reading.push]

/-- A text with insertion points is read as what it is. -/
theorem read?_pointed (hp : p.Readable name) : read? (String.ofList (p.source name)) = .ok (p.nodes name) := by
  unfold read?
  rw [String.toList_ofList]
  have := readFrom_pointed hp (Nat.lt_succ_self _) [] []
  simp only [bind, Except.bind, Reading.start, this]
  rw [List.append_nil, List.reverse_reverse]
  rfl

theorem read?_text {body : String} (h : Verbatim body.toList) : read? body = .ok (textNodes body.toList) := by
  unfold read?
  simp only [bind, Except.bind, readFrom_end h body.toList.length [] .start]
  rw [Reading.start, Reading.addText_clear, List.append_nil, List.reverse_reverse]
  rfl

/-! ## Rendering them -/

theorem renderNodes_append {below : Below} {env : Env} {nodes more : List Node}
    {st st' st'' : State} {out out' : List Char}
    (h : renderNodes below env nodes st = .ok (out, st')) (h' : renderNodes below env more st' = .ok (out', st'')) :
    renderNodes below env (nodes ++ more) st = .ok (out ++ out', st'') := by
  induction nodes generalizing st out with
  | nil =>
    cases h
    exact h'
  | cons node nodes ih =>
    rw [renderNodes] at h
    rw [List.cons_append, renderNodes]
    cases hnode : renderNode below env node st with
    | error e =>
      rw [hnode] at h
      cases h
    | ok first =>
      rw [hnode] at h
      cases hrest : renderNodes below env nodes first.2 with
      | error e =>
        simp only [bind, Except.bind, hrest] at h
        cases h
      | ok rest =>
        simp only [bind, Except.bind, hrest] at h
        cases h
        simp only [bind, Except.bind, ih hrest]
        exact congrArg Except.ok (by rw [List.append_assoc])

theorem renderNodes_textNodes {below : Below} {env : Env} (henv : env.indent = []) (s : List Char) (st : State) :
    renderNodes below env (textNodes s) st = .ok (s, st) := by
  unfold textNodes
  split
  · rename_i hs
    rw [List.isEmpty_iff.mp hs]
    rfl
  · have hwrite : env.write s = s := by simp [Env.write, henv]
    show Except.ok (env.write s ++ [], st) = _
    rw [hwrite, List.append_nil]

/-- A text with insertion points gives itself, with what its points give. -/
theorem renderNodes_pointed {below : Below} {env : Env} (henv : env.indent = []) {st : State} {text : α → List Char}
    (hpoints : ∀ t ∈ p.parts, renderPartial below env (nameCall (name t.2)) [] (some []) st = .ok (text t.2, st)) :
    renderNodes below env (p.nodes name) st = .ok (p.fill text, st) := by
  obtain ⟨parts, last⟩ := p
  induction parts with
  | nil => exact renderNodes_textNodes henv last st
  | cons t parts ih =>
    have hpoint : renderNodes below env [.partialUse (nameCall (name t.2)) [] (some [])] st = .ok (text t.2, st) := by
      rw [renderNodes, renderNode, hpoints t List.mem_cons_self]
      exact congrArg Except.ok (by rw [List.append_nil])
    have hhead := renderNodes_append (renderNodes_textNodes henv t.1 st) hpoint
    have := renderNodes_append hhead (ih fun t ht => hpoints t (List.mem_cons_of_mem _ ht))
    simpa only [Pointed.nodes, Pointed.fill, List.flatMap_cons, List.append_assoc] using this

end ComponentSite.Template

namespace ComponentSite
open Text Template

/-! ## The fragments of components -/

/-- A script or style stands between tags of its own. -/
theorem Fragment.exists_tagged {scopeClass script markup style : String} {element : Option CustomElement} {f : Fragment}
    (hf : f ∈ generate scopeClass script markup style element) (hkind : f.kind ≠ .content) :
    ∃ inner, f.body.toList = '<' :: (inner ++ ['>']) := by
  have htagged : ∀ opening text closing : String, opening.toList.head? = some '<' → closing.toList.getLast? = some '>' →
      ∃ inner, (opening ++ text ++ closing).toList = '<' :: (inner ++ ['>']) := by
    intro opening text closing hopening hclosing
    obtain ⟨s, hs⟩ := List.head?_eq_some_iff.mp hopening
    obtain ⟨t, ht⟩ := List.getLast?_eq_some_iff.mp hclosing
    exact ⟨s ++ text.toList ++ t, by simp [String.toList_append, hs, ht]⟩
  unfold generate at hf
  simp only [List.mem_append, or_assoc] at hf
  rcases hf with hf | hf | hf
  · split at hf
    · cases hf
    · rw [List.mem_singleton.mp hf]
      exact htagged _ _ _ (by decide) (by decide)
  · split at hf
    · cases hf
    · rw [List.mem_singleton.mp hf] at hkind
      exact absurd rfl hkind
  · split at hf
    · cases hf
    · rw [List.mem_singleton.mp hf]
      exact htagged _ _ _ (by decide) (by decide)

structure Furnished (owners : List Component) : Prop where
  classes : (owners.map (·.scopeClass)).Nodup
  plain : ∀ c ∈ owners, IsPlain c.scopeClass.toList
  fragments : ∀ c ∈ owners, ∃ script markup style element,
    c.fragments = Fragment.generate c.scopeClass script markup style element
  /-- The tags in a content are those of a template. -/
  contents : ∀ c ∈ owners, ∀ body, c.body? .content = some body → ∃ nodes, read? body = .ok nodes

/-- There are no four braces in a row in the script and the style, and no backslash directly
    before two braces. -/
def Component.Unmarked (c : Component) : Prop :=
  ∀ kind, kind ≠ .content → ∀ body, c.body? kind = some body →
    Lacks ['\x7b', '\x7b', '\x7b', '\x7b'] body.toList ∧ Lacks ['\\', '\x7b', '\x7b'] body.toList

namespace Furnished

variable {owners : List Component} (h : Furnished owners)
include h

theorem wellNamed {c : Component} (hc : c ∈ owners) : c.WellNamed := by
  obtain ⟨_, _, _, _, hfragments⟩ := h.fragments c hc
  exact wellNamed_generate c hfragments

theorem named : Named owners (·.fragments) where
  classes := h.classes
  name_eq _ hc := (h.wellNamed hc).name_eq
  kinds _ hc := (h.wellNamed hc).kinds

/-- The template of an unmarked script or style is one block with its text. -/
theorem read?_fragmentBody {c : Component} (hc : c ∈ owners) (hunmarked : c.Unmarked)
    {f : Fragment} (hf : f ∈ c.fragments)
    (hkind : f.kind ≠ .content) :
    read? (TemplateSet.fragmentBody f) = .ok [.block (nameCall "raw") (some [.text f.body.toList]) none] := by
  have hbody : c.body? f.kind = some f.body := by
    rw [Component.body?, (Fragment.ofKind?_eq_some (h.wellNamed hc).kinds).mpr ⟨hf, rfl⟩]
    rfl
  obtain ⟨hnoTag, hnoEscape⟩ := hunmarked f.kind hkind f.body hbody
  obtain ⟨_, _, _, _, hfragments⟩ := h.fragments c hc
  obtain ⟨inner, hinner⟩ := Fragment.exists_tagged (hfragments ▸ hf) hkind
  have hraw : Raw f.body.toList := by
    refine ⟨hnoTag, hnoEscape, ?_⟩
    rw [hinner, ← List.cons_append, List.getLast?_concat]
    decide
  have hskip : skipSpace f.body.toList = f.body.toList := by
    rw [hinner]
    exact skipSpace_of_not (by decide) _
  have hverbatim : TemplateSet.fragmentBody f = TemplateSet.verbatim f.body := by
    unfold TemplateSet.fragmentBody
    split <;> simp_all
  rw [hverbatim, read?_raw hraw, hskip]

end Furnished

/-! ## Their places in a page -/

abbrev Point := FragmentKind × Component

namespace Point

def name (a : Point) : String := a.1.nameFor a.2.scopeClass

def source (a : Point) : List Char := (Layout.insertionPoint a.1 a.2.scopeClass).toList

def body (a : Point) : List Char := ((a.2.body? a.1).getD "").toList

end Point

/-- The fragments of these components, and a layout with insertion points. -/
def fragmentSet (owners : List Component) (layout : Pointed Point) : TemplateSet :=
  ((owners.flatMap (·.fragments)).foldl TemplateSet.push .empty).insert TemplateSet.base
    (String.ofList (layout.fill Point.source))

/-- A layout without other tags than points for fragments of these components; a content
    that it shows has no tags in it. -/
structure Fits (owners : List Component) (layout : Pointed Point) : Prop where
  text : ∀ t ∈ layout.parts, Verbatim t.1
  last : Verbatim layout.last
  owned : ∀ t ∈ layout.parts, t.2.2 ∈ owners
  content : ∀ t ∈ layout.parts, t.2.1 = .content → ∀ body, t.2.2.body? .content = some body → Verbatim body.toList

section Set

variable {owners : List Component} {layout : Pointed Point} (h : Furnished owners) (hl : Fits owners layout)
  (hunmarked : ∀ c ∈ owners, c.Unmarked)
include h hl

theorem readable_points : layout.Readable Point.name :=
  ⟨hl.text, hl.last, fun t ht => readable_name t.2.1 (h.plain _ (hl.owned t ht))⟩

theorem read?_layout : read? (String.ofList (layout.fill Point.source)) = .ok (layout.nodes Point.name) := by
  have hsource : layout.fill Point.source = layout.source Point.name :=
    congrArg layout.fill (funext fun a => Layout.toList_insertionPoint a.1 a.2.scopeClass)
  rw [hsource, read?_pointed (readable_points h hl)]

include hunmarked

theorem read?_fragmentSet : ∀ t ∈ (fragmentSet owners layout).templates, ∃ nodes, read? t.2 = .ok nodes := by
  intro t ht
  rw [fragmentSet, TemplateSet.insert_of_not_mem h.named.base_not_mem, h.named.templates] at ht
  rcases List.mem_append.mp ht with ht | ht
  · obtain ⟨f, hf, rfl⟩ := List.mem_map.mp ht
    obtain ⟨c, hc, hf⟩ := List.mem_flatMap.mp hf
    by_cases hkind : f.kind = .content
    · have hbody : c.body? .content = some f.body := by
        rw [Component.body?, (Fragment.ofKind?_eq_some (h.wellNamed hc).kinds).mpr ⟨hf, hkind⟩]
        rfl
      have hown : TemplateSet.fragmentBody f = f.body := by simp [TemplateSet.fragmentBody, hkind]
      exact hown ▸ h.contents c hc f.body hbody
    · exact ⟨_, h.read?_fragmentBody hc (hunmarked c hc) hf hkind⟩
  · rw [List.mem_singleton.mp ht]
    exact ⟨_, read?_layout h hl⟩

/-- A point gives the text of its fragment, and nothing where there is none. -/
theorem renderPartial_point {registry : List (String × List Node)}
    (hreg : ∀ name, Registered registry name ((fragmentSet owners layout).get? name)) {t : List Char × Point}
    (ht : t ∈ layout.parts) {n : Nat} {env : Env} (henv : env.registry = registry)
    {st : State} (hinlines : st.inlines = [])
    (hcurrent : st.current = some TemplateSet.base) :
    renderPartial (renderTemplate (n + 2)) env (nameCall t.2.name) [] (some []) st = .ok (t.2.body, st) := by
  obtain ⟨u, kind, c⟩ := t
  have hc := hl.owned _ ht
  have hname : kind.nameFor c.scopeClass ≠ bodyName := bodyName_of_isPlain (kind.isPlain_nameFor (h.plain c hc))
  -- a template that is shown now would be refused, but this is the layout
  have hother : st.current ≠ some (kind.nameFor c.scopeClass) := by
    rw [hcurrent]
    exact fun e => nameFor_ne_base kind _ (Option.some.inj e).symm
  have hregistered := hreg (kind.nameFor c.scopeClass)
  rw [fragmentSet, TemplateSet.get?_insert_of_ne h.named.base_not_mem (nameFor_ne_base kind _).symm,
    h.named.get?_nameFor hc]
    at hregistered
  subst henv
  show renderPartial _ env (nameCall (kind.nameFor c.scopeClass)) [] (some []) st =
    .ok (((c.body? kind).getD "").toList, st)
  cases hf : Fragment.ofKind? c.fragments kind with
  | none =>
    rw [hf] at hregistered
    rw [renderPartial_missing hname hinlines hother rfl [] (Nat.succ_pos _) hregistered, Component.body?, hf]
    rfl
  | some f =>
    rw [hf] at hregistered
    obtain ⟨nodes, title, hread, hfind⟩ := hregistered
    have hbody : c.body? kind = some f.body := by rw [Component.body?, hf]; rfl
    obtain ⟨hmem, rfl⟩ := (Fragment.ofKind?_eq_some (h.wellNamed hc).kinds).mp hf
    rw [renderPartial_found hname hinlines hother rfl [] _ hfind, hbody]
    have hwrite : (env.inside (f.kind.nameFor c.scopeClass) [] (some [])).write f.body.toList = f.body.toList := rfl
    by_cases hkind : f.kind = .content
    · have hown : TemplateSet.fragmentBody f = f.body := by simp [TemplateSet.fragmentBody, hkind]
      rw [hown] at hread
      obtain rfl := Except.ok.inj (hread.symm.trans (read?_text (hl.content _ ht hkind f.body (hkind ▸ hbody))))
      rw [renderTemplate, renderNodes_textNodes rfl]
      rfl
    · obtain rfl := Except.ok.inj (hread.symm.trans (h.read?_fragmentBody hc (hunmarked c hc) hmem hkind))
      rw [renderTemplate_raw, hwrite]
      rfl

/-- A page with the fragments of these components and a layout that shows them is
    registered, and with any data it is the layout with the text of a fragment in the place
    of each point, unchanged. -/
theorem fragments_unchanged (path : Path) :
    ∃ p, CompiledPage.register path (fragmentSet owners layout) TemplateSet.base = .ok p ∧ ∀ data, ∃ out,
      p.render data = .ok out ∧ out.toList = layout.fill Point.body ∧
        ∀ t ∈ layout.parts, ∀ body, t.2.2.body? t.2.1 = some body → body.toList <:+: out.toList := by
  obtain ⟨registry, hread, hreg⟩ := CompiledPage.readAll_ok (read?_fragmentSet h hl hunmarked)
  have hget : (fragmentSet owners layout).get? TemplateSet.base = some (String.ofList (layout.fill Point.source)) :=
    TemplateSet.get?_insert_self h.named.base_not_mem _
  have hbase := hreg TemplateSet.base
  rw [hget] at hbase
  obtain ⟨nodes, title, hnodes, hfind⟩ := hbase
  obtain rfl := Except.ok.inj (hnodes.symm.trans (read?_layout h hl))
  refine ⟨⟨path, TemplateSet.base, fragmentSet owners layout, registry⟩, ?_, fun data => ?_⟩
  · unfold CompiledPage.register TemplateSet.contains
    rw [hread, hget]
    rfl
  · obtain ⟨n, hn⟩ : ∃ n, maxNesting registry data = n + 3 := by
      have := le_maxNesting (List.mem_of_find?_eq_some hfind) data
      exact ⟨maxNesting registry data - 3, by omega⟩
    refine ⟨String.ofList (layout.fill Point.body), ?_, String.toList_ofList, fun t ht body hbody => ?_⟩
    · have hrender : ∀ env : Env, env.registry = registry → env.indent = [] →
          renderTemplate (n + 3) env (some TemplateSet.base) (layout.nodes Point.name) ⟨[], none⟩ =
            .ok (layout.fill Point.body, ⟨[], some TemplateSet.base⟩) := by
        intro env henv hindent
        rw [renderTemplate]
        exact renderNodes_pointed hindent fun t ht => renderPartial_point h hl hunmarked hreg ht henv rfl rfl
      unfold CompiledPage.render render
      simp only [hfind, hn, hrender]
      rfl
    · have := layout.infix_fill Point.body ht
      rw [Point.body, hbody] at this
      rwa [String.toList_ofList]

end Set

/-- A component with a script and a style in braces, beside text with braces. -/
theorem fragments_unchanged_in_braces :
    let script := "f(`\x7b\x7bx\x7d\x7d \x7b\x7b\x7by\x7d\x7d\x7d \\\x7b`);"
    let style := "p \x7b\x7b#if\x7d\x7d"
    let c : Component := {
      name := "A", sourcePath := ⟨"a.goo"⟩, rawSource := "", script, style, markup := "", scopeClass := "c"
      fragments := Fragment.generate "c" script "" style none
      children := [], descendants := [], aliases := [], modified := 0 }
    let layout : Pointed Point :=
      ⟨[("<p id=\x7ba\x7d>".toList, .style, c), ("\n".toList, .content, c), ("\n".toList, .script, c)], "</p>".toList⟩
    let page := "<p id=\x7ba\x7d><style>\n" ++ style ++ "\n</style>\n\n<script>\n" ++ script ++ "\n</script></p>"
    (Furnished [c] ∧ Fits [c] layout ∧ c.Unmarked) ∧
      ∃ p, CompiledPage.register ⟨"p.goo"⟩ (fragmentSet [c] layout) TemplateSet.base = .ok p ∧
        ∀ data, ∃ out, p.render data = .ok out ∧ out = page := by
  intro script style c layout page
  have hnone : c.body? .content = none := by decide +kernel
  have hfurnished : Furnished [c] := by
    refine ⟨by decide, ?_, ?_, ?_⟩
    · rw [List.forall_mem_singleton]
      exact isPlain_of_all (by decide)
    · rw [List.forall_mem_singleton]
      exact ⟨script, "", style, none, rfl⟩
    · simp [hnone]
  have hfits : Fits [c] layout := by
    have hclear : ∀ s ∈ layout.last :: layout.parts.map (·.1),
        ¬ ['\x7b', '\x7b'] <:+: s ∧ s.getLast? ≠ some '\x7b' ∧ s.getLast? ≠ some '\\' := by decide +kernel
    refine ⟨fun t ht => ?_, ?_, by simp [layout], by simp [layout, hnone]⟩
    · have := hclear t.1 (List.mem_cons_of_mem _ (List.mem_map_of_mem ht))
      exact ⟨this.1, this.2⟩
    · have := hclear layout.last List.mem_cons_self
      exact ⟨this.1, this.2⟩
  have hunmarked : c.Unmarked := by
    have hclear : ∀ kind, kind ≠ .content → ∀ body ∈ c.body? kind,
        ¬ ['\x7b', '\x7b', '\x7b', '\x7b'] <:+: body.toList ∧ ¬ ['\\', '\x7b', '\x7b'] <:+: body.toList := by
      intro kind
      cases kind <;> decide +kernel
    exact hclear
  obtain ⟨p, hp, hrender⟩ :=
    fragments_unchanged hfurnished hfits (List.forall_mem_singleton.mpr hunmarked) ⟨"p.goo"⟩
  refine ⟨⟨hfurnished, hfits, hunmarked⟩, p, hp, fun data => ?_⟩
  obtain ⟨out, hout, hfill, -⟩ := hrender data
  refine ⟨out, hout, String.toList_injective (hfill.trans ?_)⟩
  decide +kernel

/-- Four braces in a script are taken for the end of its block, and a backslash directly
    before two braces is dropped. -/
theorem fragments_misread :
    let closing := "f('\x7b\x7b\x7b\x7b/raw\x7d\x7d\x7d\x7d')"
    let escaped := "f('\\\x7b\x7bx\x7d\x7d')"
    let owners (script : String) : List Component :=
      let files : FileTree :=
        { entries := [(["p.goo"], .file (some ("<script>" ++ script ++ "</script><component></component>")) 1)] }
      (ComponentGraph.empty.compilePage files { classOf := fun _ => "c" } ⟨"p.goo"⟩ "Page").2.components
    let scripts (script : String) : List (Option String) := (owners script).map (·.body? .script)
    let page (script : String) : Except SiteError CompiledPage :=
      let layout : Pointed Point := ⟨(owners script).map fun c => ([], .script, c), []⟩
      CompiledPage.register ⟨"p.goo"⟩ (fragmentSet (owners script) layout) TemplateSet.base
    (scripts closing = [some ("<script>\n" ++ closing ++ "\n</script>")] ∧
        (page closing).map (fun _ => ()) = .error (.templateRejected "js-c" .unreadable)) ∧
      scripts escaped = [some ("<script>\n" ++ escaped ++ "\n</script>")] ∧
        (page escaped).bind (·.render .null) = .ok "<script>\nf('\x7b\x7bx\x7d\x7d')\n</script>" := by
  intro closing escaped owners scripts page
  decide +kernel

end ComponentSite
