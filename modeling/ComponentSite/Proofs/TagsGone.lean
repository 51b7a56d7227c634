/-
  ComponentSite.Proofs.TagsGone — no tag of a component survives composing.

  A pass puts includes in the place of elements (`Patched`). An include starts with a
  brace and holds no `<`, so the start of a tag and a closing tag that are found after a
  pass stood there before it. Its `>` may be the end of a tag that was open in front of
  it; but then the element that was replaced had one there too, and the tag started an
  element before (`Patched.element?_eq_none`). So after the pass for a name there is no
  element of it, and no later pass brings one back (`tagFree_replaceIn`), whatever the
  text. The components of a compiled page put such includes in (`included_of_compiled`).
-/
import ComponentSite.Proofs.ComponentNames

namespace ComponentSite
open Text

namespace ComponentTag

/-! ## Elements and closing tags, taken apart -/

variable {name other template : List Char}

theorem closingTag?_eq_some {s rest : List Char} (h : closingTag? name s = some rest) :
    ∃ blanks, blanks.all isBlank = true ∧ s = '<' :: '/' :: name ++ blanks ++ ['>'] ++ rest := by
  obtain ⟨t, ht, hr⟩ := Option.bind_eq_some_iff.mp h
  have hcut : s = ("</".toList ++ name) ++ t := rest?_eq_some ht
  have hrest : t.dropWhile isBlank = '>' :: rest := rest?_eq_some hr
  refine ⟨t.takeWhile isBlank, List.all_takeWhile, ?_⟩
  calc s = ("</".toList ++ name) ++ (t.takeWhile isBlank ++ t.dropWhile isBlank) := by
        rw [List.takeWhile_append_dropWhile, hcut]
    _ = '<' :: '/' :: name ++ t.takeWhile isBlank ++ ['>'] ++ rest := by
        rw [hrest]
        simp

theorem exists_afterClosingTag?_append (p : List Char) {s rest : List Char} (h : afterClosingTag? name s = some rest) :
    ∃ rest', afterClosingTag? name (p ++ s) = some rest' := by
  induction p with
  | nil => exact ⟨rest, h⟩
  | cons c p ih =>
    rw [List.cons_append, afterClosingTag?]
    cases closingTag? name (c :: (p ++ s)) with
    | some rest' => exact ⟨rest', rfl⟩
    | none => exact ih

theorem element?_eq_some {s rest : List Char} (h : element? name s = some rest) :
    ∃ inner body, '>' ∉ inner ∧ s = '<' :: name ++ (inner ++ '>' :: body) ∧
      (opensPair inner = true ∧ afterClosingTag? name body = some rest ∨ closesItself inner = true ∧ body = rest) := by
  obtain ⟨t, ht, hr⟩ := Option.bind_eq_some_iff.mp h
  simp only at hr
  split at hr
  · cases hr
  · rename_i d body hbody
    have hd : d = '>' := by
      have := List.head?_dropWhile_not (· != '>') t
      rw [hbody] at this
      simpa using this
    subst hd
    have hinner : '>' ∉ t.takeWhile (· != '>') := fun hmem => by
      simpa using List.all_eq_true.mp List.all_takeWhile _ hmem
    refine ⟨t.takeWhile (· != '>'), body, hinner, ?_, ?_⟩
    · rw [← hbody, List.takeWhile_append_dropWhile]
      exact rest?_eq_some ht
    · split at hr
      · rename_i rest' hr'
        cases hr
        split at hr'
        · rename_i hopens
          exact Or.inl ⟨hopens, hr'⟩
        · cases hr'
      · split at hr
        · rename_i hcloses
          cases hr
          exact Or.inr ⟨hcloses, rfl⟩
        · cases hr

theorem element?_ne_none {inner body : List Char} (hinner : '>' ∉ inner)
    (h : opensPair inner = true ∧ (∃ rest, afterClosingTag? name body = some rest) ∨ closesItself inner = true) :
    element? name ('<' :: name ++ (inner ++ '>' :: body)) ≠ none := by
  obtain ⟨htake, hdrop⟩ := takeWhile_attributes hinner body
  unfold element?
  simp only [rest?_append, Option.bind_eq_bind, Option.bind_some, htake, hdrop]
  split
  · exact Option.some_ne_none _
  · rename_i hnone
    rcases h with ⟨hopens, rest, hrest⟩ | hcloses
    · rw [if_pos hopens, hrest] at hnone
      cases hnone
    · rw [if_pos hcloses]
      exact Option.some_ne_none _

/-- After white space a tag is of one kind or the other. -/
theorem opensPair_or_closesItself {b : Char} (hb : isBlank b = true) (r : List Char) :
    opensPair (b :: r) = true ∨ closesItself (b :: r) = true := by
  by_cases hlast : r.getLast? = some '/'
  · right
    unfold closesItself
    split
    · rfl
    · rename_i e
      cases e
      simp [hb, hlast]
    · rename_i e
      cases e
  · left
    simp [opensPair, hb, bne_iff_ne.mpr hlast]

/-- A tag with a brace before its end does not close itself. -/
theorem closesItself_marked (p : List Char) : closesItself (p ++ ['\x7b', '\x7b']) = false := by
  cases p with
  | nil => rfl
  | cons c p =>
    rw [List.cons_append]
    unfold closesItself
    split
    · rename_i e
      exact absurd (List.cons.inj e).2 (List.append_ne_nil_of_right_ne_nil p (List.cons_ne_nil _ _))
    · rename_i e
      obtain ⟨rfl, rfl⟩ := List.cons.inj e
      simp [List.getLast?_append]
    · rename_i e
      cases e

/-! ## Includes in place of elements -/

theorem not_mem_includeRest (h : '<' ∉ template) : '<' ∉ includeRest template := by simpa [includeRest] using h

theorem not_mem_include (h : '<' ∉ template) : '<' ∉ includeMark ++ includeRest template := by
  simpa [includeMark, includeRest] using h

/-- The second text is the first with an include in the place of some parts. Each of these
    starts with an angle bracket, and the first closing bracket in it ends `x`. -/
inductive Patched (template : List Char) : List Char → List Char → Prop
  | nil : Patched template [] []
  | keep {s s' : List Char} (c : Char) : Patched template s s' → Patched template (c :: s) (c :: s')
  | put {s s' : List Char} (x y : List Char) : '>' ∉ x → Patched template s s' →
      Patched template ('<' :: x ++ '>' :: y ++ s) (includeMark ++ includeRest template ++ s')

theorem patched_replaceIn (hother : '>' ∉ other) (s : List Char) :
    Patched template s (replaceIn other (includeMark ++ includeRest template) s).1 := by
  induction s using passInduction other with
  | nil =>
    rw [replaceIn]
    exact .nil
  | element c r rest he ih =>
    rw [replaceIn_of_element he]
    obtain ⟨inner, body, hinner, hs, hkind⟩ := element?_eq_some he
    obtain ⟨y, hy⟩ : rest <:+ body := by
      rcases hkind with ⟨-, hrest⟩ | ⟨-, rfl⟩
      · exact afterClosingTag?_suffix hrest
      · exact List.suffix_rfl
    have hcut : c :: r = '<' :: (other ++ inner) ++ '>' :: y ++ rest := by
      rw [hs, ← hy]
      simp
    rw [hcut]
    refine .put _ _ ?_ ih
    rw [List.mem_append, not_or]
    exact ⟨hother, hinner⟩
  | char c r he ih =>
    rw [replaceIn_of_none he]
    exact .keep c ih

namespace Patched

variable {s s' : List Char}

/-- Text without braces was there before. -/
theorem of_append {p t' : List Char} (hp : '\x7b' ∉ p) (h : Patched template s (p ++ t')) :
    ∃ t, s = p ++ t ∧ Patched template t t' := by
  induction p generalizing s with
  | nil => exact ⟨s, rfl, h⟩
  | cons c p ih =>
    rw [List.mem_cons, not_or] at hp
    generalize hu : c :: p ++ t' = u at h
    cases h with
    | nil => cases hu
    | keep d h =>
      cases hu
      obtain ⟨t, rfl, ht⟩ := ih hp.2 h
      exact ⟨t, rfl, ht⟩
    | put x y hx h =>
      rw [includeMark] at hu
      exact absurd (List.cons.inj hu).1.symm hp.1

/-- The first closing bracket was there before, or it is that of an include. -/
theorem of_bracket {inner body' : List Char} (hinner : '>' ∉ inner) (h : Patched template s (inner ++ '>' :: body')) :
    (∃ body, s = inner ++ '>' :: body ∧ Patched template body body') ∨
      ∃ p x y t t', inner = p ++ ['\x7b', '\x7b'] ∧ s = p ++ ('<' :: x ++ '>' :: y ++ t) ∧ '>' ∉ x ∧
        body' = includeRest template ++ t' ∧ Patched template t t' := by
  induction inner generalizing s with
  | nil =>
    left
    obtain ⟨body, rfl, hbody⟩ := of_append (p := ['>']) (by decide) h
    exact ⟨body, rfl, hbody⟩
  | cons c inner ih =>
    rw [List.mem_cons, not_or] at hinner
    generalize hu : c :: inner ++ '>' :: body' = u at h
    cases h with
    | nil => cases hu
    | keep d h =>
      cases hu
      rcases ih hinner.2 h with ⟨body, rfl, hbody⟩ | ⟨p, x, y, t, t', rfl, rfl, hx, rfl, ht⟩
      · exact Or.inl ⟨body, rfl, hbody⟩
      · exact Or.inr ⟨c :: p, x, y, t, t', rfl, rfl, hx, rfl, ht⟩
    | @put s₀ s₀' x y hx h =>
      right
      simp only [includeMark, List.cons_append, List.nil_append, List.cons.injEq] at hu
      obtain ⟨rfl, hu⟩ := hu
      rcases inner with - | ⟨d, inner⟩
      · cases hu
      simp only [List.cons_append, List.cons.injEq] at hu
      obtain ⟨rfl, hu⟩ := hu
      rcases inner with - | ⟨d, inner⟩
      · exact ⟨[], x, y, s₀, s₀', rfl, rfl, hx, (List.cons.inj hu).2, h⟩
      · exact absurd (List.cons.inj hu).1 fun e => hinner.2 (e ▸ by simp)

theorem exists_afterClosingTag? (hname : '\x7b' ∉ name) (htemplate : '<' ∉ template) (h : Patched template s s')
    {rest' : List Char} (hrest : afterClosingTag? name s' = some rest') :
    ∃ rest, afterClosingTag? name s = some rest := by
  induction h generalizing rest' with
  | nil => cases hrest
  | @keep s s' c h ih =>
    rw [afterClosingTag?] at hrest
    cases hclosing : closingTag? name (c :: s') with
    | some rest =>
      obtain ⟨blanks, hblanks, hcut⟩ := closingTag?_eq_some hclosing
      have hp : '\x7b' ∉ '<' :: '/' :: name ++ blanks ++ ['>'] := by
        simp [hname, not_mem_of_isBlank (c := '\x7b') rfl hblanks]
      obtain ⟨t, ht, -⟩ := of_append hp (hcut ▸ h.keep c)
      refine ⟨t, ?_⟩
      rw [afterClosingTag?, ht, closingTag?_self name hblanks]
    | none =>
      rw [hclosing] at hrest
      obtain ⟨rest, hrest⟩ := ih hrest
      exact exists_afterClosingTag?_append [c] hrest
  | put x y hx h ih =>
    rw [afterClosingTag?_append (not_mem_include htemplate)] at hrest
    obtain ⟨rest, hrest⟩ := ih hrest
    exact exists_afterClosingTag?_append _ hrest

/-- A tag that starts no element starts none afterwards. -/
theorem element?_eq_none (hname : '\x7b' ∉ name) (htemplate : '<' ∉ template) (h : Patched template s s')
    (hnone : element? name ('<' :: s) = none) : element? name ('<' :: s') = none := by
  by_contra hsome
  obtain ⟨rest, hrest⟩ := Option.ne_none_iff_exists'.mp hsome
  obtain ⟨inner, body', hinner, hs', hkind⟩ := element?_eq_some hrest
  obtain ⟨t, rfl, ht⟩ := of_append hname ((List.cons.inj hs').2 ▸ h)
  rcases of_bracket hinner ht with ⟨body, rfl, hbody⟩ | ⟨p, x, y, u, u', rfl, rfl, hx, rfl, hu⟩
  · -- the tag ends where it did
    refine element?_ne_none hinner ?_ hnone
    rcases hkind with ⟨hopens, hclosing⟩ | ⟨hcloses, -⟩
    · exact Or.inl ⟨hopens, hbody.exists_afterClosingTag? hname htemplate hclosing⟩
    · exact Or.inr hcloses
  · -- the tag ends with the mark of an include, and ended with the first tag of the element there
    rcases hkind with ⟨hopens, hclosing⟩ | ⟨hcloses, -⟩
    · rcases p with - | ⟨b, p⟩
      · cases hopens
      have hb : isBlank b = true := ((Bool.and_eq_true _ _).mp hopens).1
      have hclosing' : ∃ rest, afterClosingTag? name (y ++ u) = some rest := by
        rw [afterClosingTag?_append (not_mem_includeRest htemplate)] at hclosing
        obtain ⟨rest, hclosing⟩ := hu.exists_afterClosingTag? hname htemplate hclosing
        exact exists_afterClosingTag?_append y hclosing
      have hinner' : '>' ∉ b :: p ++ '<' :: x := by
        simp only [List.mem_append, List.mem_cons, not_or] at hinner ⊢
        exact ⟨hinner.1, by decide, hx⟩
      have hnone' : element? name ('<' :: name ++ (b :: p ++ '<' :: x ++ '>' :: (y ++ u))) = none := by
        simpa using hnone
      refine element?_ne_none hinner' ?_ hnone'
      exact (opensPair_or_closesItself hb (p ++ '<' :: x)).imp_left fun hopens => ⟨hopens, hclosing'⟩
    · rw [closesItself_marked] at hcloses
      cases hcloses

end Patched

/-! ## No element of a name -/

def TagFree (name s : List Char) : Prop := ∀ t, t <:+ s → element? name t = none

namespace TagFree

variable {s : List Char}

theorem of_suffix {t : List Char} (h : TagFree name s) (ht : t <:+ s) : TagFree name t :=
  fun _ hu => h _ (hu.trans ht)

theorem cons {c : Char} (h : TagFree name s) (hc : element? name (c :: s) = none) : TagFree name (c :: s) := by
  intro t ht
  rcases List.suffix_cons_iff.mp ht with rfl | ht
  · exact hc
  · exact h t ht

theorem append {p : List Char} (hp : '<' ∉ p) (h : TagFree name s) : TagFree name (p ++ s) := by
  induction p with
  | nil => exact h
  | cons c p ih =>
    rw [List.mem_cons, not_or] at hp
    exact (ih hp.2).cons (ComponentTag.element?_eq_none (Ne.symm hp.1) _)

end TagFree

theorem tagFree_nil (name : List Char) : TagFree name [] := by
  intro t ht
  rw [List.suffix_nil.mp ht]
  rfl

/-- A pass for a name leaves no element of it, and makes none of another. -/
theorem tagFree_replaceIn (hname : '\x7b' ∉ name) (hother : '>' ∉ other) (htemplate : '<' ∉ template) {s : List Char}
    (h : name = other ∨ TagFree name s) : TagFree name (replaceIn other (includeMark ++ includeRest template) s).1 := by
  induction s using passInduction other with
  | nil =>
    rw [replaceIn]
    exact tagFree_nil name
  | element c r rest he ih =>
    rw [replaceIn_of_element he]
    exact (ih (h.imp_right fun h => h.of_suffix (element?_suffix he))).append (not_mem_include htemplate)
  | char c r he ih =>
    rw [replaceIn_of_none he]
    refine (ih (h.imp_right fun h => h.of_suffix (List.suffix_cons c r))).cons ?_
    by_cases hc : c = '<'
    · subst hc
      refine (patched_replaceIn hother r).element?_eq_none hname htemplate ?_
      rcases h with rfl | h
      · exact he
      · exact h _ List.suffix_rfl
    · exact ComponentTag.element?_eq_none hc _

/-- With nothing in the place of an element two halves of a tag come together. -/
example : (replaceIn ['B'] [] "<Ca<B/>rd/>".toList).1 = "<Card/>".toList := by decide +kernel

end ComponentTag

/-! ## All passes -/

/-- The component has content, in a template that is named after its class; its names are
    such as an import binds, and no tag starts in its class. -/
structure Component.Included (c : Component) : Prop where
  content : ∃ f, Fragment.ofKind? c.fragments .content = some f ∧ f.name = c.contentName
  names : ∀ n ∈ c.names, Imports.isComponentName n.toList = true
  scopeClass : '<' ∉ c.scopeClass.toList

theorem Component.Included.includeFor_eq {c : Component} (h : c.Included) :
    (Composition.includeFor c).toList = includeMark ++ includeRest c.contentName.toList ∧
      '<' ∉ c.contentName.toList := by
  obtain ⟨f, hf, hname⟩ := h.content
  constructor
  · unfold Composition.includeFor
    rw [hf]
    simp only [hname, toList_includeTag]
  · rw [contentName, FragmentKind.nameFor, String.toList_append, List.mem_append, not_or]
    exact ⟨by decide, h.scopeClass⟩

namespace Composition
open ComponentTag

/-- No element of any of these components starts in the text, under any name. -/
def FreeOf (targets : List Component) (text : String) : Prop :=
  ∀ t ∈ targets, ∀ n ∈ t.names, TagFree n.toList text.toList

variable {t : Component} {name : String} {text : String}

/-- The passes for a component leave no element of it, and make none of another. -/
theorem tagFree_replaceElements (hname : '\x7b' ∉ name.toList) (ht : t.Included)
    (h : name ∈ t.names ∨ TagFree name.toList text.toList) : TagFree name.toList (replaceElements text t).toList := by
  obtain ⟨hinclude, htemplate⟩ := ht.includeFor_eq
  have hnames : ∀ n ∈ t.names, '>' ∉ n.toList := fun n hn => Imports.not_mem_componentName (ht.names n hn) (by decide)
  unfold replaceElements
  generalize t.names = names at h hnames
  induction names generalizing text with
  | nil => exact h.resolve_left List.not_mem_nil
  | cons n names ih =>
    refine ih ?_ fun m hm => hnames m (List.mem_cons_of_mem _ hm)
    rcases Classical.em (name ∈ names) with hm | hm
    · exact Or.inl hm
    · right
      simp only [ComponentTag.replace, String.toList_ofList, hinclude]
      refine tagFree_replaceIn hname (hnames n List.mem_cons_self) htemplate (h.imp_left fun h => ?_)
      rw [(List.mem_cons.mp h).resolve_right hm]

theorem tagFree_replaceAll {targets : List Component} (hname : '\x7b' ∉ name.toList) (ht : ∀ t ∈ targets, t.Included)
    (h : (∃ t ∈ targets, name ∈ t.names) ∨ TagFree name.toList text.toList) :
    TagFree name.toList (replaceAll targets text).toList := by
  induction targets generalizing text with
  | nil => exact h.resolve_left (by simp)
  | cons t targets ih =>
    refine ih (fun u hu => ht u (List.mem_cons_of_mem _ hu)) ?_
    rcases Classical.em (∃ u ∈ targets, name ∈ u.names) with hu | hu
    · exact Or.inl hu
    · right
      refine tagFree_replaceElements hname (ht t List.mem_cons_self) (h.imp_left ?_)
      rintro ⟨u, hmem, hn⟩
      rcases List.mem_cons.mp hmem with rfl | hmem
      · exact hn
      · exact absurd ⟨u, hmem, hn⟩ hu

theorem freeOf_replaceAll {targets : List Component} (ht : ∀ t ∈ targets, t.Included) (text : String) :
    FreeOf targets (replaceAll targets text) := fun t hmem n hn =>
  tagFree_replaceAll (Imports.not_mem_componentName ((ht t hmem).names n hn) (by decide)) ht (Or.inl ⟨t, hmem, hn⟩)

/-- Composing leaves no element of a component, whatever the texts are: none in the content
    of the page, and in that of a component none of the others. -/
theorem composed_freeOf (page : Component) {flat : List Component} (h : ∀ c ∈ flat, c.Included) :
    (∀ body ∈ pageContent page flat, FreeOf flat body) ∧
      (∀ i c, flat[i]? = some c → ∃ body ∈ contentAt flat i, FreeOf (flat.eraseIdx i) body) ∧
      (Distinct page flat →
        (∀ body ∈ (composePage page flat).get? page.contentName, FreeOf flat body) ∧
          ∀ c ∈ flat, ∃ body ∈ (composePage page flat).get? c.contentName, FreeOf (flat.erase c) body) := by
  have hcontent : ∀ c ∈ flat, ∃ own, c.body? .content = some own := fun c hc => by
    obtain ⟨f, hf, -⟩ := (h c hc).content
    exact ⟨f.body, by rw [Component.body?, hf]; rfl⟩
  have hpage : ∀ body ∈ (page.body? .content).map (replaceAll flat), FreeOf flat body := by
    intro body hbody
    obtain ⟨own, -, rfl⟩ := Option.map_eq_some_iff.mp hbody
    exact freeOf_replaceAll h own
  refine ⟨by rwa [pageContent_eq], fun i c hi => ?_, fun hdistinct => ⟨?_, fun c hc => ?_⟩⟩
  · obtain ⟨own, hown⟩ := hcontent c (List.mem_of_getElem? hi)
    refine ⟨replaceAll (flat.eraseIdx i) own, by rw [contentAt_eq hi, hown]; rfl, ?_⟩
    exact freeOf_replaceAll (fun t ht => h t (List.mem_of_mem_eraseIdx ht)) own
  · rw [Component.contentName, hdistinct.get?_content List.mem_cons_self,
      List.erase_of_not_mem (List.nodup_cons.mp hdistinct.nodup).1]
    exact hpage
  · obtain ⟨own, hown⟩ := hcontent c hc
    refine ⟨replaceAll (flat.erase c) own, ?_, freeOf_replaceAll (fun t ht => h t (List.mem_of_mem_erase ht)) own⟩
    rw [Component.contentName, hdistinct.get?_content (List.mem_cons_of_mem _ hc), hown]
    rfl

/-- The components of a compiled page are such, where they have content. -/
theorem included_of_compiled {files : FileTree} {config : Config} {seed : Nat} {path : Path} {name : String}
    {result : Except SiteError Path} {g : ComponentGraph} (hname : Imports.isComponentName name.toList = true)
    (hcompiled : ComponentGraph.empty.compilePage files (config.compileOptions seed) path name = (result, g))
    {c : Component} (hc : c ∈ g.components) {own : String} (hown : c.body? .content = some own) : c.Included := by
  obtain ⟨hwell, hnames, hplain⟩ := ComponentGraph.named_of_compiled hname hcompiled c hc
  refine ⟨?_, hnames, (not_mem_of_isPlain hplain).2⟩
  obtain ⟨f, hf, -⟩ := Option.map_eq_some_iff.mp hown
  obtain ⟨hmem, hkind⟩ := (Fragment.ofKind?_eq_some hwell.kinds).mp hf
  exact ⟨f, hf, by rw [hwell.name_eq f hmem, hkind]; rfl⟩

def shown (name scopeClass content : String) (aliases : List String) : Component :=
  { name, sourcePath := ⟨name⟩, rawSource := content, script := "", style := "", markup := content, scopeClass,
    fragments := [⟨.content, FragmentKind.content.nameFor scopeClass, content⟩], children := [], descendants := [],
    aliases, modified := 0 }

/-- Tags that are open, closed twice and in each other: the content of the page ends up
    without elements of the two components, although tags of theirs are left. -/
theorem composed_freeOf_torn :
    let page := shown "Page" "goo-0" "<Card <Badge/>>x</Card><Card <Tile/><Badge " []
    let card := shown "Card" "goo-1" "<b><Badge></b><Tile/>" ["Tile"]
    let badge := shown "Badge" "goo-2" "<Tile <Badge/></Badge>" []
    ∃ body ∈ pageContent page [card, badge], FreeOf [card, badge] body ∧
      body = "\x7b\x7b> content-goo-1\x7d\x7d>x</Card>\x7b\x7b> content-goo-1\x7d\x7d<Badge " := by
  intro page card badge
  have hcard : card.Included := ⟨⟨_, rfl, rfl⟩, by decide, by decide⟩
  have hbadge : badge.Included := ⟨⟨_, rfl, rfl⟩, by decide, by decide⟩
  have h : ∀ c ∈ [card, badge], c.Included := List.forall_mem_cons.mpr ⟨hcard, List.forall_mem_singleton.mpr hbadge⟩
  have hbody : pageContent page [card, badge] =
      some "\x7b\x7b> content-goo-1\x7d\x7d>x</Card>\x7b\x7b> content-goo-1\x7d\x7d<Badge " := by decide +kernel
  exact ⟨_, hbody, (composed_freeOf page h).1 _ hbody, rfl⟩

end Composition

end ComponentSite
