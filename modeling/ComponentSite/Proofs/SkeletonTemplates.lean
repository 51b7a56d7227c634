/-
  ComponentSite.Proofs.SkeletonTemplates — the templates of a page as skeletons.

  A component whose style and markup are filled skeletons has fragments that are filled
  skeletons, under filled names (`Outlined`, `exists_generate`). The include of its content is
  one too, so all passes over a content are (`exists_replaceAll`), and each fragment gives a
  template whose name and body are the same skeletons for all classes (`exists_templates`).
-/
import ComponentSite.Proofs.FragmentsWired
import ComponentSite.Proofs.SkeletonPasses

namespace ComponentSite.Skeleton
open Text ComponentSite.Composition

variable {S : Path → Prop} {classOf : Path → String} {source : Path}

/-! ## Fragments -/

abbrev Outline := List (FragmentKind × Skeleton)

namespace Outline

def Guarded (S : Path → Prop) (o : Outline) : Prop := ∀ f ∈ o, Skeleton.Guarded S true f.2

def fill (classOf : Path → String) (source : Path) (o : Outline) : List Fragment :=
  o.map fun f => ⟨f.1, f.1.nameFor (classOf source), String.ofList (Skeleton.fill classOf f.2)⟩

/-- At most one fragment, with this body. -/
theorem exists_of_body (source : Path) (kind : FragmentKind) (absent : Bool) {body : Skeleton}
    (h : Skeleton.Guarded S true body) :
    ∃ o : Outline, o.Guarded S ∧ ∀ classOf,
      (if absent = true then [] else
        [(⟨kind, kind.nameFor (classOf source), String.ofList (Skeleton.fill classOf body)⟩ : Fragment)]) =
        o.fill classOf source := by
  cases absent with
  | true => exact ⟨[], fun _ h => absurd h List.not_mem_nil, fun _ => rfl⟩
  | false => exact ⟨[(kind, body)], fun f hf => List.mem_singleton.mp hf ▸ h, fun _ => rfl⟩

theorem exists_of_text (source : Path) (kind : FragmentKind) (absent : Bool) (text : String) :
    ∃ o : Outline, o.Guarded S ∧ ∀ classOf,
      (if absent = true then [] else [(⟨kind, kind.nameFor (classOf source), text⟩ : Fragment)]) =
        o.fill classOf source := by
  obtain ⟨o, ho, e⟩ := exists_of_body source kind absent (guarded_ofChars (S := S) true text.toList)
  refine ⟨o, ho, fun classOf => ?_⟩
  rw [← e classOf, fill_ofChars, String.ofList_toList]

end Outline

theorem exists_trimmed {s : Skeleton} (h : Guarded S true s) :
    ∃ t, Guarded S true t ∧ ∀ classOf, Names S classOf →
      trimmed (String.ofList (fill classOf s)) = String.ofList (fill classOf t) ∧
        (String.ofList (fill classOf t)).isEmpty = t.isEmpty := by
  obtain ⟨t, ht, e⟩ := exists_trim h
  refine ⟨t, ht, fun classOf hn => ⟨by rw [trimmed, String.toList_ofList, e classOf hn], ?_⟩⟩
  rw [← isEmpty_fill ht hn, Bool.eq_iff_iff]
  simp

theorem exists_wrapMarkup {s : Skeleton} (h : Guarded S true s) (element : CustomElement) :
    ∃ t, Guarded S true t ∧ ∀ classOf,
      element.wrapMarkup (String.ofList (fill classOf s)) = String.ofList (fill classOf t) := by
  refine ⟨ofChars (("<" ++ element.tag ++ ">").toList ++ ['\n']) ++ s ++
    ofChars ("\n</" ++ element.tag ++ ">").toList, ?_, fun classOf => ?_⟩
  · exact (guarded_behind _ (by decide) h true).append (guarded_ofChars false _)
  · refine String.toList_injective ?_
    simp [CustomElement.wrapMarkup, String.toList_append]

/-- Which element is attached does not depend on the class, the markup and the style. -/
theorem exists_attached (script : String) (element : Option CustomElement) :
    ∃ attached : Option CustomElement, ∀ scopeClass markup style,
      Fragment.generate scopeClass script markup style element =
      (if (trimmed script).isEmpty = true then [] else [⟨.script, FragmentKind.script.nameFor scopeClass,
        "<script>\n" ++ attached.elim (trimmed script) (·.wrapScript (trimmed script)) ++ "\n</script>"⟩]) ++
      (if (trimmed markup).isEmpty = true then [] else [⟨.content, FragmentKind.content.nameFor scopeClass,
        attached.elim (trimmed markup) (·.wrapMarkup (trimmed markup))⟩]) ++
      (if (trimmed style).isEmpty = true then [] else [⟨.style, FragmentKind.style.nameFor scopeClass,
        "<style>\n" ++ trimmed style ++ "\n</style>"⟩]) := by
  refine ⟨if (trimmed script).isEmpty then none else element, fun scopeClass markup style => ?_⟩
  unfold Fragment.generate
  dsimp only
  cases (if (trimmed script).isEmpty = true then none else element) <;> rfl

theorem exists_generate (source : Path) (script : String) {markup style : Skeleton} (hmarkup : Guarded S true markup)
    (hstyle : Guarded S true style) (element : Option CustomElement) :
    ∃ o : Outline, o.Guarded S ∧ ∀ classOf, Names S classOf →
      Fragment.generate (classOf source) script (String.ofList (fill classOf markup))
        (String.ofList (fill classOf style)) element =
        o.fill classOf source := by
  obtain ⟨markup', hmarkup', em⟩ := exists_trimmed hmarkup
  obtain ⟨style', hstyle', es⟩ := exists_trimmed hstyle
  have hsheet : Guarded S true (ofChars ("<style>".toList ++ ['\n']) ++ style' ++ ofChars "\n</style>".toList) :=
    (guarded_behind _ (by decide) hstyle' true).append (guarded_ofChars false _)
  have hbody : ∀ classOf, "<style>\n" ++ String.ofList (fill classOf style') ++ "\n</style>" =
      String.ofList (fill classOf (ofChars ("<style>".toList ++ ['\n']) ++ style' ++ ofChars "\n</style>".toList)) :=
    fun classOf => String.toList_injective (by simp [String.toList_append])
  obtain ⟨attached, e⟩ := exists_attached script element
  obtain ⟨content, hcontent, ec⟩ : ∃ t, Guarded S true t ∧ ∀ classOf,
      attached.elim (String.ofList (fill classOf markup')) (·.wrapMarkup (String.ofList (fill classOf markup'))) =
        String.ofList (fill classOf t) := by
    cases attached with
    | none => exact ⟨markup', hmarkup', fun _ => rfl⟩
    | some wrapper => exact exists_wrapMarkup hmarkup' wrapper
  obtain ⟨first, hfirst, e₁⟩ := Outline.exists_of_text (S := S) source .script (trimmed script).isEmpty
    ("<script>\n" ++ attached.elim (trimmed script) (·.wrapScript (trimmed script)) ++ "\n</script>")
  obtain ⟨second, hsecond, e₂⟩ := Outline.exists_of_body source .content markup'.isEmpty hcontent
  obtain ⟨third, hthird, e₃⟩ := Outline.exists_of_body source .style style'.isEmpty hsheet
  refine ⟨first ++ second ++ third, ?_, fun classOf hn => ?_⟩
  · intro f hf
    rcases List.mem_append.mp hf with hf | hf
    · exact (List.mem_append.mp hf).elim (hfirst f) (hsecond f)
    · exact hthird f hf
  · rw [e, (em classOf hn).1, (em classOf hn).2, (es classOf hn).1, (es classOf hn).2, ec, hbody, e₁, e₂, e₃,
      Outline.fill, Outline.fill, Outline.fill, Outline.fill, List.map_append, List.map_append]

/-! ## Includes and passes -/

/-- A component that is given for all classes has fragments that depend on the classes as
    fillings do. -/
def Outlined (S : Path → Prop) (component : (Path → String) → Component) : Prop :=
  ∃ (source : Path) (o : Outline), S source ∧ o.Guarded S ∧
    ∀ classOf, Names S classOf → (component classOf).fragments = o.fill classOf source

structure Placed (S : Path → Prop) (component : (Path → String) → Component) : Prop where
  outlined : Outlined S component
  words : ∃ names : List String, (∀ n ∈ names, IsWord n.toList) ∧ ∀ classOf, (component classOf).names = names

def includeOf (source : Path) (o : Outline) : Skeleton :=
  if o.any (·.1 == .content) then
    ofChars "\x7b\x7b> ".toList ++ nameOf .content source ++ ofChars "\x7d\x7d".toList
  else []

theorem guarded_includeOf (hsource : S source) (o : Outline) : Guarded S false (includeOf source o) := by
  unfold includeOf
  split
  · exact ((guarded_ofChars false "\x7b\x7b> ".toList).append (guarded_nameOf .content hsource)).append
      (guarded_ofChars false _)
  · trivial

theorem fill_includeOf {c : Component} {o : Outline} (h : c.fragments = o.fill classOf source) :
    fill classOf (includeOf source o) = (includeFor c).toList := by
  unfold includeFor Fragment.ofKind? includeOf
  rw [h]
  clear h
  induction o with
  | nil => rfl
  | cons f rest ih =>
    rw [Outline.fill, List.map_cons, List.find?_cons, List.any_cons]
    cases hf : f.1 == FragmentKind.content with
    | true =>
      have hkind : f.1 = .content := by simpa using hf
      simp [hkind, fill_nameOf, includeTag, String.toList_append]
    | false =>
      simp only [Bool.false_or]
      exact ih

theorem exists_replaceElements {names : List String} (hnames : ∀ n ∈ names, IsWord n.toList) {replacement : Skeleton}
    (hreplacement : Guarded S false replacement) {s : Skeleton} (hs : Guarded S true s) :
    ∃ t, Guarded S true t ∧ ∀ classOf, Names S classOf → ∀ c : Component, c.names = names →
      (includeFor c).toList = fill classOf replacement →
        replaceElements (String.ofList (fill classOf s)) c = String.ofList (fill classOf t) := by
  suffices h : ∃ t, Guarded S true t ∧ ∀ classOf, Names S classOf →
      ∀ text : String, text.toList = fill classOf replacement →
      names.foldl (fun s name => (ComponentTag.replace name s text).1) (String.ofList (fill classOf s)) =
        String.ofList (fill classOf t) by
    obtain ⟨t, ht, e⟩ := h
    refine ⟨t, ht, fun classOf hn c hc htext => ?_⟩
    rw [replaceElements, hc]
    exact e classOf hn _ htext
  induction names generalizing s with
  | nil => exact ⟨s, hs, fun _ _ _ _ => rfl⟩
  | cons name rest ih =>
    obtain ⟨t, ht, e⟩ := exists_replaceIn (hnames name List.mem_cons_self) hreplacement s hs
    obtain ⟨u, hu, e'⟩ := ih (fun n hn => hnames n (List.mem_cons_of_mem _ hn)) ht
    refine ⟨u, hu, fun classOf hn text htext => ?_⟩
    rw [List.foldl_cons, ComponentTag.replace, htext, String.toList_ofList]
    simp only [e classOf hn]
    exact e' classOf hn text htext

theorem exists_replaceAll {targets : List ((Path → String) → Component)}
    (htargets : ∀ target ∈ targets, Placed S target)
    {s : Skeleton} (hs : Guarded S true s) :
    ∃ t, ∀ classOf, Names S classOf →
      replaceAll (targets.map (· classOf)) (String.ofList (fill classOf s)) = String.ofList (fill classOf t) := by
  induction targets generalizing s with
  | nil => exact ⟨s, fun _ _ => rfl⟩
  | cons target rest ih =>
    obtain ⟨⟨source, o, hsource, -, hfill⟩, names, hwords, hnames⟩ := htargets target List.mem_cons_self
    obtain ⟨t, ht, e⟩ := exists_replaceElements hwords (guarded_includeOf hsource o) hs
    obtain ⟨u, e'⟩ := ih (fun target ht => htargets target (List.mem_cons_of_mem _ ht)) ht
    refine ⟨u, fun classOf hn => ?_⟩
    have hstep := e classOf hn (target classOf) (hnames classOf) (fill_includeOf (hfill classOf hn)).symm
    rw [List.map_cons, replaceAll, List.foldl_cons, hstep]
    exact e' classOf hn

/-! ## Templates -/

def template (classOf : Path → String) (t : Skeleton × Skeleton) : String × String :=
  (String.ofList (fill classOf t.1), String.ofList (fill classOf t.2))

theorem exists_templates {component : (Path → String) → Component} (h : Outlined S component)
    {targets : List ((Path → String) → Component)} (htargets : ∀ target ∈ targets, Placed S target) :
    ∃ templates : List (Skeleton × Skeleton), ∀ classOf, Names S classOf →
      ((component classOf).fragments.map fun f =>
        (f.name,
          if f.kind = .content then replaceAll (targets.map (· classOf)) f.body
          else TemplateSet.verbatim f.body)) =
        templates.map (template classOf) := by
  obtain ⟨source, o, -, ho, hfill⟩ := h
  suffices h : ∃ templates : List (Skeleton × Skeleton), ∀ classOf, Names S classOf →
      ((o.fill classOf source).map fun f =>
        (f.name,
          if f.kind = .content then replaceAll (targets.map (· classOf)) f.body
          else TemplateSet.verbatim f.body)) =
        templates.map (template classOf) by
    obtain ⟨templates, e⟩ := h
    exact ⟨templates, fun classOf hn => by rw [hfill classOf hn, e classOf hn]⟩
  clear hfill
  induction o with
  | nil => exact ⟨[], fun _ _ => rfl⟩
  | cons f rest ih =>
    obtain ⟨templates, e⟩ := ih fun f hf => ho f (List.mem_cons_of_mem _ hf)
    obtain ⟨body, hbody⟩ : ∃ t, ∀ classOf, Names S classOf →
        (if f.1 = .content then replaceAll (targets.map (· classOf)) (String.ofList (fill classOf f.2))
          else TemplateSet.verbatim (String.ofList (fill classOf f.2))) = String.ofList (fill classOf t) := by
      split
      · exact exists_replaceAll htargets (ho f List.mem_cons_self)
      · refine ⟨ofChars "\x7b\x7b\x7b\x7braw\x7d\x7d\x7d\x7d".toList ++ f.2 ++
          ofChars "\x7b\x7b\x7b\x7b/raw\x7d\x7d\x7d\x7d".toList, fun classOf _ => String.toList_injective ?_⟩
        simp [TemplateSet.verbatim, String.toList_append]
    refine ⟨(nameOf f.1 source, body) :: templates, fun classOf hn => ?_⟩
    rw [List.map_cons, ← e classOf hn, template, fill_nameOf, String.ofList_toList, ← hbody classOf hn]
    rfl

end ComponentSite.Skeleton
