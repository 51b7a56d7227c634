/-
  ComponentSite.Proofs.ComposedSet — the templates of a composed page.

  A component has at most one fragment of each kind, under a name made of the kind and
  its scope class (`WellNamed`). Components whose classes differ pairwise therefore have
  fragments of different names, so that composing a page loses none of them: the set
  holds every fragment, scripts and styles as they are and contents with the elements of
  the other components replaced (`get?_verbatim`, `get?_content`). What becomes of a content
  needs no such names (`pageContent_eq`, `contentAt_eq`).
-/
import ComponentSite.Composition
import ComponentSite.Proofs.GraphOrder

namespace ComponentSite

/-! ## Sets with different names -/

namespace TemplateSet

theorem get?_eq_some {s : TemplateSet} (h : s.names.Nodup) {name body : String} :
    s.get? name = some body ↔ (name, body) ∈ s.templates := by
  unfold get?
  constructor
  · intro hg
    obtain ⟨⟨n, b⟩, hf, rfl⟩ := Option.map_eq_some_iff.mp hg
    have hn : n = name := by simpa using List.find?_some hf
    exact hn ▸ List.mem_of_find?_eq_some hf
  · intro hmem
    cases hf : s.templates.find? (·.1 == name) with
    | none => exact absurd (beq_self_eq_true name) (List.find?_eq_none.mp hf _ hmem)
    | some found =>
      have hn : found.1 = name := by simpa using List.find?_some hf
      have := List.inj_on_of_nodup_map h (List.mem_of_find?_eq_some hf) hmem hn
      rw [this]
      rfl

theorem get?_eq_none {s : TemplateSet} {name : String} (h : name ∉ s.names) : s.get? name = none := by
  refine Option.map_eq_none_iff.mpr (List.find?_eq_none.mpr fun t ht hn => h ?_)
  exact List.mem_map.mpr ⟨t, ht, by simpa using hn⟩

theorem insert_of_not_mem {s : TemplateSet} {name : String} (h : name ∉ s.names) (body : String) :
    s.insert name body = ⟨s.templates ++ [(name, body)]⟩ := by
  unfold insert contains
  rw [get?_eq_none h]
  rfl

theorem get?_insert_self {s : TemplateSet} {name : String} (h : name ∉ s.names) (body : String) :
    (s.insert name body).get? name = some body := by
  rw [insert_of_not_mem h, get?, List.find?_append, Option.map_eq_none_iff.mp (get?_eq_none h)]
  simp

theorem get?_insert_of_ne {s : TemplateSet} {name other : String} (h : name ∉ s.names)
    (hne : name ≠ other) (body : String) :
    (s.insert name body).get? other = s.get? other := by
  have hother : (name == other) = false := by simpa using hne
  rw [insert_of_not_mem h, get?, get?, List.find?_append, List.find?_singleton]
  simp [hother]

theorem foldl_push {fragments : List Fragment} {s : TemplateSet}
    (h : (s.names ++ fragments.map (·.name)).Nodup) :
    fragments.foldl push s = ⟨s.templates ++ fragments.map fun f => (f.name, fragmentBody f)⟩ := by
  induction fragments generalizing s with
  | nil => simp
  | cons f rest ih =>
    have hnew : f.name ∉ s.names := by
      intro hmem
      exact (List.nodup_append.mp h).2.2 _ hmem _ (by simp) rfl
    rw [List.foldl_cons, push, insert_of_not_mem hnew, ih (by simpa [names] using h)]
    simp

end TemplateSet

/-! ## Names of fragments -/

theorem FragmentKind.nameFor_inj {kind kind' : FragmentKind} {x y : String} (h : kind.nameFor x = kind'.nameFor y) :
    kind = kind' ∧ x = y := by
  have hl := congrArg String.toList h
  cases kind <;> cases kind' <;>
    simp [nameFor, label, String.toList_append] at hl ⊢ <;> exact String.toList_injective hl

theorem nameFor_ne_base (kind : FragmentKind) (scopeClass : String) : kind.nameFor scopeClass ≠ TemplateSet.base := by
  intro e
  have := congrArg String.toList e
  rw [FragmentKind.nameFor, String.toList_append, String.toList_append] at this
  have hbase : TemplateSet.base.toList = ['b', 'a', 's', 'e'] := by decide
  rw [hbase] at this
  cases kind
  · rw [show FragmentKind.script.label.toList = ['j', 's'] by decide] at this
    cases this
  · rw [show FragmentKind.content.label.toList = 'c' :: "ontent".toList by decide] at this
    cases this
  · rw [show FragmentKind.style.label.toList = ['c', 's', 's'] by decide] at this
    cases this

def Component.body? (c : Component) (kind : FragmentKind) : Option String :=
  (Fragment.ofKind? c.fragments kind).map (·.body)

/-- At most one fragment of each kind, named after the kind and the class. -/
structure Component.WellNamed (c : Component) : Prop where
  name_eq : ∀ f ∈ c.fragments, f.name = f.kind.nameFor c.scopeClass
  kinds : (c.fragments.map (·.kind)).Nodup

namespace Fragment

theorem map_modifyBody {α : Type} (g : Fragment → α) (hg : ∀ (f : Fragment) (body : String), g { f with body } = g f)
    (kind : FragmentKind) (change : String → String) (fragments : List Fragment) :
    (modifyBody kind change fragments).map g = fragments.map g := by
  induction fragments with
  | nil => rfl
  | cons f rest ih =>
    unfold modifyBody
    split
    · simp [hg]
    · simp [ih]

theorem ofKind?_modifyBody_self (kind : FragmentKind) (change : String → String) (fragments : List Fragment) :
    ofKind? (modifyBody kind change fragments) kind =
      (ofKind? fragments kind).map fun f => { f with body := change f.body } := by
  unfold ofKind?
  induction fragments with
  | nil => rfl
  | cons f rest ih =>
    unfold modifyBody
    by_cases h : f.kind = kind
    · simp [h]
    · simp [h, ih]

theorem ofKind?_modifyBody_of_ne {kind other : FragmentKind} (h : kind ≠ other) (change : String → String)
    (fragments : List Fragment) : ofKind? (modifyBody kind change fragments) other = ofKind? fragments other := by
  unfold ofKind?
  induction fragments with
  | nil => rfl
  | cons f rest ih =>
    unfold modifyBody
    by_cases hk : f.kind = kind
    · have ho : f.kind ≠ other := hk ▸ h
      simp [h, hk]
    · by_cases ho : f.kind = other
      · simp [ho, Ne.symm h]
      · simp [hk, ho, ih]

theorem ofKind?_eq_some {fragments : List Fragment} (h : (fragments.map (·.kind)).Nodup) {kind : FragmentKind}
    {f : Fragment} : ofKind? fragments kind = some f ↔ f ∈ fragments ∧ f.kind = kind := by
  unfold ofKind?
  constructor
  · intro hf
    exact ⟨List.mem_of_find?_eq_some hf, by simpa using List.find?_some hf⟩
  · rintro ⟨hmem, rfl⟩
    cases hf : fragments.find? (·.kind == f.kind) with
    | none => exact absurd (beq_self_eq_true f.kind) (List.find?_eq_none.mp hf f hmem)
    | some found =>
      have hk : found.kind = f.kind := by simpa using List.find?_some hf
      rw [List.inj_on_of_nodup_map h (List.mem_of_find?_eq_some hf) hmem hk]

end Fragment

theorem wellNamed_generate (c : Component) {script markup style : String} {element : Option CustomElement}
    (h : c.fragments = Fragment.generate c.scopeClass script markup style element) : c.WellNamed := by
  unfold Fragment.generate at h
  constructor
  · intro f hf
    rw [h] at hf
    simp only [List.mem_append, or_assoc] at hf
    rcases hf with hf | hf | hf <;> split at hf <;> simp at hf <;> subst hf <;> rfl
  · rw [h]
    simp only [List.map_append, apply_ite (List.map Fragment.kind), List.map_cons, List.map_nil]
    split <;> split <;> split <;> decide

theorem ComponentGraph.Reachable.wellNamed {options : CompileOptions} {g : ComponentGraph} (h : Reachable options g) :
    ∀ c ∈ g.components, c.WellNamed := by
  refine h.forall_components ?_ ?_
  · intro c name hc
    obtain ⟨_, he⟩ := Component.Extends.bind c name
    rw [he]
    exact ⟨hc.name_eq, hc.kinds⟩
  · intro files g key name isPage source children _
    exact wellNamed_generate _ (Compile.finish_fragments options g key name source children)

theorem ComponentGraph.Reachable.scopeClass_eq {options : CompileOptions} {g : ComponentGraph}
    (h : Reachable options g) : ∀ c ∈ g.components, c.scopeClass = options.classOf c.sourcePath := by
  refine h.forall_components ?_ ?_
  · intro c name hc
    obtain ⟨_, he⟩ := Component.Extends.bind c name
    rw [he]
    exact hc
  · intro files g key name isPage source children _
    rfl

/-! ## Fragments under names of their own -/

structure Named (owners : List Component) (fragments : Component → List Fragment) : Prop where
  classes : (owners.map (·.scopeClass)).Nodup
  name_eq : ∀ c ∈ owners, ∀ f ∈ fragments c, f.name = f.kind.nameFor c.scopeClass
  kinds : ∀ c ∈ owners, ((fragments c).map (·.kind)).Nodup

namespace Named

variable {owners : List Component} {fragments : Component → List Fragment} (h : Named owners fragments)
include h

theorem eq_of_scopeClass {c d : Component} (hc : c ∈ owners) (hd : d ∈ owners)
    (e : c.scopeClass = d.scopeClass) : c = d :=
  List.inj_on_of_nodup_map h.classes hc hd e

theorem names_nodup : ((owners.flatMap fragments).map (·.name)).Nodup := by
  rw [List.map_flatMap, List.nodup_flatMap]
  constructor
  · intro c hc
    have hmap : (fragments c).map (·.name) = ((fragments c).map (·.kind)).map fun kind =>
        kind.nameFor c.scopeClass := by
      rw [List.map_map]
      exact List.map_congr_left fun f hf => h.name_eq c hc f hf
    rw [hmap]
    exact (h.kinds c hc).map fun _ _ e => (FragmentKind.nameFor_inj e).1
  · have hnodup : owners.Nodup := h.classes.of_map _
    refine hnodup.imp_of_mem fun {c d} hc hd hne name hn hn' => hne ?_
    obtain ⟨f, hf, rfl⟩ := List.mem_map.mp hn
    obtain ⟨f', hf', e⟩ := List.mem_map.mp hn'
    rw [h.name_eq c hc f hf, h.name_eq d hd f' hf'] at e
    exact h.eq_of_scopeClass hc hd (FragmentKind.nameFor_inj e).2.symm

theorem templates : ((owners.flatMap fragments).foldl TemplateSet.push .empty).templates =
    (owners.flatMap fragments).map fun f => (f.name, TemplateSet.fragmentBody f) := by
  rw [TemplateSet.foldl_push (by simpa [TemplateSet.names, TemplateSet.empty] using h.names_nodup)]
  simp [TemplateSet.empty]

theorem get?_eq_some {name body : String} :
    ((owners.flatMap fragments).foldl TemplateSet.push .empty).get? name = some body ↔
      ∃ c ∈ owners, ∃ f ∈ fragments c, f.name = name ∧ TemplateSet.fragmentBody f = body := by
  have hn : ((owners.flatMap fragments).foldl TemplateSet.push .empty).names.Nodup := by
    unfold TemplateSet.names
    rw [h.templates, List.map_map]
    exact h.names_nodup
  rw [TemplateSet.get?_eq_some hn, h.templates]
  simp only [List.mem_map, List.mem_flatMap, Prod.mk.injEq]
  grind

theorem get?_nameFor {c : Component} (hc : c ∈ owners) (kind : FragmentKind) :
    ((owners.flatMap fragments).foldl TemplateSet.push .empty).get? (kind.nameFor c.scopeClass) =
      (Fragment.ofKind? (fragments c) kind).map TemplateSet.fragmentBody := by
  refine Option.ext fun body => ?_
  rw [h.get?_eq_some, Option.map_eq_some_iff]
  constructor
  · rintro ⟨d, hd, f, hf, hn, rfl⟩
    rw [h.name_eq d hd f hf] at hn
    obtain ⟨rfl, hcls⟩ := FragmentKind.nameFor_inj hn
    obtain rfl := h.eq_of_scopeClass hd hc hcls
    exact ⟨f, (Fragment.ofKind?_eq_some (h.kinds d hd)).mpr ⟨hf, rfl⟩, rfl⟩
  · rintro ⟨f, hf, rfl⟩
    obtain ⟨hmem, rfl⟩ := (Fragment.ofKind?_eq_some (h.kinds c hc)).mp hf
    exact ⟨c, hc, f, hmem, h.name_eq c hc f hmem, rfl⟩

theorem base_not_mem : TemplateSet.base ∉ ((owners.flatMap fragments).foldl TemplateSet.push .empty).names := by
  intro hmem
  obtain ⟨⟨name, body⟩, ht, e⟩ := List.mem_map.mp hmem
  rw [h.templates] at ht
  obtain ⟨f, hf, he⟩ := List.mem_map.mp ht
  obtain ⟨c, hc, hf⟩ := List.mem_flatMap.mp hf
  cases he
  rw [h.name_eq c hc f hf] at e
  exact nameFor_ne_base _ _ e

end Named

/-! ## The composed set -/

namespace Composition

variable {page : Component} {flat : List Component}

def composed (flat : List Component) (c : Component) : List Fragment :=
  replaceInContent (flat.erase c) c.fragments

theorem composePage_eq (h : (page :: flat).Nodup) :
    composePage page flat = ((page :: flat).flatMap (composed flat)).foldl TemplateSet.push .empty := by
  obtain ⟨hpage, hflat⟩ := List.nodup_cons.mp h
  have hc : componentFragments flat = flat.map (composed flat) := by
    unfold componentFragments
    refine List.ext_getElem (by simp) fun i h1 h2 => ?_
    simp only [List.getElem_mapIdx, List.getElem_map, composed]
    rw [hflat.erase_getElem]
  unfold composePage
  rw [hc, List.flatMap_cons, composed, List.erase_of_not_mem hpage, List.flatMap_def]
  rfl

/-- Scope classes differ, and fragments are named after them. -/
structure Distinct (page : Component) (flat : List Component) : Prop where
  classes : ((page :: flat).map (·.scopeClass)).Nodup
  wellNamed : ∀ c ∈ page :: flat, c.WellNamed

namespace Distinct

variable (h : Distinct page flat)
include h

theorem nodup : (page :: flat).Nodup := h.classes.of_map _

/-- Replacing elements changes neither the names nor the kinds of fragments. -/
theorem named : Named (page :: flat) (composed flat) where
  classes := h.classes
  name_eq c hc f hf := by
    have hmap : (composed flat c).map (fun f => (f.name, f.kind)) = c.fragments.map fun f => (f.name, f.kind) :=
      Fragment.map_modifyBody _ (fun _ _ => rfl) _ _ _
    have : (f.name, f.kind) ∈ (composed flat c).map fun f => (f.name, f.kind) := List.mem_map_of_mem hf
    rw [hmap] at this
    obtain ⟨f', hf', he⟩ := List.mem_map.mp this
    obtain ⟨hn, hk⟩ := Prod.mk.inj he
    rw [← hn, ← hk]
    exact (h.wellNamed c hc).name_eq f' hf'
  kinds c hc := by
    have hmap : (composed flat c).map (·.kind) = c.fragments.map (·.kind) :=
      Fragment.map_modifyBody _ (fun _ _ => rfl) _ _ _
    rw [hmap]
    exact (h.wellNamed c hc).kinds

theorem composed_name {c : Component} (hc : c ∈ page :: flat) {f : Fragment} (hf : f ∈ composed flat c) :
    f.name = f.kind.nameFor c.scopeClass :=
  h.named.name_eq c hc f hf

theorem names_nodup : (((page :: flat).flatMap (composed flat)).map (·.name)).Nodup := h.named.names_nodup

theorem templates : (composePage page flat).templates =
    ((page :: flat).flatMap (composed flat)).map fun f => (f.name, TemplateSet.fragmentBody f) := by
  rw [composePage_eq h.nodup, h.named.templates]

theorem get?_eq_some {name body : String} :
    (composePage page flat).get? name = some body ↔
      ∃ c ∈ page :: flat, ∃ f ∈ composed flat c, f.name = name ∧ TemplateSet.fragmentBody f = body := by
  rw [composePage_eq h.nodup, h.named.get?_eq_some]

/-- The template of a component for one kind of fragment. -/
theorem get?_nameFor {c : Component} (hc : c ∈ page :: flat) (kind : FragmentKind) :
    (composePage page flat).get? (kind.nameFor c.scopeClass) =
      (Fragment.ofKind? (composed flat c) kind).map TemplateSet.fragmentBody := by
  rw [composePage_eq h.nodup, h.named.get?_nameFor hc]

theorem base_not_mem : TemplateSet.base ∉ (composePage page flat).names := by
  rw [composePage_eq h.nodup]
  exact h.named.base_not_mem

theorem get?_content {c : Component} (hc : c ∈ page :: flat) :
    (composePage page flat).get? (FragmentKind.content.nameFor c.scopeClass) =
      (c.body? .content).map (replaceAll (flat.erase c)) := by
  rw [h.get?_nameFor hc, composed, replaceInContent, Fragment.ofKind?_modifyBody_self, Component.body?,
    Option.map_map, Option.map_map]
  refine Option.map_congr fun f hf => ?_
  obtain ⟨_, hk⟩ := (Fragment.ofKind?_eq_some (h.wellNamed c hc).kinds).mp hf
  simp [TemplateSet.fragmentBody, hk]

theorem get?_verbatim {c : Component} (hc : c ∈ page :: flat) {kind : FragmentKind} (hkind : kind ≠ .content) :
    (composePage page flat).get? (kind.nameFor c.scopeClass) = (c.body? kind).map TemplateSet.verbatim := by
  rw [h.get?_nameFor hc, composed, replaceInContent, Fragment.ofKind?_modifyBody_of_ne hkind.symm, Component.body?,
    Option.map_map]
  refine Option.map_congr fun f hf => ?_
  obtain ⟨_, rfl⟩ := (Fragment.ofKind?_eq_some (h.wellNamed c hc).kinds).mp hf
  unfold TemplateSet.fragmentBody
  split <;> simp_all

theorem exists_of_get?_content {scopeClass body : String}
    (hget : (composePage page flat).get? (FragmentKind.content.nameFor scopeClass) = some body) :
    ∃ c ∈ page :: flat, c.scopeClass = scopeClass := by
  obtain ⟨c, hc, f, hf, hn, _⟩ := h.get?_eq_some.mp hget
  rw [h.composed_name hc hf] at hn
  exact ⟨c, hc, (FragmentKind.nameFor_inj hn).2⟩

end Distinct

/-! ## The contents -/

def pageContent (page : Component) (flat : List Component) : Option String :=
  (Fragment.ofKind? (replaceInContent flat page.fragments) .content).map (·.body)

def contentAt (flat : List Component) (i : Nat) : Option String :=
  (componentFragments flat)[i]?.bind fun fragments => (Fragment.ofKind? fragments .content).map (·.body)

theorem ofKind?_replaceInContent (targets : List Component) (c : Component) :
    (Fragment.ofKind? (replaceInContent targets c.fragments) .content).map (·.body) =
      (c.body? .content).map (replaceAll targets) := by
  rw [replaceInContent, Fragment.ofKind?_modifyBody_self, Component.body?, Option.map_map, Option.map_map]
  rfl

theorem pageContent_eq (page : Component) (flat : List Component) :
    pageContent page flat = (page.body? .content).map (replaceAll flat) :=
  ofKind?_replaceInContent flat page

theorem contentAt_eq {flat : List Component} {i : Nat} {c : Component} (h : flat[i]? = some c) :
    contentAt flat i = (c.body? .content).map (replaceAll (flat.eraseIdx i)) := by
  rw [contentAt, componentFragments, List.getElem?_mapIdx, h]
  exact ofKind?_replaceInContent (flat.eraseIdx i) c

end Composition

end ComponentSite
