/-
  ComponentSite.Proofs.ImportGraph — graphs in which every component stands after
  everything it imports.

  In an ordered graph (`Ordered`) an import leads to an earlier place, so there is no
  cycle (`Ordered.not_reaches_self`), and a property that goes from the imports of a
  component to the component holds everywhere (`Ordered.induction`). The descendants of
  a component are then what its imports reach (`Ordered.mem_descendants`), in the order
  of a walk that goes down each import before the next one (`Ordered.exists_walk`).

  A graph grows by further names and further components (`Grows`); what is in it stays.
-/
import ComponentSite.Component
import ComponentSite.Proofs.PathKey
import Mathlib.Data.List.Nodup
import Mathlib.Logic.Relation

namespace ComponentSite

/-! ## First occurrences -/

section EraseDups

variable {α : Type} [DecidableEq α]

theorem eraseDups_filter (p : α → Bool) (l : List α) : (l.filter p).eraseDups = l.eraseDups.filter p := by
  match l with
  | [] => rfl
  | x :: l =>
    have ih := eraseDups_filter p (l.filter fun b => !b == x)
    by_cases hx : p x = true
    · rw [List.filter_cons_of_pos hx, List.eraseDups_cons, List.eraseDups_cons, List.filter_cons_of_pos hx,
        ← ih, List.filter_filter, List.filter_filter]
      simp only [Bool.and_comm]
    · rw [List.filter_cons_of_neg hx, List.eraseDups_cons, List.filter_cons_of_neg hx, ← ih, List.filter_filter]
      congr 1
      refine List.filter_congr fun y _ => ?_
      by_cases e : y = x
      · subst e; simp [hx]
      · simp [e]
termination_by l.length
decreasing_by exact Nat.lt_succ_of_le (List.length_filter_le _ _)

theorem nodup_eraseDups (l : List α) : l.eraseDups.Nodup := by
  match l with
  | [] => exact List.nodup_nil
  | x :: l =>
    rw [List.eraseDups_cons, List.nodup_cons]
    exact ⟨by simp [List.mem_eraseDups], nodup_eraseDups _⟩
termination_by l.length
decreasing_by exact Nat.lt_succ_of_le (List.length_filter_le _ _)

theorem eraseDups_of_nodup {l : List α} (h : l.Nodup) : l.eraseDups = l := by
  induction l with
  | nil => rfl
  | cons x l ih =>
    obtain ⟨hx, hl⟩ := List.nodup_cons.mp h
    have : l.filter (fun b => !b == x) = l := List.filter_eq_self.mpr fun y hy => by
      simp only [Bool.not_eq_true', beq_eq_false_iff_ne, ne_eq]
      rintro rfl
      exact hx hy
    rw [List.eraseDups_cons, this, ih hl]

theorem eraseDups_append_eraseDups (as bs : List α) : (as ++ bs.eraseDups).eraseDups = (as ++ bs).eraseDups := by
  rw [List.eraseDups_append, List.eraseDups_append, List.removeAll, List.removeAll, ← eraseDups_filter,
    eraseDups_of_nodup (nodup_eraseDups _)]

theorem eraseDups_eraseDups_append (as bs : List α) : (as.eraseDups ++ bs).eraseDups = (as ++ bs).eraseDups := by
  have hmem : bs.removeAll as.eraseDups = bs.removeAll as :=
    List.filter_congr fun x _ => by simp [List.mem_eraseDups]
  rw [List.eraseDups_append, List.eraseDups_append, hmem, eraseDups_of_nodup (nodup_eraseDups _)]

/-- Adding an element at the end unless it is there keeps the first occurrences. -/
theorem eraseDups_concat (l : List α) (x : α) :
    (l ++ [x]).eraseDups = if x ∈ l.eraseDups then l.eraseDups else l.eraseDups ++ [x] := by
  rw [List.eraseDups_append]
  by_cases h : x ∈ l
  · simp [List.removeAll, List.mem_eraseDups, h]
  · simp [List.removeAll, List.mem_eraseDups, h, List.eraseDups_cons]

end EraseDups

namespace ComponentGraph

/-! ## Imports -/

def keys (g : ComponentGraph) : List Path := g.components.map (·.sourcePath)

def Imports (g : ComponentGraph) (a b : Path) : Prop :=
  ∃ c ∈ g.components, c.sourcePath = a ∧ b ∈ c.children

abbrev Reaches (g : ComponentGraph) : Path → Path → Prop := Relation.TransGen g.Imports

def Bound (g : ComponentGraph) (path : Path) (name : String) : Prop :=
  ∃ c ∈ g.components, c.sourcePath = path ∧ name ∈ c.names

/-- What a walk from these paths comes by, in its order: each path, and all that lies
    below it before the next one, as often as it is met. -/
inductive Walk (g : ComponentGraph) : List Path → List Path → Prop
  | done : Walk g [] []
  | visit {c : Component} {below rest after : List Path} : c ∈ g.components → Walk g c.children below →
      Walk g rest after → Walk g (c.sourcePath :: rest) (c.sourcePath :: below ++ after)

theorem mem_keys {g : ComponentGraph} {k : Path} : k ∈ g.keys ↔ ∃ c ∈ g.components, c.sourcePath = k :=
  List.mem_map

structure Ordered (g : ComponentGraph) : Prop where
  isKey : ∀ c ∈ g.components, c.sourcePath.IsKey
  nodup : g.keys.Nodup
  /-- An import leads to an earlier place. -/
  earlier : ∀ (i : Nat) (c : Component), g.components[i]? = some c → ∀ k ∈ c.children, ∃ j < i, g.keys[j]? = some k
  descendants : ∀ c ∈ g.components, c.descendants = g.reached c.children

theorem ordered_empty : Ordered empty where
  isKey := by simp [empty]
  nodup := by simp [empty, keys]
  earlier := by simp [empty]
  descendants := by simp [empty]

theorem mem_of_get? {g : ComponentGraph} {k : Path} {c : Component} (hk : g.get? k = some c) : c ∈ g.components := by
  unfold get? at hk
  exact List.mem_of_find?_eq_some hk

theorem flatten_eq_ok {g : ComponentGraph} {root : Path} {page : Component} (hp : g.get? root = some page)
    {flat : List Component} (hf : g.flatten root = .ok flat) :
    flat = page.descendants.filterMap g.get? ∧ claimAll flat [] = .ok () := by
  unfold flatten at hf
  rw [hp] at hf
  cases hclaim : claimAll (page.descendants.filterMap g.get?) [] with
  | error e => simp [Bind.bind, Except.bind, hclaim] at hf
  | ok =>
    simp [Bind.bind, Except.bind, hclaim, pure, Except.pure] at hf
    subst hf
    exact ⟨rfl, hclaim⟩

namespace Ordered

variable {g : ComponentGraph} (h : g.Ordered)
include h

theorem eq_of_sourcePath {c d : Component} (hc : c ∈ g.components) (hd : d ∈ g.components)
    (e : c.sourcePath = d.sourcePath) : c = d :=
  List.inj_on_of_nodup_map h.nodup hc hd e

theorem isKey_of_mem {k : Path} (hk : k ∈ g.keys) : k.IsKey := by
  obtain ⟨c, hc, rfl⟩ := mem_keys.mp hk
  exact h.isKey c hc

theorem get?_eq_some {k : Path} (hk : k.IsKey) {c : Component} :
    g.get? k = some c ↔ c ∈ g.components ∧ c.sourcePath = k := by
  constructor
  · intro hf
    unfold get? at hf
    have hc := List.mem_of_find?_eq_some hf
    exact ⟨hc, (Path.same_iff (h.isKey c hc) hk).mp (by simpa using List.find?_some hf)⟩
  · rintro ⟨hc, rfl⟩
    cases hf : g.get? c.sourcePath with
    | none =>
      have := List.find?_eq_none.mp hf c hc
      exact absurd (Path.same_refl c.sourcePath) this
    | some d =>
      unfold get? at hf
      have hd := List.mem_of_find?_eq_some hf
      have hs : d.sourcePath.same c.sourcePath = true := by simpa using List.find?_some hf
      rw [h.eq_of_sourcePath hd hc ((Path.same_iff (h.isKey d hd) hk).mp hs)]

theorem contains_iff {k : Path} (hk : k.IsKey) : g.contains k = true ↔ k ∈ g.keys := by
  rw [contains, Option.isSome_iff_exists, mem_keys]
  exact exists_congr fun c => h.get?_eq_some hk

theorem child_mem {c : Component} (hc : c ∈ g.components) {k : Path} (hk : k ∈ c.children) : k ∈ g.keys := by
  obtain ⟨i, hi⟩ := List.getElem?_of_mem hc
  obtain ⟨j, _, hj⟩ := h.earlier i c hi k hk
  exact List.mem_of_getElem? hj

theorem imports_iff {c : Component} (hc : c ∈ g.components) {k : Path} :
    g.Imports c.sourcePath k ↔ k ∈ c.children := by
  constructor
  · rintro ⟨d, hd, e, hk⟩
    rwa [← h.eq_of_sourcePath hd hc e]
  · intro hk
    exact ⟨c, hc, rfl, hk⟩

/-- What goes from the imports of a component to the component holds everywhere. -/
theorem induction {motive : Component → Prop}
    (step : ∀ c ∈ g.components, (∀ d ∈ g.components, d.sourcePath ∈ c.children → motive d) → motive c) :
    ∀ c ∈ g.components, motive c := by
  have main : ∀ (n i : Nat) (c : Component), i < n → g.components[i]? = some c → motive c := by
    intro n
    induction n with
    | zero => intro i c hi; omega
    | succ n ih =>
      intro i c hi hc
      refine step c (List.mem_of_getElem? hc) fun d hd hk => ?_
      obtain ⟨j, hj, hkey⟩ := h.earlier i c hc d.sourcePath hk
      rw [keys, List.getElem?_map] at hkey
      obtain ⟨e, he, hed⟩ := Option.map_eq_some_iff.mp hkey
      have : e = d := h.eq_of_sourcePath (List.mem_of_getElem? he) hd hed
      exact ih j d (by omega) (this ▸ he)
  intro c hc
  obtain ⟨i, hi⟩ := List.getElem?_of_mem hc
  exact main (i + 1) i c (Nat.lt_succ_self i) hi

/-! ## Descendants -/

theorem mem_reached {children : List Path} (hch : ∀ k ∈ children, k ∈ g.keys) {k : Path} :
    k ∈ g.reached children ↔
      ∃ d ∈ g.components, d.sourcePath ∈ children ∧ (k = d.sourcePath ∨ k ∈ d.descendants) := by
  rw [reached, List.mem_eraseDups, List.mem_flatMap]
  constructor
  · rintro ⟨child, hchild, hk⟩
    have hkey := h.isKey_of_mem (hch child hchild)
    cases hf : g.get? child with
    | none => rw [hf] at hk; cases hk
    | some d =>
      rw [hf] at hk
      obtain ⟨hd, rfl⟩ := (h.get?_eq_some hkey).mp hf
      exact ⟨d, hd, hchild, List.mem_cons.mp hk⟩
  · rintro ⟨d, hd, hchild, hk⟩
    refine ⟨d.sourcePath, hchild, ?_⟩
    rw [(h.get?_eq_some (h.isKey d hd)).mpr ⟨hd, rfl⟩]
    exact List.mem_cons.mpr hk

theorem mem_descendants_iff_child {c : Component} (hc : c ∈ g.components) {k : Path} :
    k ∈ c.descendants ↔ ∃ d ∈ g.components, d.sourcePath ∈ c.children ∧ (k = d.sourcePath ∨ k ∈ d.descendants) := by
  rw [h.descendants c hc]
  exact h.mem_reached fun _ hk => h.child_mem hc hk

theorem mem_descendants {c : Component} (hc : c ∈ g.components) (k : Path) :
    k ∈ c.descendants ↔ g.Reaches c.sourcePath k := by
  refine h.induction (motive := fun c => ∀ k, k ∈ c.descendants ↔ g.Reaches c.sourcePath k) ?_ c hc k
  intro c hc ih k
  rw [h.mem_descendants_iff_child hc]
  constructor
  · rintro ⟨d, hd, hchild, hk⟩
    have hcd : g.Imports c.sourcePath d.sourcePath := (h.imports_iff hc).mpr hchild
    rcases hk with rfl | hk
    · exact .single hcd
    · exact .head hcd ((ih d hd hchild k).mp hk)
  · intro hk
    obtain ⟨b, hcb, hbk⟩ := Relation.TransGen.head'_iff.mp hk
    have hchild := (h.imports_iff hc).mp hcb
    obtain ⟨d, hd, rfl⟩ := mem_keys.mp (h.child_mem hc hchild)
    refine ⟨d, hd, hchild, ?_⟩
    rcases Relation.reflTransGen_iff_eq_or_transGen.mp hbk with e | hbk
    · exact Or.inl e
    · exact Or.inr ((ih d hd hchild k).mpr hbk)

theorem descendants_nodup {c : Component} (hc : c ∈ g.components) : c.descendants.Nodup := by
  rw [h.descendants c hc]
  exact nodup_eraseDups _

/-- A chain of imports leads to an earlier place. -/
theorem reaches_earlier {a b : Path} (hab : g.Reaches a b) {i : Nat} (hi : g.keys[i]? = some a) :
    ∃ j < i, g.keys[j]? = some b := by
  have single : ∀ {a b : Path} {i : Nat}, g.Imports a b → g.keys[i]? = some a → ∃ j < i, g.keys[j]? = some b := by
    intro a b i hab hi
    rw [keys, List.getElem?_map] at hi
    obtain ⟨c, hc, rfl⟩ := Option.map_eq_some_iff.mp hi
    exact h.earlier i c hc b ((h.imports_iff (List.mem_of_getElem? hc)).mp hab)
  induction hab with
  | single hab => exact single hab hi
  | tail _ hbc ih =>
    obtain ⟨j, hj, hb⟩ := ih
    obtain ⟨l, hl, hc⟩ := single hbc hb
    exact ⟨l, by omega, hc⟩

theorem reaches_mem {a b : Path} (hab : g.Reaches a b) : b ∈ g.keys := by
  obtain ⟨_, _, c, hc, _, hk⟩ := Relation.TransGen.tail'_iff.mp hab
  exact h.child_mem hc hk

theorem not_reaches_self (a : Path) : ¬ g.Reaches a a := by
  intro haa
  obtain ⟨i, hi⟩ := List.getElem?_of_mem (h.reaches_mem haa)
  obtain ⟨j, hj, hja⟩ := h.reaches_earlier haa hi
  obtain ⟨hilt, _⟩ := List.getElem?_eq_some_iff.mp hi
  have := (List.getElem?_inj hilt h.nodup).mp (hi.trans hja.symm)
  omega

theorem sourcePath_not_mem_descendants {c : Component} (hc : c ∈ g.components) :
    c.sourcePath ∉ c.descendants :=
  fun hk => h.not_reaches_self c.sourcePath ((h.mem_descendants hc _).mp hk)

/-! ## Flattening -/

theorem mem_flat {root : Path} {page : Component} (hp : g.get? root = some page) {flat : List Component}
    (hf : g.flatten root = .ok flat) {c : Component} :
    c ∈ flat ↔ c ∈ g.components ∧ c.sourcePath ∈ page.descendants := by
  have hpage := mem_of_get? hp
  rw [(flatten_eq_ok hp hf).1, List.mem_filterMap]
  constructor
  · rintro ⟨k, hk, hc⟩
    have hkey := h.isKey_of_mem (h.reaches_mem ((h.mem_descendants hpage k).mp hk))
    obtain ⟨hmem, rfl⟩ := (h.get?_eq_some hkey).mp hc
    exact ⟨hmem, hk⟩
  · rintro ⟨hmem, hk⟩
    exact ⟨c.sourcePath, hk, (h.get?_eq_some (h.isKey c hmem)).mpr ⟨hmem, rfl⟩⟩

theorem nodup_flat {root : Path} {page : Component} (hp : g.get? root = some page) {flat : List Component}
    (hf : g.flatten root = .ok flat) : flat.Nodup := by
  have hpage := mem_of_get? hp
  have hkey : ∀ k ∈ page.descendants, k.IsKey := fun k hk =>
    h.isKey_of_mem (h.reaches_mem ((h.mem_descendants hpage k).mp hk))
  rw [(flatten_eq_ok hp hf).1, List.nodup_iff_pairwise_ne, List.pairwise_filterMap]
  refine (h.descendants_nodup hpage).imp_of_mem fun {k k'} hk hk' hne c hc d hd e => hne ?_
  rw [← ((h.get?_eq_some (hkey k hk)).mp hc).2, ← ((h.get?_eq_some (hkey k' hk')).mp hd).2, e]

/-! ## The order of the descendants -/

theorem exists_walk_of {paths : List Path} (hp : ∀ k ∈ paths, k ∈ g.keys)
    (hw : ∀ d ∈ g.components, d.sourcePath ∈ paths →
      ∃ walk, g.Walk d.children walk ∧ walk.eraseDups = d.descendants) :
    ∃ walk, g.Walk paths walk ∧ walk.eraseDups = g.reached paths := by
  induction paths with
  | nil => exact ⟨[], .done, rfl⟩
  | cons k rest ih =>
    obtain ⟨d, hd, rfl⟩ := mem_keys.mp (hp k (by simp))
    obtain ⟨below, hbelow, hbe⟩ := hw d hd (by simp)
    obtain ⟨after, hafter, hae⟩ := ih (fun k hk => hp k (by simp [hk])) fun e he hm => hw e he (by simp [hm])
    refine ⟨d.sourcePath :: below ++ after, .visit hd hbelow hafter, ?_⟩
    have hget : g.get? d.sourcePath = some d := (h.get?_eq_some (h.isKey d hd)).mpr ⟨hd, rfl⟩
    have hr : g.reached (d.sourcePath :: rest) = ((d.sourcePath :: d.descendants) ++ g.reached rest).eraseDups := by
      rw [reached, reached, List.flatMap_cons, hget, eraseDups_append_eraseDups]
    -- first occurrences may be taken in each part before they are taken in the whole
    have hb : (d.sourcePath :: below ++ after).eraseDups =
        ((d.sourcePath :: d.descendants) ++ after).eraseDups := by
      have hhead := eraseDups_append_eraseDups [d.sourcePath] below
      rw [List.singleton_append, List.singleton_append, hbe] at hhead
      rw [← eraseDups_eraseDups_append, ← hhead, eraseDups_eraseDups_append]
    rw [hr, hb, ← hae, eraseDups_append_eraseDups]

/-- The descendants are in the order of the walk down the imports. -/
theorem exists_walk {c : Component} (hc : c ∈ g.components) :
    ∃ walk, g.Walk c.children walk ∧ walk.eraseDups = c.descendants := by
  refine h.induction (motive := fun c => ∃ walk, g.Walk c.children walk ∧ walk.eraseDups = c.descendants) ?_ c hc
  intro c hc ih
  rw [h.descendants c hc]
  exact h.exists_walk_of (fun _ hk => h.child_mem hc hk) ih

end Ordered

/-! ## Growth -/

end ComponentGraph

/-- The same component, perhaps under further names. -/
def Component.Extends (c d : Component) : Prop :=
  ∃ more : List String, d = { c with aliases := c.aliases ++ more }

namespace Component.Extends

theorem refl (c : Component) : c.Extends c := ⟨[], by simp⟩

theorem trans {c d e : Component} (hcd : c.Extends d) (hde : d.Extends e) : c.Extends e := by
  obtain ⟨more, rfl⟩ := hcd
  obtain ⟨further, rfl⟩ := hde
  exact ⟨more ++ further, by simp⟩

theorem bind (c : Component) (name : String) : c.Extends (c.bind name) := by
  unfold Component.bind
  split
  · exact refl c
  · exact ⟨[name], rfl⟩

variable {c d : Component} (h : c.Extends d)
include h

theorem sourcePath_eq : d.sourcePath = c.sourcePath := by obtain ⟨_, rfl⟩ := h; rfl

theorem children_eq : d.children = c.children := by obtain ⟨_, rfl⟩ := h; rfl

theorem descendants_eq : d.descendants = c.descendants := by obtain ⟨_, rfl⟩ := h; rfl

theorem mem_names {name : String} (hn : name ∈ c.names) : name ∈ d.names := by
  obtain ⟨more, rfl⟩ := h
  rcases List.mem_cons.mp hn with hn | hn
  · exact List.mem_cons.mpr (Or.inl hn)
  · exact List.mem_cons_of_mem _ (List.mem_append_left _ hn)

end Component.Extends

theorem Component.mem_names_bind (c : Component) (name : String) : name ∈ (c.bind name).names := by
  unfold bind
  split
  · rename_i h; exact List.contains_iff_mem.mp h
  · simp [names]

namespace ComponentGraph

/-- Everything of `g` is in `g'`, in its place, perhaps under further names; what is new
    comes after it. -/
def Grows (g g' : ComponentGraph) : Prop :=
  ∃ (f : Component → Component) (new : List Component),
    (∀ c : Component, c.Extends (f c)) ∧ g'.components = g.components.map f ++ new

theorem Grows.refl (g : ComponentGraph) : g.Grows g :=
  ⟨id, [], fun c => .refl c, by simp⟩

theorem Grows.trans {g g' g'' : ComponentGraph} (h : g.Grows g') (h' : g'.Grows g'') : g.Grows g'' := by
  obtain ⟨f, new, hf, he⟩ := h
  obtain ⟨f', new', hf', he'⟩ := h'
  refine ⟨f' ∘ f, new.map f' ++ new', fun c => (hf c).trans (hf' (f c)), ?_⟩
  rw [he', he]; simp

theorem extends_bindAt (path : Path) (name : String) (c : Component) :
    c.Extends (if c.sourcePath.same path then c.bind name else c) := by
  split
  · exact .bind c name
  · exact .refl c

theorem grows_bind (g : ComponentGraph) (path : Path) (name : String) : g.Grows (g.bind path name) :=
  ⟨_, [], extends_bindAt path name, by simp [bind]⟩

theorem grows_add (g : ComponentGraph) (c : Component) : g.Grows (g.add c) :=
  ⟨id, [c], fun c => .refl c, by simp [add]⟩

theorem keys_map {f : Component → Component} (hf : ∀ c : Component, c.Extends (f c)) (g : ComponentGraph) :
    (ComponentGraph.mk (g.components.map f)).keys = g.keys := by
  rw [keys, keys, List.map_map]
  exact List.map_congr_left fun c _ => (hf c).sourcePath_eq

@[simp] theorem keys_bind (g : ComponentGraph) (path : Path) (name : String) : (g.bind path name).keys = g.keys :=
  keys_map (extends_bindAt path name) g

@[simp] theorem keys_add (g : ComponentGraph) (c : Component) : (g.add c).keys = g.keys ++ [c.sourcePath] := by
  simp [keys, add]

namespace Grows

variable {g g' : ComponentGraph} (h : g.Grows g')
include h

theorem mem {c : Component} (hc : c ∈ g.components) : ∃ d ∈ g'.components, c.Extends d := by
  obtain ⟨f, new, hf, he⟩ := h
  exact ⟨f c, by rw [he]; exact List.mem_append_left _ (List.mem_map_of_mem hc), hf c⟩

theorem keys_prefix : g.keys <+: g'.keys := by
  obtain ⟨f, new, hf, he⟩ := h
  refine ⟨new.map (·.sourcePath), ?_⟩
  rw [← keys_map hf g, keys, keys, he, List.map_append]

theorem mem_keys {k : Path} (hk : k ∈ g.keys) : k ∈ g'.keys := h.keys_prefix.subset hk

theorem imports {a b : Path} (hab : g.Imports a b) : g'.Imports a b := by
  obtain ⟨c, hc, rfl, hb⟩ := hab
  obtain ⟨d, hd, e⟩ := h.mem hc
  exact ⟨d, hd, e.sourcePath_eq, e.children_eq ▸ hb⟩

theorem reaches {a b : Path} (hab : g.Reaches a b) : g'.Reaches a b :=
  Relation.TransGen.mono (fun _ _ => h.imports) a b hab

theorem bound {path : Path} {name : String} (hb : g.Bound path name) : g'.Bound path name := by
  obtain ⟨c, hc, rfl, hn⟩ := hb
  obtain ⟨d, hd, e⟩ := h.mem hc
  exact ⟨d, hd, e.sourcePath_eq, e.mem_names hn⟩

end Grows

/-! ## Growth keeps the order -/

namespace Ordered

variable {g : ComponentGraph} (h : g.Ordered)
include h

/-- Further names change nothing in the order. -/
theorem map {f : Component → Component} (hf : ∀ c : Component, c.Extends (f c)) :
    (ComponentGraph.mk (g.components.map f)).Ordered := by
  have hkeys := keys_map hf g
  have hget : ∀ k, (ComponentGraph.mk (g.components.map f)).get? k = (g.get? k).map f := by
    intro k
    rw [get?, get?, List.find?_map]
    congr 2
    funext c
    exact congrArg (·.same k) (hf c).sourcePath_eq
  have hreached : ∀ children, (ComponentGraph.mk (g.components.map f)).reached children = g.reached children := by
    intro children
    rw [reached, reached]
    congr 2
    funext k
    rw [hget k]
    cases g.get? k with
    | none => rfl
    | some c => exact congrArg (k :: ·) (hf c).descendants_eq
  refine ⟨?_, hkeys ▸ h.nodup, ?_, ?_⟩
  · intro c hc
    obtain ⟨d, hd, rfl⟩ := List.mem_map.mp hc
    exact (hf d).sourcePath_eq ▸ h.isKey d hd
  · intro i c hc k hk
    rw [List.getElem?_map] at hc
    obtain ⟨d, hd, rfl⟩ := Option.map_eq_some_iff.mp hc
    rw [hkeys]
    exact h.earlier i d hd k ((hf d).children_eq ▸ hk)
  · intro c hc
    obtain ⟨d, hd, rfl⟩ := List.mem_map.mp hc
    rw [hreached, (hf d).descendants_eq, (hf d).children_eq]
    exact h.descendants d hd

theorem bind (path : Path) (name : String) : (g.bind path name).Ordered :=
  h.map (extends_bindAt path name)

theorem get?_add {c : Component} {k : Path} (hk : k ∈ g.keys) : (g.add c).get? k = g.get? k := by
  obtain ⟨d, hd, rfl⟩ := mem_keys.mp hk
  have hget := (h.get?_eq_some (h.isKey d hd)).mpr ⟨hd, rfl⟩
  rw [hget, add, get?, List.find?_append]
  rw [get?] at hget
  rw [hget]; rfl

theorem reached_add {c : Component} {children : List Path} (hch : ∀ k ∈ children, k ∈ g.keys) :
    (g.add c).reached children = g.reached children := by
  rw [reached, reached]
  congr 1
  exact List.flatMap_congr fun k hk => by rw [h.get?_add (hch k hk)]

theorem add {c : Component} (hkey : c.sourcePath.IsKey) (hnew : c.sourcePath ∉ g.keys)
    (hch : ∀ k ∈ c.children, k ∈ g.keys) (hd : c.descendants = g.reached c.children) : (g.add c).Ordered := by
  have hkeys := g.keys_add c
  have lift : ∀ {j : Nat} {k : Path}, g.keys[j]? = some k → (g.add c).keys[j]? = some k := by
    intro j k hj
    rw [hkeys, List.getElem?_append_left (List.getElem?_eq_some_iff.mp hj).1]
    exact hj
  refine ⟨?_, ?_, ?_, ?_⟩
  · intro d hd
    rcases List.mem_append.mp hd with hd | hd
    · exact h.isKey d hd
    · exact List.mem_singleton.mp hd ▸ hkey
  · rw [hkeys]
    exact List.nodup_append.mpr ⟨h.nodup, by simp, fun a ha b hb e => hnew (List.mem_singleton.mp hb ▸ e ▸ ha)⟩
  · intro i d hi k hk
    by_cases hlt : i < g.components.length
    · rw [ComponentGraph.add, List.getElem?_append_left hlt] at hi
      obtain ⟨j, hj, hjk⟩ := h.earlier i d hi k hk
      exact ⟨j, hj, lift hjk⟩
    · have hlen : i < (g.components ++ [c]).length := (List.getElem?_eq_some_iff.mp hi).1
      have hidx : i = g.components.length := by simp at hlen; omega
      subst hidx
      have : d = c := by simpa [ComponentGraph.add] using hi.symm
      subst this
      obtain ⟨j, hj⟩ := List.getElem?_of_mem (hch k hk)
      have hjlt := (List.getElem?_eq_some_iff.mp hj).1
      exact ⟨j, by simpa [keys] using hjlt, lift hj⟩
  · intro d hm
    rcases List.mem_append.mp hm with hm | hm
    · rw [h.reached_add fun k hk => h.child_mem hm hk]
      exact h.descendants d hm
    · rw [List.mem_singleton.mp hm, h.reached_add hch]
      exact hd

end Ordered

end ComponentGraph

end ComponentSite
