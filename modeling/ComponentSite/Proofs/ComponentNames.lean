/-
  ComponentSite.Proofs.ComponentNames — what a name stands for in the markup of a page.

  Every name that an import binds is a component name, so all components of a graph have
  such names if the compiler was asked for one (`named_of_compiled`), and they can be
  names of tags. Where a page can be flattened, a name belongs to one of its
  components (`eq_of_mem_names`). A name that a component binds (`Binds`) therefore leads
  to one component of the page, one that stands earlier in the graph.
-/
import ComponentSite.Proofs.GraphOrder
import ComponentSite.Proofs.MarkupTree

namespace ComponentSite
open Text

/-! ## Names of imports -/

namespace Imports

theorem ends_no_componentName {c : Char} (h : (c.isAlphanum || c == '_' || c == '$') = true) :
    c ≠ '<' ∧ endsTagName c = false := by
  have hn : (48 ≤ c.toNat ∧ c.toNat ≤ 57) ∨ (65 ≤ c.toNat ∧ c.toNat ≤ 90) ∨ (97 ≤ c.toNat ∧ c.toNat ≤ 122) ∨
      c.toNat = 95 ∨ c.toNat = 36 := by
    delta Char.isAlphanum Char.isAlpha Char.isUpper Char.isLower Char.isDigit at h
    simp only [Bool.or_eq_true, Bool.and_eq_true, decide_eq_true_eq, ge_iff_le, UInt32.le_iff_toNat_le, beq_iff_eq] at h
    rcases h with (h | rfl) | rfl
    · change (65 ≤ c.toNat ∧ c.toNat ≤ 90 ∨ 97 ≤ c.toNat ∧ c.toNat ≤ 122) ∨ 48 ≤ c.toNat ∧ c.toNat ≤ 57 at h
      omega
    · decide
    · decide
  have hne : ∀ d : Char, d.toNat = 47 ∨ d.toNat = 60 ∨ d.toNat = 62 → c ≠ d := by
    rintro d hd rfl
    omega
  have hblank : isBlank c = false := by
    simp only [isBlank, Bool.or_eq_false_iff, Bool.and_eq_false_iff, decide_eq_false_iff_not, beq_eq_false_iff_ne]
    omega
  refine ⟨hne _ (by decide), ?_⟩
  simp [endsTagName, hblank, hne '/' (by decide), hne '>' (by decide)]

theorem of_mem_componentName {name : List Char} (h : isComponentName name = true) {d : Char} (hd : d ∈ name) :
    (d.isAlphanum || d == '_' || d == '$') = true := by
  cases name with
  | nil => cases h
  | cons c r =>
    obtain ⟨hc, hr⟩ := (Bool.and_eq_true _ _).mp h
    rcases List.mem_cons.mp hd with rfl | hd
    · delta Char.isAlphanum Char.isAlpha
      simp [hc]
    · exact List.all_eq_true.mp hr d hd

theorem not_mem_componentName {name : List Char} (h : isComponentName name = true) {c : Char}
    (hc : (c.isAlphanum || c == '_' || c == '$') = false) : c ∉ name := fun hm =>
  Bool.false_ne_true (hc.symm.trans (of_mem_componentName h hm))

theorem isTagName_of_isComponentName {name : List Char} (h : isComponentName name = true) : IsTagName name := by
  refine ⟨?_, fun d hd => ends_no_componentName (of_mem_componentName h hd)⟩
  rintro rfl
  cases h

theorem isComponentName_of_mem_boundNames {clause : List Char} {name : String} (h : name ∈ boundNames clause) :
    isComponentName name.toList = true := by
  obtain ⟨n, hn, rfl⟩ := List.mem_map.mp h
  rw [String.toList_ofList]
  exact (List.mem_filter.mp hn).2

theorem isComponentName_of_classify {extension : String} {line : List Char} {i : ImportReference}
    (h : classify extension line = .component i) : isComponentName i.displayName.toList = true := by
  unfold classify at h
  split at h
  · cases h
  · simp only at h
    split at h
    · split at h
      · cases h
      · rename_i clause path _ _ names hne
        cases h
        cases hnames : boundNames clause with
        | nil => exact absurd hnames hne
        | cons name rest =>
          have hmem : name ∈ boundNames clause := hnames ▸ List.mem_cons_self
          exact isComponentName_of_mem_boundNames hmem
    · cases h

theorem isComponentName_of_scanLines {extension : String} {lines kept : List (List Char)}
    {imports : List ImportReference}
    (h : scanLines extension lines = .ok (kept, imports)) :
    ∀ i ∈ imports, isComponentName i.displayName.toList = true := by
  induction lines generalizing kept imports with
  | nil =>
    cases h
    simp
  | cons line rest ih =>
    unfold scanLines at h
    cases hrest : scanLines extension rest with
    | error e =>
      rw [hrest] at h
      split at h <;> cases h
    | ok found =>
      obtain ⟨kept', imports'⟩ := found
      rw [hrest] at h
      split at h
      · cases h
      · cases h
        exact ih hrest
      · rename_i i hi
        cases h
        intro j hj
        rcases List.mem_cons.mp hj with rfl | hj
        · exact isComponentName_of_classify hi
        · exact ih hrest j hj

theorem isComponentName_of_scan {extension script : String} {path : Path} {scanned : ScannedScript}
    (h : scan extension script path = .ok scanned) :
    ∀ i ∈ scanned.imports, isComponentName i.displayName.toList = true := by
  unfold scan at h
  split at h
  · rename_i hs
    cases h
    exact isComponentName_of_scanLines hs
  · cases h

end Imports

/-! ## Names in a graph -/

namespace ComponentGraph
open Compile

theorem isComponentName_of_called {files : FileTree} {options : CompileOptions} {path key : Path} {name n : String}
    (hname : Imports.isComponentName name.toList = true) (h : Called files options (AskedFor path name) key n) :
    Imports.isComponentName n.toList = true := by
  rcases h with ⟨_, rfl⟩ | ⟨isPage, importer, source, hread, i, hi, _, rfl⟩
  · exact hname
  · exact Imports.isComponentName_of_scan (readSource_ok hread).2.2.1 i hi

/-- A compile under a component name gives no component another kind of name. -/
theorem isComponentName_of_compiled {files : FileTree} {options : CompileOptions} {path : Path} {name : String}
    (hname : Imports.isComponentName name.toList = true) :
    ∀ c ∈ (empty.compilePage files options path name).2.components, ∀ n ∈ c.names,
      Imports.isComponentName n.toList = true := by
  have hrun := (compile_ran files options true path name ordered_empty).run
  refine hrun.forall_components (P := fun c => ∀ n ∈ c.names, Imports.isComponentName n.toList = true) ?_ ?_
    (fun k hk => (hrun.ordered ordered_empty).isKey_of_mem hk) (by simp [empty])
  · intro c bound hc hcalled n hn
    unfold Component.bind at hn
    split at hn
    · exact hc n hn
    · rcases List.mem_cons.mp hn with rfl | hn
      · exact hc _ List.mem_cons_self
      · rcases List.mem_append.mp hn with hn | hn
        · exact hc n (List.mem_cons_of_mem _ hn)
        · rw [List.mem_singleton.mp hn]
          exact isComponentName_of_called hname hcalled
  · intro g key first isPage source children hcalled _ n hn
    obtain rfl : n = first := List.mem_singleton.mp hn
    exact isComponentName_of_called hname hcalled

/-- The components of a compile under a component name: their fragments are named after
    their classes, and neither these nor the names of the components are markup. -/
theorem named_of_compiled {files : FileTree} {config : Config} {seed : Nat} {path : Path} {name : String}
    {result : Except SiteError Path} {g : ComponentGraph} (hname : Imports.isComponentName name.toList = true)
    (hcompiled : empty.compilePage files (config.compileOptions seed) path name = (result, g)) :
    ∀ c ∈ g.components, c.WellNamed ∧ (∀ n ∈ c.names, Imports.isComponentName n.toList = true) ∧
      IsPlain c.scopeClass.toList := by
  have hreach := reachable_of_compilePage hcompiled
  have hnames : ∀ c ∈ (empty.compilePage files (config.compileOptions seed) path name).2.components, ∀ n ∈ c.names,
      Imports.isComponentName n.toList = true := isComponentName_of_compiled hname
  rw [hcompiled] at hnames
  intro c hc
  refine ⟨hreach.wellNamed c hc, hnames c hc, ?_⟩
  rw [hreach.scopeClass_eq c hc]
  exact config.scopeStrategy.isPlain_classOf seed c.sourcePath

/-! ## Owners of names -/

theorem claimNames_owners {path : Path} {names : List String} {owners owners' : List (String × Path)}
    (h : claimNames path names owners = .ok owners') :
    (∀ n p, owners.find? (·.1 == n) = some (n, p) → owners'.find? (·.1 == n) = some (n, p)) ∧
      ∀ n ∈ names, ∃ p, owners'.find? (·.1 == n) = some (n, p) ∧ p.same path = true := by
  induction names generalizing owners with
  | nil =>
    cases h
    exact ⟨fun _ _ h => h, by simp⟩
  | cons name names ih =>
    unfold claimNames at h
    split at h
    · rename_i first hf
      split at h
      · rename_i hsame
        obtain ⟨hkeep, hnames⟩ := ih h
        refine ⟨hkeep, fun n hn => ?_⟩
        rcases List.mem_cons.mp hn with rfl | hn
        · have hfirst := List.find?_some hf
          simp only [beq_iff_eq] at hfirst
          exact ⟨first, hkeep _ _ (by rw [hf, hfirst]), hsame⟩
        · exact hnames n hn
      · cases h
    · rename_i hnone
      obtain ⟨hkeep, hnames⟩ := ih h
      refine ⟨fun n p hp => hkeep n p ?_, fun n hn => ?_⟩
      · rw [List.find?_append, hp]
        rfl
      · rcases List.mem_cons.mp hn with rfl | hn
        · refine ⟨path, hkeep _ _ ?_, Path.same_refl path⟩
          rw [List.find?_append, hnone]
          simp
        · exact hnames n hn

theorem claimAll_owner {components : List Component} {owners : List (String × Path)}
    (h : claimAll components owners = .ok ()) :
    ∀ c ∈ components, ∀ n ∈ c.names, ∀ p, owners.find? (·.1 == n) = some (n, p) → p.same c.sourcePath = true := by
  induction components generalizing owners with
  | nil => simp
  | cons d rest ih =>
    unfold claimAll at h
    cases hclaim : claimNames d.sourcePath d.names owners with
    | error e =>
      rw [hclaim] at h
      cases h
    | ok owners' =>
      rw [hclaim] at h
      obtain ⟨hkeep, hnames⟩ := claimNames_owners hclaim
      intro c hc n hn p hp
      rcases List.mem_cons.mp hc with rfl | hc
      · obtain ⟨q, hq, hsame⟩ := hnames n hn
        have := (hkeep n p hp).symm.trans hq
        cases this
        exact hsame
      · exact ih h c hc n hn p (hkeep n p hp)

theorem claimAll_pairwise {components : List Component} {owners : List (String × Path)}
    (h : claimAll components owners = .ok ()) :
    components.Pairwise fun c d => ∀ n ∈ c.names, n ∈ d.names → c.sourcePath.same d.sourcePath = true := by
  induction components generalizing owners with
  | nil => exact .nil
  | cons c rest ih =>
    unfold claimAll at h
    cases hclaim : claimNames c.sourcePath c.names owners with
    | error e =>
      rw [hclaim] at h
      cases h
    | ok owners' =>
      rw [hclaim] at h
      refine .cons (fun d hd n hn hn' => ?_) (ih h)
      obtain ⟨p, hp, hsame⟩ := (claimNames_owners hclaim).2 n hn
      have howner := claimAll_owner h d hd n hn' p hp
      simp only [Path.same, beq_iff_eq] at hsame howner ⊢
      exact hsame.symm.trans howner

/-- Where no name is refused, a name belongs to one component. -/
theorem Ordered.eq_of_claimAll {g : ComponentGraph} (hg : g.Ordered) {components : List Component}
    (hmem : ∀ c ∈ components, c ∈ g.components) {owners : List (String × Path)}
    (hclaim : claimAll components owners = .ok ())
    {c d : Component} (hc : c ∈ components) (hd : d ∈ components) {n : String} (hn : n ∈ c.names) (hn' : n ∈ d.names) :
    c = d := by
  have hsame : c.sourcePath.same d.sourcePath = true := by
    have hpairs := claimAll_pairwise hclaim
    refine hpairs.forall_of_forall_of_flip
      (R := fun c d => ∀ n ∈ c.names, n ∈ d.names → c.sourcePath.same d.sourcePath = true)
      (fun e _ _ _ _ => Path.same_refl e.sourcePath) (hpairs.imp ?_) hc hd n hn hn'
    intro e f hef m hm hm'
    have := hef m hm' hm
    simp only [Path.same, beq_iff_eq] at this ⊢
    exact this.symm
  exact hg.eq_of_sourcePath (hmem c hc) (hmem d hd)
    ((Path.same_iff (hg.isKey c (hmem c hc)) (hg.isKey d (hmem d hd))).mp hsame)

theorem Ordered.eq_of_mem_names {g : ComponentGraph} (hg : g.Ordered) {root : Path}
    {page : Component} {flat : List Component}
    (hpage : g.get? root = some page) (hflat : g.flatten root = .ok flat) {c d : Component} (hc : c ∈ flat)
    (hd : d ∈ flat) {n : String} (hn : n ∈ c.names) (hn' : n ∈ d.names) : c = d :=
  hg.eq_of_claimAll (fun _ he => ((hg.mem_flat hpage hflat).mp he).1) (flatten_eq_ok hpage hflat).2 hc hd hn hn'

theorem Ordered.mem_components {g : ComponentGraph} (hg : g.Ordered) {root : Path}
    {page : Component} {flat : List Component}
    (hpage : g.get? root = some page) (hflat : g.flatten root = .ok flat) {c : Component} (hc : c ∈ page :: flat) :
    c ∈ g.components := by
  rcases List.mem_cons.mp hc with rfl | hc
  · exact mem_of_get? hpage
  · exact ((hg.mem_flat hpage hflat).mp hc).1

/-! ## What an import binds -/

/-- An import of `c` binds this name to `d`. -/
def Binds (options : CompileOptions) (g : ComponentGraph) (c : Component) (name : String) (d : Component) : Prop :=
  ∃ i ∈ importsOf options c, i.displayName = name ∧ g.get? (c.sourcePath.resolveImport i.raw) = some d

section Bindings

variable {options : CompileOptions} {g : ComponentGraph} (hg : g.Ordered) (hlinked : AllLinked options g)
  {c d : Component} {name : String}
include hg hlinked

theorem exists_binds (hc : c ∈ g.components) {i : ImportReference} (hi : i ∈ importsOf options c) :
    ∃ d, Binds options g c i.displayName d := by
  obtain ⟨d, hd, hpath, _⟩ := (hlinked c hc).bound i hi
  exact ⟨d, i, hi, rfl, (hg.get?_eq_some (hpath ▸ hg.isKey d hd)).mpr ⟨hd, hpath⟩⟩

theorem Binds.imported (h : Binds options g c name d) (hc : c ∈ g.components) :
    d ∈ g.components ∧ name ∈ d.names ∧ g.Imports c.sourcePath d.sourcePath := by
  obtain ⟨i, hi, rfl, hget⟩ := h
  obtain ⟨e, he, hpath, hn⟩ := (hlinked c hc).bound i hi
  have hkey : (c.sourcePath.resolveImport i.raw).IsKey := hpath ▸ hg.isKey e he
  obtain ⟨hd, hdpath⟩ := (hg.get?_eq_some hkey).mp hget
  obtain rfl := hg.eq_of_sourcePath hd he (hdpath.trans hpath.symm)
  refine ⟨hd, hn, (hg.imports_iff hc).mpr ?_⟩
  rw [(hlinked c hc).children_eq, List.mem_eraseDups, hdpath]
  exact List.mem_map_of_mem hi

variable {root : Path} {page : Component} {flat : List Component} (hpage : g.get? root = some page)
  (hflat : g.flatten root = .ok flat)
include hpage hflat

theorem Binds.mem_flat (h : Binds options g c name d) (hc : c ∈ page :: flat) : d ∈ flat := by
  have hcomp := hg.mem_components hpage hflat hc
  obtain ⟨hd, _, himports⟩ := h.imported hg hlinked hcomp
  refine (hg.mem_flat hpage hflat).mpr ⟨hd, (hg.mem_descendants (mem_of_get? hpage) _).mpr ?_⟩
  rcases List.mem_cons.mp hc with rfl | hc
  · exact .single himports
  · exact .tail ((hg.mem_descendants (mem_of_get? hpage) _).mp ((hg.mem_flat hpage hflat).mp hc).2) himports

theorem Binds.unique (h : Binds options g c name d) {e : Component} (he : Binds options g c name e)
    (hc : c ∈ page :: flat) :
    d = e := by
  have hcomp := hg.mem_components hpage hflat hc
  exact hg.eq_of_mem_names hpage hflat (h.mem_flat hg hlinked hpage hflat hc) (he.mem_flat hg hlinked hpage hflat hc)
    (h.imported hg hlinked hcomp).2.1 (he.imported hg hlinked hcomp).2.1

end Bindings

end ComponentGraph

end ComponentSite
