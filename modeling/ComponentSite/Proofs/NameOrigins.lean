/-
  ComponentSite.Proofs.NameOrigins — where the names and the children of components come
  from.

  A compiler answers calls one after the other, each with the files as they are then
  (`after`). At every moment a component is faithful to its own text (`Faithful`): its
  children are what its script imports, and each of them has the name it is imported by.
  The other way round, a component has no name without a reason: in some call it was
  asked for under this name, or a script that the call read imports it so, and the call
  came as far as that import (`Requested`).
-/
import ComponentSite.Proofs.Footprint
import Mathlib.Data.List.Induction

namespace ComponentSite.ComponentGraph
open Compile

/-! ## Calls -/

structure Call where
  files : FileTree
  isPage : Bool
  path : Path
  name : String

def Call.answer (options : CompileOptions) (call : Call) (g : ComponentGraph) :
    Except SiteError Path × ComponentGraph :=
  if call.isPage then g.compilePage call.files options call.path call.name
  else g.compile call.files options call.path call.name

def after (options : CompileOptions) (calls : List Call) : ComponentGraph :=
  calls.foldl (fun g call => (call.answer options g).2) empty

theorem after_concat (options : CompileOptions) (calls : List Call) (call : Call) :
    after options (calls ++ [call]) = (call.answer options (after options calls)).2 := by
  simp [after]

theorem Call.answer_eq (options : CompileOptions) (call : Call) (g : ComponentGraph) :
    call.answer options g =
      compileSource call.files options maxDepth [] call.isPage call.path call.name g := by
  unfold answer compilePage compile
  split
  · rename_i h
    rw [h]
  · rename_i h
    rw [Bool.not_eq_true] at h
    rw [h]

theorem reachable_after (options : CompileOptions) (calls : List Call) : Reachable options (after options calls) := by
  induction calls using List.reverseRecOn with
  | nil => exact .empty
  | append_singleton calls call ih =>
    rw [after_concat, Call.answer]
    split
    · exact ih.page _ _ _
    · exact ih.component _ _ _

/-! ## What a component says of its imports -/

/-- The children are what the script of the text imports, each once, and every import
    finds its source under the name it binds. -/
def Faithful (options : CompileOptions) (g : ComponentGraph) (c : Component) : Prop :=
  ∃ sections scanned, Sections.extract options.markers c.rawSource c.sourcePath = .ok sections ∧
    Imports.scan options.extension sections.script c.sourcePath = .ok scanned ∧
    c.children = (scanned.imports.map fun i => c.sourcePath.resolveImport i.raw).eraseDups ∧
    ∀ i ∈ scanned.imports, ∃ d, g.get? (c.sourcePath.resolveImport i.raw) = some d ∧ i.displayName ∈ d.names

theorem Reachable.exists_scanned {options : CompileOptions} {g : ComponentGraph} (h : Reachable options g) :
    ∀ c ∈ g.components, ∃ sections scanned,
      Sections.extract options.markers c.rawSource c.sourcePath = .ok sections ∧
        Imports.scan options.extension sections.script c.sourcePath = .ok scanned ∧
        importsOf options c = scanned.imports := by
  refine h.forall_components ?_ ?_
  · intro c name hc
    have he := Component.Extends.bind c name
    obtain ⟨more, e⟩ := id he
    rw [importsOf_of_extends he, e]
    exact hc
  · intro files g key name isPage source children hread
    obtain ⟨_, hextract, hscan, _⟩ := readSource_ok hread
    exact ⟨_, _, hextract, hscan, importsOf_finish hread⟩

theorem Reachable.faithful {options : CompileOptions} {g : ComponentGraph} (h : Reachable options g) :
    ∀ c ∈ g.components, Faithful options g c := by
  obtain ⟨hg, hlinked⟩ := h.inv
  intro c hc
  obtain ⟨sections, scanned, hextract, hscan, himports⟩ := h.exists_scanned c hc
  have hl := hlinked c hc
  rw [himports] at hl
  refine ⟨sections, scanned, hextract, hscan, hl.children_eq, fun i hi => ?_⟩
  obtain ⟨d, hd, hpath, hname⟩ := hl.bound i hi
  exact ⟨d, (hg.get?_eq_some (Path.isKey_resolveImport _ _)).mpr ⟨hd, hpath⟩, hname⟩

theorem Reachable.names_nodup {options : CompileOptions} {g : ComponentGraph} (h : Reachable options g) :
    ∀ c ∈ g.components, c.names.Nodup := by
  refine h.forall_components ?_ ?_
  · intro c name hc
    unfold Component.bind
    split
    · exact hc
    · rename_i hnew
      show (c.names ++ [name]).Nodup
      refine List.nodup_append.mpr ⟨hc, List.nodup_singleton name, ?_⟩
      rintro a ha b hb rfl
      rw [List.mem_singleton.mp hb] at ha
      exact hnew (List.contains_iff_mem.mpr ha)
  · intro files g key name isPage source children _
    exact List.nodup_singleton name

/-! ## Requests -/

/-- What a call compiles: the source it is for, and the imports of every source that it
    reads, in their order, each if all before it could be compiled. `before` and `later`
    are the graphs at the start and at the end of the call. -/
inductive Requested (options : CompileOptions) (call : Call) (before later : ComponentGraph) :
    (isPage : Bool) → Path → String → Prop
  | called : Requested options call before later call.isPage call.path.normalize call.name
  | imported {isPage : Bool} {importer : Path} {name : String} {source : ReadSource}
      {done rest : List ImportReference} {i : ImportReference} :
      Requested options call before later isPage importer name → importer ∉ before.keys →
      readSource call.files options isPage importer = .ok source → source.scanned.imports = done ++ i :: rest →
      (∀ j ∈ done, later.Bound (importer.resolveImport j.raw) j.displayName) →
      Requested options call before later false (importer.resolveImport i.raw) i.displayName

theorem bound_bind {g : ComponentGraph} (hg : g.Ordered) {key k : Path} (hkey : key.IsKey) {name n : String}
    (h : (g.bind key name).Bound k n) : g.Bound k n ∨ k = key ∧ n = name := by
  obtain ⟨d, hd, rfl, hn⟩ := h
  obtain ⟨c, hc, rfl⟩ := List.mem_map.mp hd
  split at hn
  · rename_i hsame
    rw [if_pos hsame, (Component.Extends.bind c name).sourcePath_eq]
    unfold Component.bind at hn
    split at hn
    · exact Or.inl ⟨c, hc, rfl, hn⟩
    · rcases List.mem_append.mp (show n ∈ c.names ++ [name] from hn) with hn | hn
      · exact Or.inl ⟨c, hc, rfl, hn⟩
      · exact Or.inr ⟨(Path.same_iff (hg.isKey c hc) hkey).mp hsame, List.mem_singleton.mp hn⟩
  · rename_i hother
    rw [if_neg hother]
    exact Or.inl ⟨c, hc, rfl, hn⟩

theorem bound_add {g : ComponentGraph} {c : Component} {k : Path} {n : String} (h : (g.add c).Bound k n) :
    g.Bound k n ∨ k = c.sourcePath ∧ n ∈ c.names := by
  obtain ⟨d, hd, rfl, hn⟩ := h
  rcases List.mem_append.mp hd with hd | hd
  · exact Or.inl ⟨d, hd, rfl, hn⟩
  · rw [List.mem_singleton.mp hd] at hn ⊢
    exact Or.inr ⟨rfl, hn⟩

section Requests

variable {options : CompileOptions} {call : Call} {before later : ComponentGraph}

def Explained (options : CompileOptions) (call : Call) (before later g g' : ComponentGraph) : Prop :=
  ∀ k n, g'.Bound k n → g.Bound k n ∨ ∃ isPage, Requested options call before later isPage k n

/-- If what a compile is for was requested, so were the names that it gives. -/
def Explains (options : CompileOptions) (call : Call) (before later : ComponentGraph)
    (compile : Path → String → ComponentGraph → Except SiteError Path × ComponentGraph) : Prop :=
  ∀ (path : Path) (name : String) (g : ComponentGraph), g.Ordered → before.Grows g →
    (compile path name g).2.Grows later → Requested options call before later false path.normalize name →
    Explained options call before later g (compile path name g).2

theorem explained_refl (g : ComponentGraph) : Explained options call before later g g := fun _ _ h => Or.inl h

theorem explained_bind {g : ComponentGraph} (hg : g.Ordered) {isPage : Bool} {key : Path} {name : String}
    (hkey : key.IsKey) (hrequest : Requested options call before later isPage key name) :
    Explained options call before later g (g.bind key name) := by
  intro k n h
  rcases bound_bind hg hkey h with h | ⟨rfl, rfl⟩
  · exact Or.inl h
  · exact Or.inr ⟨isPage, hrequest⟩

theorem compileImports_grows (files : FileTree) (options : CompileOptions) (depth : Nat) (above : List Path)
    (importer : Path) (imports : List ImportReference) (done : List Path) {g : ComponentGraph} (hg : g.Ordered) :
    g.Grows (compileImports (compileSource files options depth above false) importer imports done g).2 := by
  induction imports generalizing done g with
  | nil => exact .refl g
  | cons i rest ih =>
    have hran := grows_compile files options depth above false (importer.resolveImport i.raw) i.displayName hg
    rw [compileImports]
    rcases hc : compileSource files options depth above false (importer.resolveImport i.raw) i.displayName g
      with ⟨result, g₁⟩
    rw [hc] at hran
    cases result with
    | error e => exact hran.run.grows
    | ok child => exact hran.run.grows.trans (ih _ (hran.run.ordered hg))

/-- The names that imports are compiled under were requested, if those of the sources below were. -/
theorem compileImports_explained (depth : Nat) (above : List Path) (children : List Path) {isPage : Bool}
    {importer : Path} {name : String} {source : ReadSource}
    (hrequest : Requested options call before later isPage importer name) (hnew : importer ∉ before.keys)
    (hread : readSource call.files options isPage importer = .ok source)
    (hcompile : Explains options call before later (compileSource call.files options depth above false))
    {done rest : List ImportReference} (hsplit : source.scanned.imports = done ++ rest) {g : ComponentGraph}
    (hg : g.Ordered) (hbefore : before.Grows g)
    (hdone : ∀ j ∈ done, g.Bound (importer.resolveImport j.raw) j.displayName)
    (hlater : (compileImports
      (compileSource call.files options depth above false) importer rest children g).2.Grows later) :
    Explained options call before later g
      (compileImports (compileSource call.files options depth above false) importer rest children g).2 := by
  induction rest generalizing done children g with
  | nil => exact fun k n h => Or.inl h
  | cons i rest ih =>
    have hran := grows_compile call.files options depth above false (importer.resolveImport i.raw) i.displayName hg
    have hstep := hcompile (importer.resolveImport i.raw) i.displayName g hg hbefore
    rw [Path.isKey_resolveImport importer i.raw] at hran hstep
    rw [compileImports] at hlater ⊢
    rcases hc : compileSource call.files options depth above false (importer.resolveImport i.raw) i.displayName g
      with ⟨result, g₁⟩
    rw [hc] at hran hstep hlater
    have hg₁ := hran.run.ordered hg
    have hrequested (hgrows : g₁.Grows later) :
        Requested options call before later false (importer.resolveImport i.raw) i.displayName :=
      .imported hrequest hnew hread hsplit fun j hj => (hran.run.grows.trans hgrows).bound (hdone j hj)
    cases result with
    | error e => exact hstep hlater (hrequested hlater)
    | ok child =>
      have hgrows := (compileImports_grows call.files options depth above importer rest _ hg₁).trans hlater
      have hfound := (hran.found child rfl).2
      have hdone' : ∀ j ∈ done ++ [i], g₁.Bound (importer.resolveImport j.raw) j.displayName := by
        intro j hj
        rcases List.mem_append.mp hj with hj | hj
        · exact hran.run.grows.bound (hdone j hj)
        · rw [List.mem_singleton.mp hj]
          exact hfound
      have hsplit' : source.scanned.imports = (done ++ [i]) ++ rest := by
        rw [hsplit, List.append_assoc, List.singleton_append]
      intro k n h
      rcases ih _ hsplit' hg₁ (hbefore.trans hran.run.grows) hdone' hlater k n h with h | h
      · exact hstep hgrows (hrequested hgrows) k n h
      · exact Or.inr h

/-- The names that a compile gives were requested. -/
theorem compileSource_explained (depth : Nat) (above : List Path) (isPage : Bool) (path : Path) (name : String)
    {g : ComponentGraph} (hg : g.Ordered) (hbefore : before.Grows g)
    (hlater : (compileSource call.files options depth above isPage path name g).2.Grows later)
    (hrequest : Requested options call before later isPage path.normalize name) :
    Explained options call before later g (compileSource call.files options depth above isPage path name g).2 := by
  induction depth generalizing above isPage path name g with
  | zero =>
    unfold compileSource
    simp only
    split
    · exact explained_bind hg (Path.isKey_normalize path) hrequest
    · split <;> exact explained_refl g
  | succ depth ih =>
    have hkey := Path.isKey_normalize path
    rw [compileSource_succ] at hlater ⊢
    split
    · exact explained_bind hg hkey hrequest
    · rename_i hout
      rw [if_neg hout] at hlater
      split
      · exact explained_refl g
      · rename_i hnot
        rw [if_neg hnot] at hlater
        cases hread : readSource call.files options isPage path.normalize with
        | error e => exact explained_refl g
        | ok source =>
          rw [hread] at hlater
          simp only at hlater ⊢
          -- a source that is read was not there when the call began, so the call asks for its imports
          have hnew : path.normalize ∉ before.keys := fun hmem =>
            hout ((hg.contains_iff hkey).mpr (hbefore.mem_keys hmem))
          have himports := compileImports_explained depth (path.normalize :: above) [] hrequest hnew hread
            (fun path name g hg hbefore => ih _ false path name hg hbefore)
            (List.nil_append _).symm hg hbefore (by simp)
          rcases hc : compileImports (compileSource call.files options depth (path.normalize :: above) false)
            path.normalize source.scanned.imports [] g with ⟨result, g₁⟩
          rw [hc] at himports hlater
          cases result with
          | error e => exact himports hlater
          | ok children =>
            simp only at himports hlater ⊢
            have hadd := g₁.grows_add (finish options g₁ path.normalize name source children)
            intro k n h
            rcases bound_add h with h | ⟨rfl, hn⟩
            · exact himports (hadd.trans hlater) k n h
            · rw [Component.names, finish_name, finish_aliases] at hn
              rw [List.mem_singleton.mp hn]
              exact Or.inr ⟨isPage, hrequest⟩

end Requests

/-- A name that a compiler has for a source was requested in one of its calls. -/
theorem requested_of_bound (options : CompileOptions) {calls : List Call} {k : Path} {n : String}
    (h : (after options calls).Bound k n) :
    ∃ before call later isPage, calls = before ++ call :: later ∧
      Requested options call (after options before) (after options (before ++ [call])) isPage k n := by
  induction calls using List.reverseRecOn with
  | nil =>
    obtain ⟨c, hc, -⟩ := h
    cases hc
  | append_singleton calls call ih =>
    have hg := (reachable_after options calls).inv.1
    have hafter : after options (calls ++ [call]) =
        (compileSource call.files options maxDepth [] call.isPage call.path call.name (after options calls)).2 := by
      rw [after_concat, Call.answer_eq]
    have hlater : (compileSource call.files options maxDepth [] call.isPage call.path call.name
        (after options calls)).2.Grows (after options (calls ++ [call])) := hafter ▸ Grows.refl _
    have hexplained := compileSource_explained maxDepth [] call.isPage call.path call.name hg (Grows.refl _)
      hlater .called
    rw [← hafter] at hexplained
    rcases hexplained k n h with h | ⟨isPage, h⟩
    · obtain ⟨before, call', later, isPage, rfl, hrequest⟩ := ih h
      exact ⟨before, call', later ++ [call], isPage, by simp, hrequest⟩
    · exact ⟨calls, call, [], isPage, rfl, h⟩

/-- After any calls, a component is faithful to its own text, and each of its names,
    which are all different, was requested in one of the calls. -/
theorem components_justified (options : CompileOptions) (calls : List Call) :
    ∀ c ∈ (after options calls).components,
      Faithful options (after options calls) c ∧
      (∀ n ∈ c.names, ∃ before call later isPage, calls = before ++ call :: later ∧
        Requested options call (after options before) (after options (before ++ [call])) isPage c.sourcePath n) ∧
      c.names.Nodup := by
  have hreach := reachable_after options calls
  intro c hc
  exact ⟨hreach.faithful c hc, fun n hn => requested_of_bound options ⟨c, hc, rfl, hn⟩, hreach.names_nodup c hc⟩

/-- A card that a page imports under two names, and under a third one in a script of
    which another import fails; then it is asked for itself. -/
theorem card_of_many_names :
    let pageText :=
      "<script>import Card from './card.goo'\nimport Other from './other.goo'</script><component></component>"
    let files : FileTree := { entries := [
      (["page.goo"], .file (some pageText) 1),
      (["other.goo"], .file (some "<script>import Tile from './card.goo'</script>") 1),
      (["broken.goo"], .file (some "<script>import Extra from './card.goo'\nimport Gone from './gone.goo'</script>") 1),
      (["card.goo"], .file (some "<component>card</component>") 1)] }
    let options : CompileOptions := { classOf := fun p => p.text }
    let calls : List Call := [⟨files, true, ⟨"page.goo"⟩, "Page"⟩, ⟨files, false, ⟨"broken.goo"⟩, "Broken"⟩,
      ⟨files, false, ⟨"./card.goo"⟩, "Mine"⟩]
    ∃ c ∈ (after options calls).components, c.names = ["Card", "Tile", "Extra", "Mine"] ∧
      Faithful options (after options calls) c ∧
      (∀ n ∈ c.names, ∃ before call later isPage, calls = before ++ call :: later ∧
        Requested options call (after options before) (after options (before ++ [call])) isPage c.sourcePath n) ∧
      c.names.Nodup := by
  intro pageText files options calls
  have hcard : ∃ c ∈ (after options calls).components, c.names = ["Card", "Tile", "Extra", "Mine"] := by decide +kernel
  obtain ⟨c, hc, hnames⟩ := hcard
  exact ⟨c, hc, hnames, components_justified options calls c hc⟩

end ComponentSite.ComponentGraph
