/-
  ComponentSite.Proofs.CompileRun — what compiling does to the graph.

  Whatever comes of a compile, it changes the graph in steps of two kinds (`Step`): a
  source that is in the graph gets one more name, or a source whose imports are all in
  the graph, under the names it imports them by, is added at the end. Every step keeps
  the graph in order and lets it grow, so every compile does (`compileSource_ran`).
  A compile that succeeds has put nothing into the graph but its source and what the
  source reaches.
-/
import ComponentSite.Component.Compile
import ComponentSite.Proofs.ImportGraph

namespace ComponentSite.Compile

variable (files : FileTree) (options : CompileOptions) (asked : Path → String → Prop)

/-- The source at `key` is asked for under this name, or a script imports it so. -/
def Called (key : Path) (name : String) : Prop :=
  asked key name ∨ ∃ isPage importer source, readSource files options isPage importer = .ok source ∧
    ∃ i ∈ source.scanned.imports, importer.resolveImport i.raw = key ∧ i.displayName = name

/-- `children` are the imports of `importer`, each once, and all of them are in the graph
    under the names they are imported by. -/
structure Linked (g : ComponentGraph) (importer : Path) (imports : List ImportReference)
    (children : List Path) : Prop where
  children_eq : children = (imports.map fun i => importer.resolveImport i.raw).eraseDups
  bound : ∀ i ∈ imports, g.Bound (importer.resolveImport i.raw) i.displayName

inductive Step : ComponentGraph → ComponentGraph → Prop
  | bind {g : ComponentGraph} {key : Path} {name : String} : key ∈ g.keys →
      Called files options asked key name → Step g (g.bind key name)
  | add {g : ComponentGraph} {key : Path} {name : String} {isPage : Bool} {source : ReadSource}
      {children : List Path} : key.IsKey → key ∉ g.keys → Called files options asked key name →
      readSource files options isPage key = .ok source → Linked g key source.scanned.imports children →
      Step g (g.add (finish options g key name source children))

abbrev Run : ComponentGraph → ComponentGraph → Prop := Relation.ReflTransGen (Step files options asked)

variable {files options asked}

/-! ## A finished component -/

section Finish

variable (options) (g : ComponentGraph) (key : Path) (name : String) (source : ReadSource) (children : List Path)

@[simp] theorem finish_name : (finish options g key name source children).name = name := rfl
@[simp] theorem finish_aliases : (finish options g key name source children).aliases = [] := rfl
@[simp] theorem finish_sourcePath : (finish options g key name source children).sourcePath = key := rfl
@[simp] theorem finish_rawSource : (finish options g key name source children).rawSource = source.raw := rfl
@[simp] theorem finish_modified : (finish options g key name source children).modified = source.modified := rfl
@[simp] theorem finish_children : (finish options g key name source children).children = children := rfl
@[simp] theorem finish_descendants :
    (finish options g key name source children).descendants = g.reached children := rfl
@[simp] theorem finish_scopeClass :
    (finish options g key name source children).scopeClass = options.classOf key := rfl
@[simp] theorem finish_script : (finish options g key name source children).script = source.scanned.cleaned := rfl

theorem finish_fragments :
    (finish options g key name source children).fragments =
      Fragment.generate (options.classOf key) source.scanned.cleaned (finish options g key name source children).markup
        (finish options g key name source children).style (options.webComponents.map (CustomElement.forPath key)) := by
  unfold finish
  simp only

end Finish

/-- A compile with depth left: a source in the graph gets the name, one above is a cycle,
    and any other is read and added after its imports. -/
theorem compileSource_succ (depth : Nat) (above : List Path) (isPage : Bool) (path : Path) (name : String)
    (g : ComponentGraph) :
    compileSource files options (depth + 1) above isPage path name g =
      if g.contains path.normalize then (.ok path.normalize, g.bind path.normalize name)
      else if above.any (·.same path.normalize) then (.error (.cyclicImport path.normalize), g)
      else match readSource files options isPage path.normalize with
        | .error e => (.error e, g)
        | .ok source =>
          match compileImports (compileSource files options depth (path.normalize :: above) false)
              path.normalize source.scanned.imports [] g with
          | (.error e, g) => (.error e, g)
          | (.ok children, g) =>
            (.ok path.normalize, g.add (finish options g path.normalize name source children)) := by
  unfold compileSource
  rfl

/-! ## Steps and runs -/

theorem Linked.mem_keys {g : ComponentGraph} {importer : Path} {imports : List ImportReference}
    {children : List Path} (h : Linked g importer imports children) {k : Path} (hk : k ∈ children) :
    k ∈ g.keys := by
  rw [h.children_eq, List.mem_eraseDups] at hk
  obtain ⟨i, hi, rfl⟩ := List.mem_map.mp hk
  obtain ⟨c, hc, he, _⟩ := h.bound i hi
  exact ComponentGraph.mem_keys.mpr ⟨c, hc, he⟩

theorem Step.grows {g g' : ComponentGraph} (h : Step files options asked g g') : g.Grows g' := by
  cases h with
  | bind => exact g.grows_bind _ _
  | add => exact g.grows_add _

theorem Step.ordered {g g' : ComponentGraph} (h : Step files options asked g g') (hg : g.Ordered) : g'.Ordered := by
  cases h with
  | bind => exact hg.bind _ _
  | add hkey hnew _ _ hl => exact hg.add hkey hnew (fun _ hk => hl.mem_keys hk) rfl

theorem Run.grows {g g' : ComponentGraph} (h : Run files options asked g g') : g.Grows g' := by
  induction h with
  | refl => exact .refl g
  | tail _ hs ih => exact ih.trans hs.grows

theorem Run.ordered {g g' : ComponentGraph} (h : Run files options asked g g') (hg : g.Ordered) : g'.Ordered := by
  induction h with
  | refl => exact hg
  | tail _ hs ih => exact hs.ordered ih

/-! ## A compile is a run -/

structure Ran (files : FileTree) (options : CompileOptions) (asked : Path → String → Prop) (above : List Path)
    (g : ComponentGraph) (key : Path) (name : String) (r : Except SiteError Path × ComponentGraph) : Prop where
  run : Run files options asked g r.2
  apart : ∀ k ∈ above, k ∉ g.keys → k ∉ r.2.keys
  found : ∀ k, r.1 = .ok k → k = key ∧ r.2.Bound key name
  only : (∃ k, r.1 = .ok k) → ∀ k ∈ r.2.keys, k ∉ g.keys → k = key ∨ r.2.Reaches key k

structure RanImports (files : FileTree) (options : CompileOptions) (asked : Path → String → Prop)
    (above : List Path) (g : ComponentGraph) (importer : Path) (imports : List ImportReference)
    (done : List Path) (r : Except SiteError (List Path) × ComponentGraph) : Prop where
  run : Run files options asked g r.2
  apart : ∀ k ∈ above, k ∉ g.keys → k ∉ r.2.keys
  children : ∀ children, r.1 = .ok children →
    children = (done ++ imports.map fun i => importer.resolveImport i.raw).eraseDups
  bound : (∃ children, r.1 = .ok children) →
    ∀ i ∈ imports, r.2.Bound (importer.resolveImport i.raw) i.displayName
  only : (∃ children, r.1 = .ok children) → ∀ k ∈ r.2.keys, k ∉ g.keys →
    ∃ i ∈ imports, k = importer.resolveImport i.raw ∨ r.2.Reaches (importer.resolveImport i.raw) k

theorem compileImports_ran {above : List Path} {importer : Path} {imports : List ImportReference}
    {compile : Path → String → ComponentGraph → Except SiteError Path × ComponentGraph}
    (hc : ∀ i ∈ imports, ∀ g : ComponentGraph, g.Ordered →
      Ran files options asked above g (importer.resolveImport i.raw) i.displayName
        (compile (importer.resolveImport i.raw) i.displayName g))
    {done : List Path} (hd : done.Nodup) {g : ComponentGraph} (hg : g.Ordered) :
    RanImports files options asked above g importer imports done
      (compileImports compile importer imports done g) := by
  induction imports generalizing done g with
  | nil =>
    refine ⟨.refl, fun _ _ hk => hk, ?_, fun _ => nofun, fun _ k hk hn => absurd hk hn⟩
    intro children h
    cases h
    simpa using (eraseDups_of_nodup hd).symm
  | cons i rest ih =>
    have hi := hc i (by simp) g hg
    simp only [compileImports]
    rcases hr : compile (importer.resolveImport i.raw) i.displayName g with ⟨result, g'⟩
    rw [hr] at hi
    cases result with
    | error e =>
      exact ⟨hi.run, hi.apart, nofun, (fun ⟨_, h⟩ => nomatch h), (fun ⟨_, h⟩ => nomatch h)⟩
    | ok child =>
      obtain ⟨rfl, hbound⟩ := hi.found child rfl
      let next := if done.contains (importer.resolveImport i.raw) then done
        else done ++ [importer.resolveImport i.raw]
      have hnext : next = (done ++ [importer.resolveImport i.raw]).eraseDups := by
        rw [eraseDups_concat, eraseDups_of_nodup hd]
        simp only [next, List.contains_iff_mem]
      have hnodup : next.Nodup := hnext ▸ nodup_eraseDups _
      have hr' := ih (fun j hj => hc j (by simp [hj])) hnodup
        (hi.run.ordered hg)
      have hgrows := hr'.run.grows
      refine ⟨hi.run.trans hr'.run, fun k hk hn => hr'.apart k hk (hi.apart k hk hn), ?_, ?_, ?_⟩
      · intro children h
        rw [hr'.children children h, hnext, eraseDups_eraseDups_append]
        simp
      · intro h j hj
        rcases List.mem_cons.mp hj with rfl | hj
        · exact hgrows.bound hbound
        · exact hr'.bound h j hj
      · intro h k hk hn
        by_cases hk' : k ∈ g'.keys
        · refine ⟨i, by simp, ?_⟩
          rcases hi.only ⟨_, rfl⟩ k hk' hn with e | hreach
          · exact Or.inl e
          · exact Or.inr (hgrows.reaches hreach)
        · obtain ⟨j, hj, hjk⟩ := hr'.only h k hk hk'
          exact ⟨j, by simp [hj], hjk⟩

variable {above : List Path} {g : ComponentGraph} {key : Path} {name : String}

theorem ran_error (above : List Path) (g : ComponentGraph) (key : Path) (name : String) (e : SiteError) :
    Ran files options asked above g key name (.error e, g) :=
  ⟨.refl, fun _ _ hk => hk, nofun, fun ⟨_, h⟩ => nomatch h⟩

theorem ran_bind (hkey : key.IsKey) (hcall : Called files options asked key name) (hg : g.Ordered)
    (hin : g.contains key = true) : Ran files options asked above g key name (.ok key, g.bind key name) := by
  have hmem := (hg.contains_iff hkey).mp hin
  have hkeys : ∀ k, k ∈ (g.bind key name).keys → k ∈ g.keys := fun k hk => g.keys_bind key name ▸ hk
  refine ⟨.single (.bind hmem hcall), fun k _ hn hk => hn (hkeys k hk), ?_, fun _ k hk hn => absurd (hkeys k hk) hn⟩
  intro k h
  cases h
  obtain ⟨c, hc, rfl⟩ := ComponentGraph.mem_keys.mp hmem
  refine ⟨rfl, c.bind name, ?_, (Component.Extends.bind c name).sourcePath_eq, c.mem_names_bind name⟩
  have := List.mem_map_of_mem (f := fun d => if d.sourcePath.same c.sourcePath then d.bind name else d) hc
  rwa [if_pos (Path.same_refl c.sourcePath)] at this

theorem ran_add {isPage : Bool} {source : ReadSource} {children : List Path} {g' : ComponentGraph}
    (hkey : key.IsKey) (hcall : Called files options asked key name) (habove : key ∉ above) (hout : key ∉ g.keys)
    (hread : readSource files options isPage key = .ok source)
    (hi : RanImports files options asked (key :: above) g key source.scanned.imports [] (.ok children, g')) :
    Ran files options asked above g key name
      (.ok key, g'.add (finish options g' key name source children)) := by
  let c := finish options g' key name source children
  have hnew : key ∉ g'.keys := hi.apart key (by simp) hout
  have hlinked : Linked g' key source.scanned.imports children :=
    ⟨by simpa using hi.children children rfl, hi.bound ⟨children, rfl⟩⟩
  have hstep : Step files options asked g' (g'.add c) := .add hkey hnew hcall hread hlinked
  have hkeys : (g'.add c).keys = g'.keys ++ [key] := g'.keys_add c
  have hmem : c ∈ (g'.add c).components := by simp [ComponentGraph.add]
  refine ⟨hi.run.tail hstep, ?_, ?_, ?_⟩
  · intro k hk hn hk'
    rw [hkeys] at hk'
    rcases List.mem_append.mp hk' with hk' | hk'
    · exact hi.apart k (by simp [hk]) hn hk'
    · exact habove (List.mem_singleton.mp hk' ▸ hk)
  · intro k h
    cases h
    exact ⟨rfl, c, hmem, rfl, by simp [Component.names, c]⟩
  · intro _ k hk hn
    rw [hkeys] at hk
    rcases List.mem_append.mp hk with hk | hk
    · right
      obtain ⟨i, him, hik⟩ := hi.only ⟨children, rfl⟩ k hk hn
      have hchild : (g'.add c).Imports key (key.resolveImport i.raw) := by
        refine ⟨c, hmem, rfl, ?_⟩
        show _ ∈ children
        rw [hlinked.children_eq, List.mem_eraseDups]
        exact List.mem_map_of_mem him
      rcases hik with rfl | hreach
      · exact .single hchild
      · exact .head hchild ((g'.grows_add c).reaches hreach)
    · exact Or.inl (List.mem_singleton.mp hk)

/-- A compile is a run; what it adds on success is the source and what that reaches. -/
theorem compileSource_ran (depth : Nat) (above : List Path) (isPage : Bool) (path : Path)
    {name : String} (hcall : Called files options asked path.normalize name)
    {g : ComponentGraph} (hg : g.Ordered) :
    Ran files options asked above g path.normalize name
      (compileSource files options depth above isPage path name g) := by
  induction depth generalizing above isPage path name g with
  | zero =>
    unfold compileSource
    simp only
    split
    · rename_i hin
      exact ran_bind (Path.isKey_normalize path) hcall hg hin
    · split <;> exact ran_error _ _ _ _ _
  | succ depth ih =>
    rw [compileSource_succ]
    have hkey := Path.isKey_normalize path
    split
    · rename_i hin
      exact ran_bind hkey hcall hg hin
    · rename_i hout
      have hout : path.normalize ∉ g.keys := fun h => hout ((hg.contains_iff hkey).mpr h)
      split
      · exact ran_error _ _ _ _ _
      · rename_i hnot
        have habove : path.normalize ∉ above := fun h =>
          hnot (List.any_eq_true.mpr ⟨_, h, Path.same_refl path.normalize⟩)
        split
        · exact ran_error _ _ _ _ _
        · rename_i source hread
          -- what is below an import has this source above it, so nothing it adds leads back here
          have hran : ∀ i ∈ source.scanned.imports, ∀ g : ComponentGraph, g.Ordered →
              Ran files options asked (path.normalize :: above) g (path.normalize.resolveImport i.raw) i.displayName
                (compileSource files options depth (path.normalize :: above) false
                  (path.normalize.resolveImport i.raw) i.displayName g) := by
            intro i hi g hg
            have hi' := Path.isKey_resolveImport path.normalize i.raw
            have hcalled : Called files options asked (path.normalize.resolveImport i.raw).normalize i.displayName :=
              Or.inr ⟨isPage, path.normalize, source, hread, i, hi, hi'.symm, rfl⟩
            have := ih (path.normalize :: above) false (path.normalize.resolveImport i.raw) hcalled hg
            rwa [hi'] at this
          have hi := compileImports_ran hran List.nodup_nil hg
          rcases hr : compileImports (compileSource files options depth (path.normalize :: above) false)
            path.normalize source.scanned.imports [] g with ⟨result, g'⟩
          rw [hr] at hi
          cases result with
          | error e =>
            have hnone : ∀ k, (Except.error e : Except SiteError Path) ≠ .ok k := fun k h => by cases h
            exact ⟨hi.run, fun k hk => hi.apart k (by simp [hk]), fun k h => absurd h (hnone k),
              fun h => absurd h.choose_spec (hnone _)⟩
          | ok children => exact ran_add hkey hcall habove hout hread hi

/-! ## What every run keeps -/

/-- What finished components have and names do not take away, every component has. -/
theorem Run.forall_components {P : Component → Prop}
    (hbind : ∀ (c : Component) (name : String), P c → Called files options asked c.sourcePath name → P (c.bind name))
    (hadd : ∀ (g : ComponentGraph) (key : Path) (name : String) (isPage : Bool) (source : ReadSource)
      (children : List Path), Called files options asked key name →
      readSource files options isPage key = .ok source → P (finish options g key name source children))
    {g g' : ComponentGraph} (h : Run files options asked g g') (hk : ∀ k ∈ g'.keys, k.IsKey)
    (hg : ∀ c ∈ g.components, P c) : ∀ c ∈ g'.components, P c := by
  induction h with
  | refl => exact hg
  | @tail g₁ g₂ hrun hs ih =>
    have hkeys := fun k hmem => hk k (hs.grows.mem_keys hmem)
    have ih := ih hkeys
    intro c hc
    cases hs with
    | @bind key name hmem hcall =>
      obtain ⟨d, hd, rfl⟩ := List.mem_map.mp hc
      split
      · rename_i hsame
        have hd' := hkeys d.sourcePath (ComponentGraph.mem_keys.mpr ⟨d, hd, rfl⟩)
        exact hbind d name (ih d hd) ((Path.same_iff hd' (hkeys key hmem)).mp hsame ▸ hcall)
      · exact ih d hd
    | @add key name isPage source children _ _ hcall hread _ =>
      rcases List.mem_append.mp hc with hc | hc
      · exact ih c hc
      · exact List.mem_singleton.mp hc ▸ hadd g₁ key name isPage source children hcall hread

def importsOf (options : CompileOptions) (c : Component) : List ImportReference :=
  match (Sections.extract options.markers c.rawSource c.sourcePath).bind fun sections =>
    Imports.scan options.extension sections.script c.sourcePath with
  | .ok scanned => scanned.imports
  | .error _ => []

theorem importsOf_of_extends {c d : Component} (h : c.Extends d) : importsOf options d = importsOf options c := by
  obtain ⟨_, rfl⟩ := h
  rfl

theorem readSource_ok {isPage : Bool} {key : Path} {source : ReadSource}
    (h : readSource files options isPage key = .ok source) :
    files.read key = .ok (source.raw, source.modified) ∧
      Sections.extract options.markers source.raw key = .ok source.sections ∧
      Imports.scan options.extension source.sections.script key = .ok source.scanned ∧
      (isPage = true → source.sections.hasMarkup = true) := by
  unfold readSource at h
  cases hr : files.read key with
  | error e => rw [hr] at h; cases h
  | ok found =>
    obtain ⟨raw, modified⟩ := found
    rw [hr] at h
    cases hx : Sections.extract options.markers raw key with
    | error e => simp [Except.mapError, bind, Except.bind, hx] at h
    | ok sections =>
      cases hm : isPage && !sections.hasMarkup with
      | true => simp [Except.mapError, bind, Except.bind, hx, hm] at h
      | false =>
        cases hs : Imports.scan options.extension sections.script key with
        | error e => simp [Except.mapError, bind, Except.bind, hx, hm, hs] at h
        | ok scanned =>
          simp [Except.mapError, bind, Except.bind, hx, hm, hs, pure, Except.pure] at h
          subst h
          refine ⟨rfl, hx, hs, fun hp => ?_⟩
          simpa [hp] using hm

theorem importsOf_finish {isPage : Bool} {key : Path} {name : String} {source : ReadSource} {children : List Path}
    {g : ComponentGraph} (h : readSource files options isPage key = .ok source) :
    importsOf options (finish options g key name source children) = source.scanned.imports := by
  obtain ⟨_, hx, hs, _⟩ := readSource_ok h
  simp [importsOf, hx, Except.bind, hs]

def AllLinked (options : CompileOptions) (g : ComponentGraph) : Prop :=
  ∀ c ∈ g.components, Linked g c.sourcePath (importsOf options c) c.children

theorem Linked.mono {g g' : ComponentGraph} (hgr : g.Grows g') {importer : Path} {imports : List ImportReference}
    {children : List Path} (h : Linked g importer imports children) : Linked g' importer imports children :=
  ⟨h.children_eq, fun i hi => hgr.bound (h.bound i hi)⟩

theorem Step.allLinked {g g' : ComponentGraph} (hs : Step files options asked g g') (hg : AllLinked options g) :
    AllLinked options g' := by
  intro c hc
  have hgr := hs.grows
  cases hs with
  | @bind key name =>
    obtain ⟨d, hd, rfl⟩ := List.mem_map.mp hc
    have hd' := (hg d hd).mono hgr
    split
    · have e := Component.Extends.bind d name
      rwa [e.sourcePath_eq, e.children_eq, importsOf_of_extends e]
    · exact hd'
  | @add key name isPage source children _ _ _ hread hl =>
    rcases List.mem_append.mp hc with hc | hc
    · exact (hg c hc).mono hgr
    · rw [List.mem_singleton.mp hc, importsOf_finish hread]
      exact hl.mono hgr

theorem Run.allLinked {g g' : ComponentGraph} (h : Run files options asked g g') (hg : AllLinked options g) :
    AllLinked options g' := by
  induction h with
  | refl => exact hg
  | tail _ hs ih => exact hs.allLinked ih

end ComponentSite.Compile
