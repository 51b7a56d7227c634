/-
  ComponentSite.Proofs.CacheCoherence — a site with a cache renders what a site without
  one renders.

  Two sites are opened on the same files, with hashed scope classes; one keeps compiled
  pages and checks their times, the other keeps none. Both live through the same events
  (`Event`): look-ups, compiles, invalidations, warming, and changes of the files. The
  times must tell the files apart (`TimesTell`): what a path leads to at a time is always
  the same.

  Every entry of the cache is a page that was built from the files of some moment
  (`Coherent`). An entry is used only if all its sources still have the times recorded,
  so they hold what they held then, and building the page now gives the entry
  (`Coherent.fresh`). Hence every look-up answers with the page as built now
  (`Coherent.page`), whatever is kept, and so does a site without a cache
  (`cached_renders_as_uncached`).
-/
import ComponentSite.Proofs.Footprint

namespace ComponentSite.Site

/-! ## Events -/

inductive FileChange
  | write (path : Path) (text : Option String) (modified : Int)
  | touch (path : Path) (modified : Int)
  | remove (path : Path)

def FileChange.apply (files : FileTree) : FileChange → FileTree
  | write path text modified => files.writeFile path text modified
  | touch path modified => files.touch path modified
  | remove path => files.remove path

inductive Event
  | renderPage (path : Path) (data : Template.Value)
  | page (path : Path)
  | compilePage (path : Path)
  | invalidate (path : Path)
  | warm
  | change (what : FileChange)

def Event.files (files : FileTree) : Event → FileTree
  | change what => what.apply files
  | _ => files

def Event.site (s : Site) (files : FileTree) : Event → Site
  | renderPage path data => (s.renderPage files path data).2
  | page path => (s.page files path).2
  | compilePage path => (s.compilePage files path).2
  | invalidate path => s.invalidate path
  | warm => (s.warm files).2
  | change _ => s

/-- What the renderings among the events come to, one after the other. -/
def renderings : Site → FileTree → List Event → List (Except SiteError String)
  | _, _, [] => []
  | s, files, .renderPage page data :: rest =>
    let (answer, s) := s.renderPage files page data
    answer :: renderings s files rest
  | s, files, e :: rest => renderings (e.site s files) (e.files files) rest

def moments : FileTree → List Event → List FileTree
  | files, [] => [files]
  | files, e :: rest => files :: moments (e.files files) rest

/-- What a path leads to is determined by its time. -/
def TimesTell (all : List FileTree) : Prop :=
  ∀ t ∈ all, ∀ t' ∈ all, ∀ (p : Path) (m : Int), t.modified? p = some m → t'.modified? p = some m →
    t'.lookup p = t.lookup p

end ComponentSite.Site

namespace ComponentSite

/-! ## Times -/

/-- A file holds the text of its time; a folder has no time. -/
def Entry.isDated (text : Int → Option String) : Entry → Bool
  | file found modified => found == text modified
  | folder modified => modified.isNone
  | link _ => true

namespace FileTree

theorem read_of_lookup_eq {t t' : FileTree} {p : Path} (h : t'.lookup p = t.lookup p) : t'.read p = t.read p := by
  unfold read
  rw [h]

theorem modified?_of_read {t : FileTree} {p : Path} {text : String} {m : Int} (h : t.read p = .ok (text, m)) :
    t.modified? p = some m := by
  unfold read at h
  unfold modified?
  cases hl : t.lookup p with
  | error e => rw [hl] at h; cases h
  | ok entry =>
    rw [hl] at h
    cases entry with
    | file found modified =>
      cases found with
      | none => cases h
      | some found => cases h; rfl
    | folder => cases h
    | link => cases h

theorem mem_of_lookup {t : FileTree} {p : Path} {e : Entry} (h : t.lookup p = .ok e) :
    e = .folder none ∨ ∃ location, (location, e) ∈ t.entries := by
  unfold lookup at h
  cases hr : t.resolve p with
  | error cause => rw [hr] at h; cases h
  | ok location =>
    simp only [hr, Except.bind] at h
    cases he : t.entry? location with
    | none => rw [he] at h; cases h
    | some found =>
      rw [he] at h
      cases h
      unfold entry? at he
      split at he
      · cases he; exact Or.inl rfl
      · obtain ⟨⟨l, _⟩, hf, rfl⟩ := Option.map_eq_some_iff.mp he
        exact Or.inr ⟨l, List.mem_of_find?_eq_some hf⟩

theorem lookup_of_modified? {text : Int → Option String} {t : FileTree}
    (h : ∀ e ∈ t.entries, e.2.isDated text = true) {p : Path} {m : Int} (hm : t.modified? p = some m) :
    t.lookup p = .ok (.file (text m) m) := by
  unfold modified? at hm
  cases hl : t.lookup p with
  | error e => rw [hl] at hm; cases hm
  | ok entry =>
    have hdated : entry.isDated text = true := by
      rcases mem_of_lookup hl with rfl | ⟨_, hmem⟩
      · rfl
      · exact h _ hmem
    rw [hl] at hm
    cases entry with
    | file found modified =>
      cases hm
      rw [eq_of_beq hdated]
    | folder modified =>
      cases hm
      cases hdated
    | link => cases hm

end FileTree

/-- Times tell the files apart where no two texts have had the same one. -/
theorem Site.timesTell_of_isDated (text : Int → Option String) {all : List FileTree}
    (h : ∀ t ∈ all, ∀ e ∈ t.entries, e.2.isDated text = true) : TimesTell all := by
  intro t ht t' ht' p m hm hm'
  rw [FileTree.lookup_of_modified? (h t ht) hm, FileTree.lookup_of_modified? (h t' ht') hm']

theorem CacheEntry.modified?_of_fresh {files : FileTree} {e : CacheEntry} (h : e.isStale files = false) {k : Path}
    {t : Option Int} (hk : (k, t) ∈ e.sources) : files.modified? k = t := by
  have := List.any_eq_false.mp h (k, t) hk
  cases hm : files.modified? k with
  | none =>
    simp only [hm] at this
    exact absurd trivial this
  | some now =>
    simp only [hm] at this
    exact (bne_eq_false_iff_eq.mp (Bool.not_eq_true _ ▸ this)).symm

theorem PageCache.entry?_eq_some {c : PageCache} {page : Path} {e : CacheEntry} (h : c.entry? page = some e) :
    ∃ k, (k, e) ∈ c.entries ∧ k.same page = true := by
  obtain ⟨⟨k, _⟩, hf, rfl⟩ := Option.map_eq_some_iff.mp h
  exact ⟨k, List.mem_of_find?_eq_some hf, by simpa using List.find?_some hf⟩

theorem PageCache.getOrCompile_hit {c : PageCache} {files : FileTree} {page : Path} {e : CacheEntry}
    (h : c.current? files page = some e) (compile : Unit → Except SiteError CacheEntry) :
    c.getOrCompile files page compile = (.hit e.page, { c with hits := c.hits + 1 }) := by
  unfold getOrCompile
  rw [h]

theorem PageCache.getOrCompile_miss {c : PageCache} {files : FileTree} {page : Path}
    (h : c.current? files page = none) (compile : Unit → Except SiteError CacheEntry) :
    c.getOrCompile files page compile =
      match compile () with
      | .ok e => (.compiled e.page, { c with misses := c.misses + 1 }.store page e)
      | .error cause => (.failed cause, { c with misses := c.misses + 1 }) := by
  cases hc : compile () <;> simp only [getOrCompile, h, hc]

theorem Config.compileOptions_of_hashed {c : Config} (h : c.scopeStrategy = .hashed) (seed seed' : Nat) :
    c.compileOptions seed = c.compileOptions seed' := by
  unfold compileOptions
  rw [h]
  rfl

namespace Site

/-! ## Coherence -/

/-- A site whose cache holds only pages built from the files of one of these moments. -/
structure Coherent (options : CompileOptions) (layout : String) (all : List FileTree) (s : Site) : Prop where
  options_eq : ∀ seed, s.config.compileOptions seed = options
  layout_eq : s.layout = layout
  checks : s.config.cache = true → s.cache.invalidateOnChange = true
  entries : ∀ (k : Path) (e : CacheEntry), (k, e) ∈ s.cache.entries →
    k.IsKey ∧ ∃ t ∈ all, build t options layout k = .ok e

namespace Coherent

variable {options : CompileOptions} {layout : String} {all : List FileTree} {files : FileTree} {s : Site}

/-- A page whose sources still have their times is what building it now gives. -/
theorem fresh (h : Coherent options layout all s) (ht : TimesTell all) (hf : files ∈ all) {k : Path}
    {e : CacheEntry} (hk : (k, e) ∈ s.cache.entries) (hfresh : e.isStale files = false) :
    build files options layout k = .ok e := by
  obtain ⟨_, t, htm, hb⟩ := h.entries k e hk
  refine build_footprint hb fun source time hs => ?_
  obtain ⟨raw, modified, hread, rfl⟩ := read_of_mem_sources hb hs
  exact FileTree.read_of_lookup_eq
    (ht t htm files hf source modified (FileTree.modified?_of_read hread) (CacheEntry.modified?_of_fresh hfresh hs))

theorem nextEntry (h : Coherent options layout all s) (key : Path) :
    s.nextEntry files key = build files options layout key := by
  unfold Site.nextEntry
  rw [h.options_eq, h.layout_eq]

theorem afterRun (h : Coherent options layout all s) (succeeded : Bool) :
    Coherent options layout all (s.afterRun succeeded) :=
  ⟨h.options_eq, h.layout_eq, h.checks, h.entries⟩

/-- Another cache, of which every entry was in the old one or is built now. -/
theorem withCache (h : Coherent options layout all s) (hf : files ∈ all) {cache : PageCache}
    (hc : cache.invalidateOnChange = s.cache.invalidateOnChange)
    (he : ∀ (k : Path) (e : CacheEntry), (k, e) ∈ cache.entries →
      (k, e) ∈ s.cache.entries ∨ k.IsKey ∧ build files options layout k = .ok e) :
    Coherent options layout all { s with cache } := by
  refine ⟨h.options_eq, h.layout_eq, fun hon => hc.trans (h.checks hon), fun k e hk => ?_⟩
  rcases he k e hk with hold | ⟨hkey, hnew⟩
  · exact h.entries k e hold
  · exact ⟨hkey, files, hf, hnew⟩

theorem compilePage (h : Coherent options layout all s) (page : Path) :
    (s.compilePage files page).1 = (build files options layout page.normalize).map (·.page) ∧
      Coherent options layout all (s.compilePage files page).2 := by
  simp only [Site.compilePage, h.nextEntry]
  exact ⟨trivial, h.afterRun _⟩

/-- A look-up in the cache answers with the page as built now. -/
theorem getOrCompile (h : Coherent options layout all s) (ht : TimesTell all) (hf : files ∈ all)
    (hon : s.config.cache = true) {key : Path} (hkey : key.IsKey) :
    (s.cache.getOrCompile files key fun _ => s.nextEntry files key).1.result =
        (build files options layout key).map (·.page) ∧
      Coherent options layout all
        { s with cache := (s.cache.getOrCompile files key fun _ => s.nextEntry files key).2 } := by
  cases hc : s.cache.current? files key with
  | some e =>
    obtain ⟨hentry, hfresh⟩ := Option.filter_eq_some_iff.mp hc
    rw [h.checks hon, Bool.true_and, Bool.not_eq_true'] at hfresh
    obtain ⟨k, hk, hsame⟩ := PageCache.entry?_eq_some hentry
    obtain rfl : k = key := (Path.same_iff (h.entries k e hk).1 hkey).mp hsame
    rw [PageCache.getOrCompile_hit hc, h.fresh ht hf hk hfresh]
    exact ⟨rfl, h.withCache hf rfl fun _ _ hk => Or.inl hk⟩
  | none =>
    rw [PageCache.getOrCompile_miss hc, h.nextEntry]
    cases hb : build files options layout key with
    | error cause => exact ⟨rfl, h.withCache hf rfl fun _ _ hk => Or.inl hk⟩
    | ok e =>
      refine ⟨rfl, h.withCache hf rfl fun k e' hk => ?_⟩
      rcases List.mem_append.mp hk with hk | hk
      · exact Or.inl (List.mem_of_mem_filter hk)
      · cases List.mem_singleton.mp hk
        exact Or.inr ⟨hkey, hb⟩

theorem page (h : Coherent options layout all s) (ht : TimesTell all) (hf : files ∈ all) (page : Path) :
    (s.page files page).1 = (build files options layout page.normalize).map (·.page) ∧
      Coherent options layout all (s.page files page).2 := by
  unfold Site.page
  by_cases hon : s.config.cache = true
  · rw [if_pos hon]
    obtain ⟨hanswer, hs⟩ := h.getOrCompile ht hf hon (Path.isKey_normalize page)
    refine ⟨hanswer, ?_⟩
    simp only
    split
    · exact hs.afterRun _
    · exact hs
  · rw [if_neg hon]
    exact h.compilePage page

theorem renderPage (h : Coherent options layout all s) (ht : TimesTell all) (hf : files ∈ all) (page : Path)
    (data : Template.Value) :
    (s.renderPage files page data).1 =
        ((build files options layout page.normalize).map (·.page)).bind (·.render data) ∧
      Coherent options layout all (s.renderPage files page data).2 := by
  obtain ⟨hanswer, hs⟩ := h.page ht hf page
  refine ⟨?_, hs⟩
  show (s.page files page).1.bind _ = _
  rw [hanswer]

theorem invalidate (h : Coherent options layout all s) (page : Path) :
    Coherent options layout all (s.invalidate page) :=
  ⟨h.options_eq, h.layout_eq, h.checks, fun k e hk => h.entries k e (List.mem_of_mem_filter hk)⟩

theorem warm (h : Coherent options layout all s) (ht : TimesTell all) (hf : files ∈ all) :
    Coherent options layout all (s.warm files).2 := by
  unfold Site.warm
  generalize s.routes = routes
  generalize ({} : WarmReport) = report
  induction routes generalizing s report with
  | nil => exact h
  | cons route rest ih => exact ih (h.page ht hf route.source).2 _

theorem event (h : Coherent options layout all s) (ht : TimesTell all) (hf : files ∈ all) (e : Event) :
    Coherent options layout all (e.site s files) := by
  cases e with
  | renderPage page data => exact (h.renderPage ht hf page data).2
  | page page => exact (h.page ht hf page).2
  | compilePage page => exact (h.compilePage page).2
  | invalidate page => exact h.invalidate page
  | warm => exact h.warm ht hf
  | change => exact h

end Coherent

/-! ## Runs -/

theorem mem_moments_self (files : FileTree) (events : List Event) : files ∈ moments files events := by
  cases events <;> simp [moments]

theorem renderings_eq {options : CompileOptions} {layout : String} {all : List FileTree} (ht : TimesTell all)
    {s s' : Site} (h : Coherent options layout all s) (h' : Coherent options layout all s') {files : FileTree}
    {events : List Event} (hm : ∀ t ∈ moments files events, t ∈ all) :
    renderings s files events = renderings s' files events := by
  induction events generalizing s s' files with
  | nil => rfl
  | cons e rest ih =>
    have hf : files ∈ all := hm files (mem_moments_self files _)
    have hrest : ∀ t ∈ moments (e.files files) rest, t ∈ all := fun t hmem => hm t (List.mem_cons_of_mem _ hmem)
    have hnext := ih (h.event ht hf e) (h'.event ht hf e) hrest
    cases e with
    | renderPage page data =>
      have hanswer := (h.renderPage ht hf page data).1.trans (h'.renderPage ht hf page data).1.symm
      simp only [renderings, hanswer]
      exact congrArg _ hnext
    | page | compilePage | invalidate | warm | change =>
      simp only [renderings]
      exact hnext

theorem load_eq_ok {files : FileTree} {config : Config} {firstRun : Nat} {s : Site}
    (h : load files config firstRun = .ok s) :
    ∃ pieces, SiteStructure.locate files config = .ok pieces ∧ s.config = config ∧ s.layout = pieces.layout ∧
      s.cache = { invalidateOnChange := config.invalidateOnChange } := by
  unfold load at h
  cases hp : SiteStructure.locate files config with
  | error cause => rw [hp] at h; cases h
  | ok pieces =>
    rw [hp] at h
    cases h
    exact ⟨pieces, rfl, rfl, rfl, rfl⟩

theorem coherent_load {files : FileTree} {config : Config} {firstRun : Nat} {s : Site} {pieces : SiteStructure}
    (h : load files config firstRun = .ok s) (hp : SiteStructure.locate files config = .ok pieces)
    (hash : config.scopeStrategy = .hashed) (hc : config.cache = true → config.invalidateOnChange = true)
    (all : List FileTree) : Coherent (config.compileOptions 0) pieces.layout all s := by
  obtain ⟨_, hp', hconfig, hlayout, hcache⟩ := load_eq_ok h
  cases hp.symm.trans hp'
  refine ⟨fun seed => ?_, hlayout, fun hon => ?_, fun k e hk => ?_⟩
  · rw [hconfig]
    exact Config.compileOptions_of_hashed hash seed 0
  · rw [hcache]
    exact hc (hconfig ▸ hon)
  · rw [hcache] at hk
    cases hk

/-- A site that keeps pages and checks their times answers every rendering as a site
    that keeps none, text or error. -/
theorem cached_renders_as_uncached {files : FileTree} {config : Config} {firstRun firstRun' : Nat}
    {plain cached : Site} {events : List Event}
    (hplain : load files { config with cache := false, scopeStrategy := .hashed } firstRun = .ok plain)
    (hcached : load files { config with cache := true, invalidateOnChange := true, scopeStrategy := .hashed }
      firstRun' = .ok cached)
    (ht : TimesTell (moments files events)) :
    renderings cached files events = renderings plain files events := by
  obtain ⟨pieces, hp, -⟩ := load_eq_ok hplain
  have h := coherent_load hplain hp rfl nofun (moments files events)
  have h' := coherent_load hcached hp rfl (fun _ => rfl) (moments files events)
  exact renderings_eq ht h' h fun _ hmem => hmem

/-- A page is rendered, rewritten, taken away, and put back as it was at first. -/
theorem cached_renders_restored_page :
    let page : Path := ⟨"app/page.goo"⟩
    let files : FileTree := { entries := [(["index.html"], .file (some "") 1), (["app"], .folder none),
      (["app", "page.goo"], .file (some "a") 2)] }
    let events : List Event := [.warm, .renderPage page .null, .change (.write page (some "b") 3),
      .renderPage page .null, .change (.remove page), .renderPage page .null, .change (.write page (some "a") 2),
      .renderPage page .null]
    ∃ plain cached, load files { ({} : Config) with cache := false, scopeStrategy := .hashed } = .ok plain ∧
      load files { ({} : Config) with
        cache := true, invalidateOnChange := true, scopeStrategy := .hashed } = .ok cached ∧
      TimesTell (moments files events) ∧ renderings cached files events = renderings plain files events := by
  intro page files events
  have opened : ∀ r : Except SiteError Site, r.isOk = true → ∃ s, r = .ok s
    | .ok s, _ => ⟨s, rfl⟩
  obtain ⟨plain, hplain⟩ := opened (load files { cache := false, scopeStrategy := .hashed }) (by decide +kernel)
  obtain ⟨cached, hcached⟩ :=
    opened (load files { cache := true, invalidateOnChange := true, scopeStrategy := .hashed }) (by decide +kernel)
  have ht : TimesTell (moments files events) :=
    timesTell_of_isDated (fun m => if m = 1 then some "" else if m = 2 then some "a" else some "b") (by decide +kernel)
  exact ⟨plain, cached, hplain, hcached, ht,
    @cached_renders_as_uncached files {} 0 0 plain cached events hplain hcached ht⟩

end Site

end ComponentSite
