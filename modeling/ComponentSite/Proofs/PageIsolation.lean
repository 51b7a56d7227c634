/-
  ComponentSite.Proofs.PageIsolation — work on one page of a site is not seen on another.

  The answers of the operations on a page (`answersOn`) are compared with those of the run
  in which nothing is done with any other page (`Event.on?`): only the operations on the
  page and the changes of the files are left, and warming is a look-up of the page.

  Sites are alike for a page (`Alike`) if they have the same configuration, layout and
  routes and keep the same of this page. Alike sites answer an operation on the page alike
  and stay alike (`Alike.lookUp`); an operation on another page leaves a site alike
  (`alike_page`). A page that is looked up twice without a change in between has the same
  answer twice (`page_again`), so however often the page is among the routes, warming is one
  look-up of it (`Alike.lookUps`). One event after the other, the runs stay alike
  (`Alike.event`), and the answers are the same (`answers_isolated`).
-/
import ComponentSite.Proofs.CacheHistory

namespace ComponentSite.Site

/-! ## The answers on a page -/

inductive Answer
  | text (answer : Except SiteError String)
  | page (answer : Except SiteError CompiledPage)

def lookUps (files : FileTree) : Site → List Route → List (Route × Except SiteError CompiledPage)
  | _, [] => []
  | s, route :: rest => (route, (s.page files route.source).1) :: lookUps files (s.page files route.source).2 rest

def isRoute (page : Path) (route : Route) : Bool := decide (route.source.normalize = page.normalize)

/-- What an event was answered with if it was an operation on this page. Warming answers on
    a page if it is a route. -/
def Event.answer? (on : Path) (s : Site) (files : FileTree) : Event → Option Answer
  | renderPage path data =>
    if path.normalize = on.normalize then some (.text (s.renderPage files path data).1) else none
  | page path => if path.normalize = on.normalize then some (.page (s.page files path).1) else none
  | compilePage path => if path.normalize = on.normalize then some (.page (s.compilePage files path).1) else none
  | warm => ((lookUps files s s.routes).find? fun l => isRoute on l.1).map fun l => .page l.2
  | invalidate _ => none
  | change _ => none

def answersOn (page : Path) : Site → FileTree → List Event → List Answer
  | _, _, [] => []
  | s, files, e :: rest => (e.answer? page s files).toList ++ answersOn page (e.site s files) (e.files files) rest

/-- What is left of an event without the operations on other pages. -/
def Event.on? (on : Path) (routes : List Route) : Event → Option Event
  | renderPage path data => if path.normalize = on.normalize then some (.renderPage path data) else none
  | page path => if path.normalize = on.normalize then some (.page path) else none
  | compilePage path => if path.normalize = on.normalize then some (.compilePage path) else none
  | invalidate path => if path.normalize = on.normalize then some (.invalidate path) else none
  | warm => if routes.any (isRoute on) then some (.page on) else none
  | change what => some (.change what)

theorem warm_report (s : Site) (files : FileTree) :
    (s.warm files).1 = (lookUps files s s.routes).foldl (fun report l => report.add l.1.path l.2) {} := by
  unfold warm
  generalize s.routes = routes
  generalize ({} : WarmReport) = report
  induction routes generalizing s report with
  | nil => rfl
  | cons route rest ih => exact ih _ _

theorem warm_site (s : Site) (files : FileTree) :
    (s.warm files).2 = s.routes.foldl (fun s route => (s.page files route.source).2) s := by
  unfold warm
  generalize s.routes = routes
  generalize ({} : WarmReport) = report
  induction routes generalizing s report with
  | nil => rfl
  | cons route rest ih => exact ih _ _

/-! ## What a look-up does -/

variable {s t : Site} {files : FileTree} {page other : Path} {e : CacheEntry}

def kept? (s : Site) (files : FileTree) (key : Path) : Option CacheEntry :=
  if s.config.cache then s.cache.current? files key else none

theorem page_congr {path : Path} (h : path.normalize = page.normalize) (s : Site) (files : FileTree) :
    s.page files path = s.page files page := by
  unfold Site.page Site.compilePage
  rw [h]

theorem page_of_kept (h : s.kept? files page.normalize = some e) :
    s.page files page = (.ok e.page, { s with cache := { s.cache with hits := s.cache.hits + 1 } }) := by
  unfold kept? at h
  split at h
  · rename_i hon
    simp only [Site.page, if_pos hon, PageCache.getOrCompile_hit h]
    rfl
  · cases h

theorem page_of_not_kept {built : Except SiteError CacheEntry} (h : s.kept? files page.normalize = none)
    (hb : s.nextEntry files page.normalize = built) :
    ∃ cache, s.page files page = (built.map (·.page), { s.afterRun built.isOk with cache }) ∧
      cache.invalidateOnChange = s.cache.invalidateOnChange ∧
      ∀ other, cache.entry? other =
        (if s.config.cache && page.normalize.same other then built.toOption else none).or (s.cache.entry? other) := by
  unfold kept? at h
  split at h
  · rename_i hon
    simp only [Site.page, PageCache.getOrCompile_miss h, hon, Bool.true_and, hb]
    cases built with
    | error cause =>
      exact ⟨{ s.cache with misses := s.cache.misses + 1 }, rfl, rfl,
        fun _ => by simp [PageCache.entry?, Except.toOption]⟩
    | ok e =>
      refine ⟨{ s.cache with misses := s.cache.misses + 1 }.store page.normalize e, rfl, rfl, fun other => ?_⟩
      rw [PageCache.entry?_store]
      by_cases hsame : page.normalize.same other = true <;> simp [hsame, PageCache.entry?, Except.toOption]
  · rename_i hoff
    simp only [Site.page, Site.compilePage, Bool.not_eq_true _ ▸ hoff, hb]
    exact ⟨s.cache, rfl, rfl, fun _ => rfl⟩

/-! ## Sites that are alike for a page -/

/-- The same site as far as a page goes. How often the compiler ran is left out. -/
structure Alike (key : Path) (s t : Site) : Prop where
  config : s.config = t.config
  layout : s.layout = t.layout
  routes : s.routes = t.routes
  checks : s.cache.invalidateOnChange = t.cache.invalidateOnChange
  entry : s.cache.entry? key = t.cache.entry? key

namespace Alike

variable {key : Path}

theorem refl (key : Path) (s : Site) : Alike key s s := ⟨rfl, rfl, rfl, rfl, rfl⟩

theorem symm (h : Alike key s t) : Alike key t s :=
  ⟨h.config.symm, h.layout.symm, h.routes.symm, h.checks.symm, h.entry.symm⟩

theorem trans {u : Site} (h : Alike key s t) (h' : Alike key t u) : Alike key s u :=
  ⟨h.config.trans h'.config, h.layout.trans h'.layout, h.routes.trans h'.routes, h.checks.trans h'.checks,
    h.entry.trans h'.entry⟩

theorem kept? (h : Alike key s t) (files : FileTree) : s.kept? files key = t.kept? files key := by
  unfold Site.kept? PageCache.current?
  rw [h.config, h.checks, h.entry]

/-- With hashed scope classes it does not matter how often the compiler ran before. -/
theorem nextEntry (h : Alike key s t) (hash : t.config.scopeStrategy = .hashed) (files : FileTree) (page : Path) :
    s.nextEntry files page = t.nextEntry files page := by
  unfold Site.nextEntry
  rw [h.config, h.layout, Config.compileOptions_of_hashed hash s.runs t.runs]

end Alike

theorem alike_page {key : Path} (hkey : key.IsKey) (hpage : page.normalize ≠ key) :
    Alike key (s.page files page).2 s := by
  cases hk : s.kept? files page.normalize with
  | some e =>
    rw [page_of_kept hk]
    exact ⟨rfl, rfl, rfl, rfl, rfl⟩
  | none =>
    generalize hb : s.nextEntry files page.normalize = built
    obtain ⟨cache, hstep, hchecks, hentry⟩ := page_of_not_kept hk hb
    have hother : page.normalize.same key = false :=
      Bool.eq_false_iff.mpr fun hsame => hpage ((Path.same_iff (Path.isKey_normalize page) hkey).mp hsame)
    rw [hstep]
    exact ⟨rfl, rfl, rfl, hchecks, (hentry key).trans (by simp [hother])⟩

theorem alike_compilePage (key : Path) (s : Site) (files : FileTree) (page : Path) :
    Alike key (s.compilePage files page).2 s := by
  simp only [Site.compilePage]
  generalize s.nextEntry files page.normalize = built
  exact ⟨rfl, rfl, rfl, rfl, rfl⟩

theorem isStale_of_build {options : CompileOptions} {layout : String} {key : Path}
    (h : build files options layout key = .ok e) : e.isStale files = false := by
  refine CacheEntry.isStale_eq_false.mpr fun source recorded hmem => ?_
  obtain ⟨raw, modified, hread, rfl⟩ := read_of_mem_sources h hmem
  exact ⟨modified, FileTree.modified?_of_read hread, rfl⟩

namespace Alike

theorem lookUp (h : Alike page.normalize s t) (files : FileTree) (hash : t.config.scopeStrategy = .hashed) :
    (s.page files page).1 = (t.page files page).1 ∧
      Alike page.normalize (s.page files page).2 (t.page files page).2 := by
  have hsame := h.kept? files
  cases hk : t.kept? files page.normalize with
  | some e =>
    rw [page_of_kept hk, page_of_kept (hsame.trans hk)]
    exact ⟨rfl, h.config, h.layout, h.routes, h.checks, h.entry⟩
  | none =>
    generalize hb : t.nextEntry files page.normalize = built
    obtain ⟨cache, hstep, hchecks, hentry⟩ := page_of_not_kept hk hb
    obtain ⟨cache', hstep', hchecks', hentry'⟩ := page_of_not_kept (hsame.trans hk) ((h.nextEntry hash ..).trans hb)
    rw [hstep, hstep']
    refine ⟨rfl, h.config, h.layout, h.routes, hchecks'.trans (h.checks.trans hchecks.symm), ?_⟩
    show cache'.entry? page.normalize = cache.entry? page.normalize
    rw [hentry, hentry', h.config, h.entry]

theorem compilePage (h : Alike page.normalize s t) (files : FileTree) (hash : t.config.scopeStrategy = .hashed) :
    (s.compilePage files page).1 = (t.compilePage files page).1 ∧
      Alike page.normalize (s.compilePage files page).2 (t.compilePage files page).2 := by
  refine ⟨?_, (alike_compilePage _ s files page).trans (h.trans (alike_compilePage _ t files page).symm)⟩
  simp only [Site.compilePage, h.nextEntry hash]

theorem invalidate (h : Alike page.normalize s t) :
    Alike page.normalize (s.invalidate page) (t.invalidate page) := by
  refine ⟨h.config, h.layout, h.routes, h.checks, ?_⟩
  show PageCache.entry? (s.cache.invalidate page.normalize) _ = PageCache.entry? (t.cache.invalidate page.normalize) _
  rw [PageCache.entry?_invalidate, PageCache.entry?_invalidate, h.entry]

end Alike

theorem setup_page (s : Site) (files : FileTree) (page : Path) :
    (s.page files page).2.config = s.config ∧ (s.page files page).2.routes = s.routes := by
  cases hk : s.kept? files page.normalize with
  | some e =>
    rw [page_of_kept hk]
    exact ⟨rfl, rfl⟩
  | none =>
    generalize hb : s.nextEntry files page.normalize = built
    obtain ⟨cache, hstep, -⟩ := page_of_not_kept hk hb
    rw [hstep]
    exact ⟨rfl, rfl⟩

/-- A second look-up of a page, with the files as they were, is answered like the first. -/
theorem page_again (files : FileTree) (page : Path) (hash : s.config.scopeStrategy = .hashed) :
    ((s.page files page).2.page files page).1 = (s.page files page).1 ∧
      Alike page.normalize ((s.page files page).2.page files page).2 (s.page files page).2 := by
  cases hk : s.kept? files page.normalize with
  | some e =>
    have halike : Alike page.normalize (s.page files page).2 s := by
      rw [page_of_kept hk]
      exact ⟨rfl, rfl, rfl, rfl, rfl⟩
    exact halike.lookUp files hash
  | none =>
    generalize hb : s.nextEntry files page.normalize = built
    obtain ⟨cache, hstep, hchecks, hentry⟩ := page_of_not_kept hk hb
    -- Nothing new is kept, unless a page was built and the site has a cache.
    by_cases hkept : PageCache.entry? (s.page files page).2.cache page.normalize = s.cache.entry? page.normalize
    · have halike : Alike page.normalize (s.page files page).2 s := by
        rw [hstep] at hkept ⊢
        exact ⟨rfl, rfl, rfl, hchecks, hkept⟩
      exact halike.lookUp files hash
    · rw [hstep] at hkept ⊢
      cases built with
      | error cause => exact absurd ((hentry _).trans (by simp [Except.toOption])) hkept
      | ok e =>
        have hon : s.config.cache = true := by
          by_contra hoff
          exact hkept ((hentry _).trans (by simp [hoff]))
        have hnow : kept? { s.afterRun true with cache } files page.normalize = some e := by
          unfold kept? PageCache.current?
          rw [hentry]
          simp [hon, Site.afterRun, Path.same_refl, isStale_of_build hb, Except.toOption]
        rw [show (Except.ok (ε := SiteError) e).isOk = true from rfl, page_of_kept hnow]
        exact ⟨rfl, rfl, rfl, rfl, rfl, rfl⟩

/-! ## Warming -/

/-- A site where the page was looked up already: the look-ups of these routes answer on the
    page as the look-up did. -/
theorem lookUps_looked (hash : t.config.scopeStrategy = .hashed) (routes : List Route)
    (h : Alike page.normalize s (t.page files page).2) :
    (∀ l ∈ lookUps files s routes, isRoute page l.1 = true → l.2 = (t.page files page).1) ∧
      Alike page.normalize (routes.foldl (fun s route => (s.page files route.source).2) s) (t.page files page).2 := by
  induction routes generalizing s with
  | nil => exact ⟨nofun, h⟩
  | cons route rest ih =>
    by_cases hr : route.source.normalize = page.normalize
    · obtain ⟨hagain, hkeep⟩ := page_again files page hash
      obtain ⟨hanswer, hs⟩ := h.lookUp files ((congrArg _ (setup_page t files page).1).trans hash)
      rw [← page_congr hr] at hanswer hs
      obtain ⟨hrest, hafter⟩ := ih (hs.trans hkeep)
      refine ⟨fun l hl hroute => ?_, hafter⟩
      rcases List.mem_cons.mp hl with rfl | hl
      · exact hanswer.trans hagain
      · exact hrest l hl hroute
    · obtain ⟨hrest, hafter⟩ := ih ((alike_page (Path.isKey_normalize page) hr).trans h)
      refine ⟨fun l hl hroute => ?_, hafter⟩
      rcases List.mem_cons.mp hl with rfl | hl
      · exact absurd (of_decide_eq_true hroute) hr
      · exact hrest l hl hroute

/-- The look-ups of these routes answer on the page as one look-up of it does, and leave the
    site as that would; if the page is not among them, they leave it alone. -/
theorem Alike.lookUps (h : Alike page.normalize s t) (files : FileTree) (hash : t.config.scopeStrategy = .hashed)
    (routes : List Route) :
    (∀ l ∈ lookUps files s routes, isRoute page l.1 = true → l.2 = (t.page files page).1) ∧
      Alike page.normalize (routes.foldl (fun s route => (s.page files route.source).2) s)
        (if routes.any (isRoute page) then (t.page files page).2 else t) := by
  induction routes generalizing s with
  | nil => exact ⟨nofun, h⟩
  | cons route rest ih =>
    by_cases hr : route.source.normalize = page.normalize
    · obtain ⟨hanswer, hs⟩ := h.lookUp files hash
      rw [← page_congr hr] at hanswer hs
      obtain ⟨hrest, hafter⟩ := lookUps_looked hash rest hs
      refine ⟨fun l hl hroute => ?_, by simpa [isRoute, hr] using hafter⟩
      rcases List.mem_cons.mp hl with rfl | hl
      · exact hanswer
      · exact hrest l hl hroute
    · obtain ⟨hrest, hafter⟩ := ih ((alike_page (Path.isKey_normalize page) hr).trans h)
      refine ⟨fun l hl hroute => ?_, by simpa [isRoute, hr] using hafter⟩
      rcases List.mem_cons.mp hl with rfl | hl
      · exact absurd (of_decide_eq_true hroute) hr
      · exact hrest l hl hroute

theorem map_lookUps (s : Site) (files : FileTree) (routes : List Route) :
    (Site.lookUps files s routes).map (·.1) = routes := by
  induction routes generalizing s with
  | nil => rfl
  | cons route rest ih => exact congrArg _ (ih _)

/-- A page that is a route has an answer among the look-ups of the routes. -/
theorem find?_lookUps {routes : List Route} {answer : Except SiteError CompiledPage}
    (h : ∀ l ∈ lookUps files s routes, isRoute page l.1 = true → l.2 = answer) :
    ((lookUps files s routes).find? fun l => isRoute page l.1).map (·.2) =
      if routes.any (isRoute page) then some answer else none := by
  have hany : routes.any (isRoute page) = (lookUps files s routes).any fun l => isRoute page l.1 := by
    conv_lhs => rw [← map_lookUps s files routes, List.any_map]
    rfl
  rw [hany, ← List.isSome_find?]
  cases hf : (lookUps files s routes).find? fun l => isRoute page l.1 with
  | none => rfl
  | some l => exact congrArg some (h l (List.mem_of_find?_eq_some hf) (by simpa using List.find?_some hf))

/-! ## Runs -/

/-- Events leave the configuration and the routes of a site alone. -/
theorem setup_event (s : Site) (files : FileTree) (e : Event) :
    (e.site s files).config = s.config ∧ (e.site s files).routes = s.routes := by
  cases e with
  | renderPage path | page path => exact setup_page s files path
  | compilePage path =>
    have h := alike_compilePage path s files path
    exact ⟨h.config, h.routes⟩
  | invalidate | change => exact ⟨rfl, rfl⟩
  | warm =>
    have hfold : ∀ (routes : List Route) (s : Site),
        (routes.foldl (fun s route => (s.page files route.source).2) s).config = s.config ∧
          (routes.foldl (fun s route => (s.page files route.source).2) s).routes = s.routes := by
      intro routes
      induction routes with
      | nil => exact fun s => ⟨rfl, rfl⟩
      | cons route rest ih =>
        intro s
        obtain ⟨hconfig, hroutes⟩ := setup_page s files route.source
        exact ⟨(ih _).1.trans hconfig, (ih _).2.trans hroutes⟩
    simp only [Event.site, warm_site]
    exact hfold s.routes s

/-- An event, and what is left of it without the operations on other pages, are answered
    alike on the page and leave the sites alike. -/
theorem Alike.event (h : Alike page.normalize s t) (files : FileTree)
    (hash : t.config.scopeStrategy = .hashed) (e : Event) :
    match e.on? page t.routes with
    | some e' => e.answer? page s files = e'.answer? page t files ∧
        Alike page.normalize (e.site s files) (e'.site t files) ∧ e.files files = e'.files files
    | none => e.answer? page s files = none ∧ Alike page.normalize (e.site s files) t ∧ e.files files = files := by
  have hkey := Path.isKey_normalize page
  cases e with
  | renderPage path data =>
    by_cases hp : path.normalize = page.normalize
    · obtain ⟨hanswer, hs⟩ := h.lookUp files hash
      simp only [Event.on?, Event.answer?, Event.site, Event.files, if_pos hp, Site.renderPage, page_congr hp, hanswer]
      exact ⟨trivial, hs, trivial⟩
    · simp only [Event.on?, Event.answer?, Event.site, Event.files, if_neg hp]
      exact ⟨trivial, (alike_page hkey hp).trans h, trivial⟩
  | page path =>
    by_cases hp : path.normalize = page.normalize
    · obtain ⟨hanswer, hs⟩ := h.lookUp files hash
      simp only [Event.on?, Event.answer?, Event.site, Event.files, if_pos hp, page_congr hp, hanswer]
      exact ⟨trivial, hs, trivial⟩
    · simp only [Event.on?, Event.answer?, Event.site, Event.files, if_neg hp]
      exact ⟨trivial, (alike_page hkey hp).trans h, trivial⟩
  | compilePage path =>
    by_cases hp : path.normalize = page.normalize
    · rw [← hp] at h
      obtain ⟨hanswer, hs⟩ := h.compilePage files hash
      simp only [Event.on?, Event.answer?, Event.site, Event.files, if_pos hp, hanswer]
      exact ⟨trivial, hp ▸ hs, trivial⟩
    · simp only [Event.on?, Event.answer?, Event.site, Event.files, if_neg hp]
      exact ⟨trivial, (alike_compilePage ..).trans h, trivial⟩
  | invalidate path =>
    by_cases hp : path.normalize = page.normalize
    · rw [← hp] at h
      simp only [Event.on?, Event.answer?, Event.site, Event.files, if_pos hp]
      exact ⟨trivial, hp ▸ h.invalidate, trivial⟩
    · simp only [Event.on?, Event.answer?, Event.site, Event.files, if_neg hp]
      have hother : path.normalize.same page.normalize = false :=
        Bool.eq_false_iff.mpr fun hsame => hp ((Path.same_iff (Path.isKey_normalize path) hkey).mp hsame)
      refine ⟨trivial, ⟨h.config, h.layout, h.routes, h.checks, ?_⟩, trivial⟩
      exact (PageCache.entry?_invalidate ..).trans (by simpa [hother] using h.entry)
  | warm =>
    -- warming looks every route up; of these only the page itself answers on the page
    obtain ⟨hall, hs⟩ := h.lookUps files hash t.routes
    have hfind := find?_lookUps hall
    have hanswer : Event.warm.answer? page s files =
        (((Site.lookUps files s t.routes).find? fun l => isRoute page l.1).map (·.2)).map .page := by
      rw [Option.map_map, ← h.routes]
      rfl
    rw [hanswer, hfind]
    by_cases hany : t.routes.any (isRoute page) = true
    · simp only [Event.on?, Event.answer?, Event.site, Event.files, warm_site, h.routes, if_pos hany] at hs ⊢
      exact ⟨rfl, hs, trivial⟩
    · simp only [Event.on?, Event.site, Event.files, warm_site, h.routes, if_neg hany] at hs ⊢
      exact ⟨rfl, hs, trivial⟩
  | change what => exact ⟨rfl, h, rfl⟩

/-- The answers on a page are those of the run in which nothing is done with other pages. -/
theorem answers_isolated (hash : s.config.scopeStrategy = .hashed) (files : FileTree)
    (page : Path) (events : List Event) :
    answersOn page s files events = answersOn page s files (events.filterMap (Event.on? page s.routes)) := by
  suffices h : ∀ t, Alike page.normalize t s → answersOn page t files events =
      answersOn page s files (events.filterMap (Event.on? page s.routes)) from h s (Alike.refl _ s)
  induction events generalizing s files with
  | nil => exact fun _ _ => rfl
  | cons e rest ih =>
    intro t h
    have hstep := h.event files hash e
    rw [List.filterMap_cons]
    cases hon : e.on? page s.routes with
    | none =>
      simp only [hon] at hstep
      obtain ⟨hanswer, halike, hfiles⟩ := hstep
      simp only [answersOn, hanswer, hfiles]
      exact ih hash files _ halike
    | some left =>
      simp only [hon] at hstep
      obtain ⟨hanswer, halike, hfiles⟩ := hstep
      obtain ⟨hconfig, hroutes⟩ := setup_event s files left
      have hrest := ih (s := left.site s files) ((congrArg _ hconfig).trans hash) (left.files files) _ halike
      rw [hroutes] at hrest
      simp only [answersOn, hanswer, hfiles, hrest]

/-- A page next to another one, which is looked up, forgotten and taken away. -/
theorem answers_beside_other_page :
    let files : FileTree := { entries := [(["app"], .folder none), (["app", "page.goo"], .file (some "a") 1),
      (["app", "about"], .folder none), (["app", "about", "page.goo"], .file (some "b") 2)] }
    let page : Path := ⟨"app/./page.goo"⟩
    let other : Path := ⟨"app/about/page.goo"⟩
    let s : Site := { config := { scopeStrategy := .hashed, cache := true }, layout := "<body></body>"
                      routes := [⟨"/", ⟨"app/page.goo"⟩⟩, ⟨"/about", other⟩], cache := {} }
    s.config.scopeStrategy = .hashed ∧
      answersOn page s files [.renderPage other .null, .warm, .invalidate other, .change (.remove other),
          .renderPage page .null, .compilePage other, .invalidate page, .page page] =
        answersOn page s files [.page page, .change (.remove other), .renderPage page .null, .invalidate page,
          .page page] := by
  intro files page other s
  have hother : other.normalize ≠ page.normalize := by decide +kernel
  have hroute : s.routes.any (isRoute page) = true := by decide +kernel
  refine ⟨rfl, (answers_isolated rfl files page _).trans ?_⟩
  simp only [List.filterMap_cons, List.filterMap_nil, Event.on?, if_neg hother, hroute, if_true]

end ComponentSite.Site
