/-
  ComponentSite.Proofs.Warming — warming reports the pages that fail and keeps the others.

  The pages of a site are compiled side by side, so the order of the look-ups is open
  (`warmIn`). No two routes have one page (`source_normalize_ne`): the look-up of one leaves
  what the site has of another alone, and each is answered as if it were made on its own,
  with the seed that its run draws (`lookUps_apart`). The report is made in the order of the
  routes, so it does not tell in which order the pages were compiled.

  In a site that keeps pages and does not check their times, a page that was looked up with
  success is kept (`keeps_of_page`), and every event but the one that forgets this page
  leaves it there (`Keeps.event`). As long as it is kept, every look-up is a hit on it
  (`Keeps.page`), whatever the files have become.
-/
import ComponentSite.Proofs.EntryRoute
import ComponentSite.Proofs.PageIsolation

namespace ComponentSite

/-- No two routes have one page, however the app folder is spelled. -/
theorem Route.source_normalize_ne {files : FileTree} {appDir : Path} (hw : files.WellFormed)
    (happ : files.isFolder appDir = true) (entryFile : String) :
    (Route.discover files appDir entryFile).Pairwise (·.source.normalize ≠ ·.source.normalize) := by
  refine (Route.discover_sorted hw happ entryFile).imp_of_mem fun {r r'} hr hr' hlt hsame => ?_
  obtain ⟨dirs, hdirs, hentry, rfl⟩ := Route.exists_dirs_of_mem hw happ hr
  obtain ⟨dirs', hdirs', -, rfl⟩ := Route.exists_dirs_of_mem hw happ hr'
  have hsteps : ∀ {ds : List String}, (∀ n ∈ ds, FileTree.IsName n) →
      ∀ n ∈ ds ++ [entryFile], (Segment.name n).IsStep := by
    intro ds hds n hn
    rcases List.mem_append.mp hn with hn | hn
    · exact (hds n hn).1
    · exact List.mem_singleton.mp hn ▸ hentry.1
  rw [← Path.below_concat, ← Path.below_concat] at hsame
  have hnames := Path.below_inj_of_normalize (hsteps hdirs) (hsteps hdirs') hsame
  rw [List.append_cancel_right hnames] at hlt
  exact String.lt_irrefl _ hlt

namespace Site

variable {s t : Site} {files : FileTree} {path key : Path} {found : CompiledPage} {order : List Route}

/-! ## Warming in any order -/

def after (s : Site) (moments : List (FileTree × Event)) : Site := moments.foldl (fun s m => m.2.site s m.1) s

/-- Warming where the pages are compiled in this order. The report is in the order of the
    routes. -/
def warmIn (order : List Route) (s : Site) (files : FileTree) : WarmReport × Site :=
  let found := lookUps files s order
  (s.routes.foldl (fun report r =>
      match found.find? fun l => isRoute r.source l.1 with
      | some l => report.add r.path l.2
      | none => report) {},
    order.foldl (fun s r => (s.page files r.source).2) s)

/-- The seed of the run for a route where the pages are compiled in this order. A page that
    is kept takes no run. -/
def seedIn (order : List Route) (s : Site) (files : FileTree) (r : Route) : Nat :=
  s.runs + ((order.takeWhile (!isRoute r.source ·)).countP fun q => (s.kept? files q.source.normalize).isNone)

def answerWith (seed : Nat) (s : Site) (files : FileTree) (r : Route) : Except SiteError CompiledPage :=
  ({ s with runs := seed }.page files r.source).1

def failure? (r : Route) : Except SiteError CompiledPage → Option (String × SiteError)
  | .ok _ => none
  | .error cause => some (r.path, cause)

/-- The event makes the site forget this page. -/
def Event.Forgets (page : Path) : Event → Prop
  | invalidate path => path.normalize = page.normalize
  | _ => False

/-! ## Answers one by one -/

theorem page_answer (s : Site) (files : FileTree) (path : Path) :
    (s.page files path).1 = match s.kept? files path.normalize with
      | some e => .ok e.page
      | none => (s.nextEntry files path.normalize).map (·.page) := by
  cases hk : s.kept? files path.normalize with
  | some e => rw [page_of_kept hk]
  | none =>
    obtain ⟨cache, hstep, -⟩ := page_of_not_kept hk rfl
    rw [hstep]

theorem runs_page (s : Site) (files : FileTree) (path : Path) :
    (s.page files path).2.runs = s.runs + if (s.kept? files path.normalize).isNone then 1 else 0 := by
  cases hk : s.kept? files path.normalize with
  | some e =>
    rw [page_of_kept hk]
    rfl
  | none =>
    obtain ⟨cache, hstep, -⟩ := page_of_not_kept hk rfl
    rw [hstep]
    rfl

/-- Sites that are alike for a page answer alike if their runs have the same seed. -/
theorem Alike.answerWith {r : Route} (h : Alike r.source.normalize s t) (seed : Nat) (files : FileTree) :
    s.answerWith seed files r = t.answerWith seed files r := by
  have hkept := Alike.kept? (s := { s with runs := seed }) (t := { t with runs := seed })
    ⟨h.config, h.layout, h.routes, h.checks, h.entry⟩ files
  unfold Site.answerWith
  rw [page_answer, page_answer, hkept]
  simp only [Site.nextEntry, h.config, h.layout]

/-- With hashed scope classes the seed of a run does not matter. -/
theorem answerWith_of_hashed (hash : s.config.scopeStrategy = .hashed) (seed : Nat) (files : FileTree) (r : Route) :
    s.answerWith seed files r = (s.page files r.source).1 := by
  have halike : Alike r.source.normalize { s with runs := seed } s := ⟨rfl, rfl, rfl, rfl, rfl⟩
  exact (halike.lookUp files hash).1

theorem isRoute_self (r : Route) : isRoute r.source r = true := decide_eq_true rfl

theorem isRoute_of_ne {r q : Route} (h : q.source.normalize ≠ r.source.normalize) : isRoute r.source q = false :=
  decide_eq_false h

/-- One more page in front takes a run from the same site, if it is not kept. -/
theorem seedIn_cons {q r : Route} {rest : List Route} (hq : q.source.normalize ≠ r.source.normalize)
    (hrest : ∀ p ∈ rest, q.source.normalize ≠ p.source.normalize) :
    seedIn rest (s.page files q.source).2 files r = seedIn (q :: rest) s files r := by
  have hcount : ((rest.takeWhile (!isRoute r.source ·)).countP fun p =>
        ((s.page files q.source).2.kept? files p.source.normalize).isNone) =
      (rest.takeWhile (!isRoute r.source ·)).countP fun p => (s.kept? files p.source.normalize).isNone := by
    refine List.countP_congr fun p hp => ?_
    have hother := hrest p ((List.takeWhile_sublist _).subset hp)
    rw [(alike_page (Path.isKey_normalize _) hother).kept?]
  unfold seedIn
  rw [runs_page, hcount, List.takeWhile_cons_of_pos (by simp [isRoute_of_ne hq]), List.countP_cons]
  omega

theorem lookUps_apart (h : order.Pairwise (·.source.normalize ≠ ·.source.normalize)) (s : Site) (files : FileTree) :
    lookUps files s order = order.map fun r => (r, s.answerWith (seedIn order s files r) files r) := by
  induction order generalizing s with
  | nil => rfl
  | cons q rest ih =>
    obtain ⟨hq, hrest⟩ := List.pairwise_cons.mp h
    have hfirst : s.answerWith (seedIn (q :: rest) s files q) files q = (s.page files q.source).1 := by
      have hseed : seedIn (q :: rest) s files q = s.runs := by simp [seedIn, isRoute_self]
      rw [hseed]
      rfl
    rw [lookUps, ih hrest, List.map_cons, hfirst]
    refine congrArg _ (List.map_congr_left fun r hr => ?_)
    rw [seedIn_cons (hq r hr) hq, (alike_page (Path.isKey_normalize _) (hq r hr)).answerWith]

/-! ## The report -/

theorem foldl_add (routes : List Route) (answer : Route → Except SiteError CompiledPage) (report : WarmReport) :
    let whole := routes.foldl (fun report r => report.add r.path (answer r)) report
    whole.compiled + whole.failures.length = report.compiled + report.failures.length + routes.length ∧
      whole.failures = report.failures ++ routes.filterMap fun r => failure? r (answer r) := by
  induction routes generalizing report with
  | nil => simp
  | cons r rest ih =>
    obtain ⟨hcount, hfailures⟩ := ih (report.add r.path (answer r))
    rw [List.foldl_cons]
    cases ha : answer r with
    | ok page =>
      rw [ha] at hcount hfailures
      refine ⟨?_, by simpa [failure?, ha, WarmReport.add] using hfailures⟩
      rw [hcount]
      simp only [WarmReport.add, List.length_cons]
      omega
    | error cause =>
      rw [ha] at hcount hfailures
      refine ⟨?_, by simpa [failure?, ha, WarmReport.add] using hfailures⟩
      rw [hcount]
      simp only [WarmReport.add, List.length_append, List.length_cons, List.length_nil]
      omega

theorem find?_isRoute {r : Route} (h : order.Pairwise (·.source.normalize ≠ ·.source.normalize)) (hr : r ∈ order) :
    order.find? (isRoute r.source) = some r := by
  induction order with
  | nil => cases hr
  | cons q rest ih =>
    obtain ⟨hq, hrest⟩ := List.pairwise_cons.mp h
    rcases List.mem_cons.mp hr with rfl | hr
    · rw [List.find?_cons_of_pos (isRoute_self r)]
    · rw [List.find?_cons_of_neg (by simp [isRoute_of_ne (hq r hr)]), ih hrest hr]

theorem report_warmIn (h : order.Pairwise (·.source.normalize ≠ ·.source.normalize)) (horder : order.Perm s.routes)
    (files : FileTree) :
    (warmIn order s files).1 = s.routes.foldl (fun report r =>
      report.add r.path (s.answerWith (seedIn order s files r) files r)) {} := by
  have hmem : ∀ r ∈ s.routes, r ∈ order := fun r hr => horder.mem_iff.mpr hr
  simp only [warmIn, lookUps_apart h]
  refine List.foldl_ext _ _ _ fun report r hr => ?_
  rw [List.find?_map, show (fun l : Route × Except SiteError CompiledPage => isRoute r.source l.1) ∘
    (fun r => (r, s.answerWith (seedIn order s files r) files r)) = isRoute r.source from rfl,
    find?_isRoute h (hmem r hr)]
  rfl

/-- Compiling in the order of the routes is one of the orders. -/
theorem warmIn_routes (h : s.routes.Pairwise (·.source.normalize ≠ ·.source.normalize)) (files : FileTree) :
    warmIn s.routes s files = s.warm files := by
  refine Prod.ext ?_ (warm_site s files).symm
  rw [report_warmIn h (List.Perm.refl _), warm_report, lookUps_apart h, List.foldl_map]

/-! ## Pages that are kept -/

/-- A site that answers look-ups of a page with what it keeps, whatever the files are. -/
structure Keeps (key : Path) (found : CompiledPage) (s : Site) : Prop where
  keepsPages : s.config.cache = true
  unchecked : s.cache.invalidateOnChange = false
  entry : (s.cache.entry? key).map (·.page) = some found

/-- What every event preserves: look-ups, compiles and forgetting are all there is. -/
theorem event_preserves {P : Site → Prop} {e : Event} (h : P s)
    (lookUp : ∀ (s : Site) (path : Path), P s → P (s.page files path).2)
    (compile : ∀ (s : Site) (path : Path), P s → P (s.compilePage files path).2)
    (forget : ∀ path, e = .invalidate path → P (s.invalidate path)) : P (e.site s files) := by
  cases e with
  | renderPage path | page path => exact lookUp s path h
  | compilePage path => exact compile s path h
  | invalidate path => exact forget path rfl
  | change => exact h
  | warm =>
    simp only [Event.site, warm_site]
    generalize s.routes = routes
    clear forget
    induction routes generalizing s with
    | nil => exact h
    | cons r rest ih => exact ih (lookUp s r.source h)

structure SameSetting (s t : Site) : Prop where
  config : t.config = s.config
  routes : t.routes = s.routes
  checks : t.cache.invalidateOnChange = s.cache.invalidateOnChange

theorem SameSetting.page (h : SameSetting s t) (files : FileTree) (path : Path) :
    SameSetting s (t.page files path).2 := by
  cases hk : t.kept? files path.normalize with
  | some e =>
    rw [page_of_kept hk]
    exact ⟨h.config, h.routes, h.checks⟩
  | none =>
    generalize hb : t.nextEntry files path.normalize = built
    obtain ⟨cache, hstep, hchecks, -⟩ := page_of_not_kept hk hb
    rw [hstep]
    exact ⟨h.config, h.routes, hchecks.trans h.checks⟩

theorem SameSetting.event (h : SameSetting s t) (files : FileTree) (e : Event) : SameSetting s (e.site t files) := by
  apply event_preserves h
  · exact fun u path hu => hu.page files path
  · intro u path hu
    obtain ⟨hconfig, -, hroutes, hchecks, -⟩ := alike_compilePage path u files path
    exact ⟨hconfig.trans hu.config, hroutes.trans hu.routes, hchecks.trans hu.checks⟩
  · exact fun path _ => ⟨h.config, h.routes, h.checks⟩

theorem sameSetting_after (s : Site) (moments : List (FileTree × Event)) : SameSetting s (s.after moments) := by
  suffices h : ∀ t, SameSetting s t → SameSetting s (t.after moments) from h s ⟨rfl, rfl, rfl⟩
  induction moments with
  | nil => exact fun t h => h
  | cons m rest ih => exact fun t h => ih _ (h.event m.1 m.2)

namespace Keeps

theorem of_alike (h : Keeps key found s) (halike : Alike key t s) : Keeps key found t := by
  refine ⟨?_, ?_, ?_⟩
  · rw [halike.config]
    exact h.keepsPages
  · rw [halike.checks]
    exact h.unchecked
  · rw [halike.entry]
    exact h.entry

theorem page (h : Keeps path.normalize found s) (files : FileTree) :
    s.page files path = (.ok found, { s with cache := { s.cache with hits := s.cache.hits + 1 } }) := by
  obtain ⟨e, he, rfl⟩ := Option.map_eq_some_iff.mp h.entry
  apply page_of_kept
  simp [kept?, PageCache.current?, h.keepsPages, h.unchecked, he]

theorem lookUp (h : Keeps key found s) (hkey : key.IsKey) (files : FileTree) (path : Path) :
    Keeps key found (s.page files path).2 := by
  by_cases hpath : path.normalize = key
  · subst hpath
    rw [h.page files]
    exact ⟨h.keepsPages, h.unchecked, h.entry⟩
  · exact h.of_alike (alike_page hkey hpath)

theorem lookUps (h : Keeps key found s) (hkey : key.IsKey) (files : FileTree) (routes : List Route) :
    Keeps key found (routes.foldl (fun s r => (s.page files r.source).2) s) := by
  induction routes generalizing s with
  | nil => exact h
  | cons r rest ih => exact ih (h.lookUp hkey files r.source)

theorem event {e : Event} (h : Keeps path.normalize found s) (he : ¬ e.Forgets path) (files : FileTree) :
    Keeps path.normalize found (e.site s files) := by
  have hkey := Path.isKey_normalize path
  apply event_preserves h
  · exact fun t other ht => ht.lookUp hkey files other
  · exact fun t other ht => ht.of_alike (alike_compilePage _ t files other)
  · intro other hforget
    have hother : other.normalize.same path.normalize = false := by
      refine Bool.eq_false_iff.mpr fun hsame => he ?_
      rw [hforget]
      exact (Path.same_iff (Path.isKey_normalize other) hkey).mp hsame
    refine ⟨h.keepsPages, h.unchecked, ?_⟩
    show (PageCache.entry? (s.cache.invalidate other.normalize) path.normalize).map (·.page) = some found
    rw [PageCache.entry?_invalidate, hother]
    exact h.entry

theorem after {moments : List (FileTree × Event)} (h : Keeps path.normalize found s)
    (hm : ∀ m ∈ moments, ¬ m.2.Forgets path) : Keeps path.normalize found (s.after moments) := by
  induction moments generalizing s with
  | nil => exact h
  | cons m rest ih => exact ih (h.event (hm m (by simp)) m.1) fun m' hm' => hm m' (by simp [hm'])

end Keeps

theorem keeps_of_page (hon : s.config.cache = true) (hoff : s.cache.invalidateOnChange = false)
    (h : (s.page files path).1 = .ok found) : Keeps path.normalize found (s.page files path).2 := by
  cases hk : s.kept? files path.normalize with
  | some e =>
    have hcurrent : s.cache.current? files path.normalize = some e := by simpa [kept?, hon] using hk
    have hentry : s.cache.entry? path.normalize = some e := (Option.filter_eq_some_iff.mp hcurrent).1
    rw [page_of_kept hk] at h ⊢
    cases h
    refine ⟨hon, hoff, ?_⟩
    show (s.cache.entry? path.normalize).map (·.page) = some e.page
    rw [hentry]
    rfl
  | none =>
    generalize hb : s.nextEntry files path.normalize = built
    obtain ⟨cache, hstep, hchecks, hentry⟩ := page_of_not_kept hk hb
    rw [hstep] at h ⊢
    cases built with
    | error cause => cases h
    | ok e =>
      cases h
      refine ⟨hon, hchecks.trans hoff, ?_⟩
      show (cache.entry? path.normalize).map (·.page) = some e.page
      rw [hentry, hon, Path.same_refl]
      rfl

/-- After the look-ups of different pages, every page that was found is kept. -/
theorem keeps_lookUps (h : order.Pairwise (·.source.normalize ≠ ·.source.normalize)) (hon : s.config.cache = true)
    (hoff : s.cache.invalidateOnChange = false) {r : Route} (hmem : (r, .ok found) ∈ lookUps files s order) :
    Keeps r.source.normalize found (order.foldl (fun s r => (s.page files r.source).2) s) := by
  induction order generalizing s with
  | nil => cases hmem
  | cons q rest ih =>
    obtain ⟨-, hrest⟩ := List.pairwise_cons.mp h
    have hsetting := SameSetting.page (s := s) ⟨rfl, rfl, rfl⟩ files q.source
    rw [List.foldl_cons]
    rcases List.mem_cons.mp hmem with hfirst | hmem
    · obtain ⟨rfl, hanswer⟩ := Prod.ext_iff.mp hfirst
      have hkeeps := keeps_of_page hon hoff hanswer.symm
      exact hkeeps.lookUps (Path.isKey_normalize _) files rest
    · exact ih hrest ((congrArg _ hsetting.config).trans hon) (hsetting.checks.trans hoff) hmem

/-! ## Sites that were opened -/

/-- Whatever happened since a site was opened, and in whichever order the pages are compiled:
    warming counts every route once, and reports those whose own look-up fails, in the order
    of the routes, with the cause that the look-up gives. A page that was found is found again,
    without a run of the compiler, until it is forgotten, if pages are kept and not checked. -/
theorem warm_exact {files₀ : FileTree} {config : Config} {firstRun : Nat} {s₀ : Site} (hw : files₀.WellFormed)
    (h : load files₀ config firstRun = .ok s₀) (earlier : List (FileTree × Event)) (files : FileTree)
    (horder : order.Perm s₀.routes) :
    let s := s₀.after earlier
    let answer := fun r => s.answerWith (seedIn order s files r) files r
    let report := (warmIn order s files).1
    let warmed := (warmIn order s files).2
    warmIn s.routes s files = s.warm files ∧
      (config.scopeStrategy = .hashed → ∀ r, answer r = (s.page files r.source).1) ∧
      report.compiled + report.failures.length = s.routes.length ∧
      report.failures = s.routes.filterMap (fun r => failure? r (answer r)) ∧
      (config.cache = true → config.invalidateOnChange = false → ∀ r ∈ s.routes, ∀ found, answer r = .ok found →
        ∀ later : List (FileTree × Event), (∀ m ∈ later, ¬ m.2.Forgets r.source) →
        ∀ (files : FileTree) (path : Path), path.normalize = r.source.normalize →
          let now := warmed.after later
          let hit : Site := { now with cache := { now.cache with hits := now.cache.hits + 1 } }
          now.page files path = (.ok found, hit) ∧
            ∀ data, now.renderPage files path data = (found.render data, hit)) := by
  intro s answer report warmed
  obtain ⟨pieces, hpieces, hconfig, -, hcache⟩ := load_eq_ok h
  obtain ⟨hconfig', hroutes, hchecks⟩ := sameSetting_after s₀ earlier
  have happ := (locate_eq_ok hpieces).1
  have hapart : s₀.routes.Pairwise (·.source.normalize ≠ ·.source.normalize) := by
    rw [routes_of_load h]
    exact Route.source_normalize_ne hw happ config.entryFile
  have hsame : s.routes = s₀.routes := hroutes
  have hapart' : order.Pairwise (·.source.normalize ≠ ·.source.normalize) :=
    horder.symm.pairwise hapart Ne.symm
  have hreport : report = s.routes.foldl (fun report r => report.add r.path (answer r)) {} :=
    report_warmIn hapart' (hsame ▸ horder) files
  obtain ⟨hcount, hfailures⟩ := foldl_add s.routes answer {}
  refine ⟨warmIn_routes (hsame ▸ hapart) files, ?_, ?_, ?_, ?_⟩
  · intro hash r
    refine answerWith_of_hashed ?_ _ files r
    rw [show s.config = config from hconfig'.trans hconfig]
    exact hash
  · rw [hreport, hcount]
    simp
  · rw [hreport, hfailures]
    rfl
  · intro hon hoff r hr found hfound later hlater files' path hpath now hit
    -- no two routes have one page, so each is looked up as on its own
    have hmem : (r, Except.ok found) ∈ lookUps files s order := by
      rw [lookUps_apart hapart']
      exact List.mem_map.mpr ⟨r, horder.mem_iff.mpr (hsame ▸ hr), congrArg _ hfound⟩
    have hkeeps : Keeps r.source.normalize found warmed := by
      refine keeps_lookUps hapart' ?_ ?_ hmem
      · rw [show s.config = config from hconfig'.trans hconfig]
        exact hon
      · rw [show s.cache.invalidateOnChange = s₀.cache.invalidateOnChange from hchecks, hcache]
        exact hoff
    have hpage : now.page files' path = (.ok found, hit) := by
      rw [page_congr hpath]
      exact (hkeeps.after hlater).page files'
    refine ⟨hpage, fun data => ?_⟩
    unfold renderPage
    rw [hpage]
    rfl

/-- The page that fails is compiled first. The other one is rewritten after warming, and is
    still found as it was. -/
theorem warm_beside_failing_page :
    let site (text : String) : FileTree := { entries := [(["index.html"], .file (some "") 1), (["app"], .folder none),
      (["app", "page.goo"], .file (some text) 1), (["app", "broken"], .folder none),
      (["app", "broken", "page.goo"], .file (some "<script>import A from 'a'</script>") 1)] }
    let files := site "<component>a</component>"
    let rewritten := site "<component>b</component>"
    let config : Config := { scopeStrategy := .hashed }
    let home : Route := ⟨"/", ⟨"./app/page.goo"⟩⟩
    let broken : Route := ⟨"/broken", ⟨"./app/broken/page.goo"⟩⟩
    let later : List (FileTree × Event) := [(rewritten, .invalidate broken.source), (rewritten, .warm)]
    ∃ s, files.WellFormed ∧ load files config = .ok s ∧ [broken, home].Perm s.routes ∧
      (∀ m ∈ later, ¬ m.2.Forgets home.source) ∧
      let report := (warmIn [broken, home] s files).1
      let warmed := (warmIn [broken, home] s files).2
      report.compiled = 1 ∧ report.failures.map (·.1) = ["/broken"] ∧
        ∃ found, (s.page files home.source).1 = .ok found ∧
          ((warmed.after later).page rewritten ⟨"app/page.goo"⟩).1 = .ok found := by
  intro site files rewritten config home broken later
  have hw : files.WellFormed := ⟨by decide +kernel, by decide +kernel, by decide +kernel⟩
  obtain ⟨s, hload⟩ := exists_of_isOk (show (load files config).isOk = true by decide +kernel)
  have hroutes : s.routes = [home, broken] := by
    rw [routes_of_load hload]
    exact Route.discover_of_listed (by decide +kernel) (by decide)
  have hperm : [broken, home].Perm s.routes := hroutes ▸ List.Perm.swap home broken []
  have hlater : ∀ m ∈ later, ¬ m.2.Forgets home.source := by
    simp only [later, List.forall_mem_cons, Event.Forgets]
    exact ⟨by decide +kernel, id, nofun⟩
  have hanswers : ((load files config).toOption.any fun s =>
      (s.page files home.source).1.isOk && !(s.page files broken.source).1.isOk) = true := by decide +kernel
  rw [hload] at hanswers
  obtain ⟨hhome, hbroken⟩ := Bool.and_eq_true_iff.mp (show (_ && _) = true from hanswers)
  obtain ⟨found, hfound⟩ := exists_of_isOk hhome
  obtain ⟨-, hown, hcount, hfailures, hkept⟩ := warm_exact hw hload [] files hperm
  have hhomeOwn := (hown rfl home).trans hfound
  have hfailed : (warmIn [broken, home] s files).1.failures.map (·.1) = ["/broken"] := by
    cases hcause : (s.page files broken.source).1 with
    | ok page =>
      rw [hcause] at hbroken
      cases hbroken
    | error cause =>
      have hbrokenOwn := (hown rfl broken).trans hcause
      refine (congrArg (List.map (·.1)) hfailures).trans ?_
      rw [show (s.after []).routes = [home, broken] from hroutes, List.filterMap_cons, hhomeOwn]
      rw [show failure? home (.ok found) = none from rfl, List.filterMap_cons, hbrokenOwn]
      rfl
  have hcompiled : (warmIn [broken, home] s files).1.compiled + 1 = 2 := by
    have hlength : s.routes.length = 2 := congrArg List.length hroutes
    have hone : (warmIn [broken, home] s files).1.failures.length = 1 := by
      simpa using congrArg List.length hfailed
    rw [← hlength, ← hone]
    exact hcount
  have hmem : home ∈ s.routes := hroutes ▸ List.mem_cons_self
  obtain ⟨hpage, -⟩ :=
    hkept rfl rfl home hmem found hhomeOwn later hlater rewritten ⟨"app/page.goo"⟩ (by decide +kernel)
  exact ⟨s, hw, hload, hperm, hlater, Nat.succ.inj hcompiled, hfailed, found, hfound, congrArg Prod.fst hpage⟩

end Site

end ComponentSite
