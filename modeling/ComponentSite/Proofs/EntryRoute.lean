/-
  ComponentSite.Proofs.EntryRoute — a site that opens has a route for its entry page, if
  the entry file is given by its name alone.

  A site opens only if its entry page is a file. If the configured entry file is one piece
  of a path, this file stands in the app folder under that name (`entry?_of_isFile_join`), so
  the listing of the app folder has it (`mem_filesBelow_entry`), and its address is `/`.

  The entry file may as well be configured with a slash, as `./page.goo` or `home/page.goo`.
  The site opens, but no file has a name with a slash in it, so there are no routes at all:
  the entry page has a route exactly if there is no slash (`entry_route_iff`).
-/
import ComponentSite.Proofs.CacheCoherence
import ComponentSite.Proofs.RouteTable

namespace ComponentSite.FileTree

variable {t : FileTree} {p : Path} {n : String} {place place' here : Location}

theorem place_of_isFile (h : t.isFile p = true) :
    ∃ here text m, t.resolve p = .ok here ∧ t.entry? here = some (.file text m) := by
  unfold isFile lookup at h
  cases hres : t.resolve p with
  | error cause => simp [hres, Except.bind] at h
  | ok here =>
    cases he : t.entry? here with
    | none => simp [hres, Except.bind, he] at h
    | some e =>
      cases e with
      | file text m => exact ⟨here, text, m, rfl, he⟩
      | folder modified => simp [hres, Except.bind, he] at h
      | link target => simp [hres, Except.bind, he] at h

theorem isFolderAt_parent (hw : t.WellFormed) (h : t.isFolderAt here = true) :
    t.isFolderAt here.dropLast = true := by
  by_cases hempty : here = []
  · rwa [hempty] at h ⊢
  · obtain ⟨modified, he⟩ := entry?_of_isFolderAt h
    exact hw.parents _ (List.mem_map.mpr ⟨_, mem_of_entry?_eq_some hempty he, rfl⟩)

theorem isFolderAt_of_walk (hw : t.WellFormed) {left : Nat} {s : Option Segment} (hs : s = none ∨ s = some .up)
    (hfolder : t.isFolderAt place = true) (h : t.walk false left place [s] = .ok place') :
    t.isFolderAt place' = true := by
  obtain ⟨follow, hfollow⟩ := exists_follow t left
  rw [hfollow] at h
  rcases hs with rfl | rfl
  · simp only [walkWith, hfolder] at h
    cases h
    exact hfolder
  · simp only [walkWith, hfolder] at h
    cases h
    exact isFolderAt_parent hw hfolder

/-- A file that one piece leads to from a folder stands in this folder under its name. -/
theorem entry?_of_isFile_join (hw : t.WellFormed) (hfolder : t.isFolder p = true) (hn : '/' ∉ n.toList)
    (hfile : t.isFile (p.join ⟨n⟩) = true) :
    (Segment.name n).IsStep ∧ ∃ here e, t.resolve p = .ok here ∧ t.isFolderAt here = true ∧
      t.entry? (here ++ [n]) = some e := by
  obtain ⟨place, hres, hplace⟩ := place_of_isFolder hfolder
  obtain ⟨target, text, m, hres', he'⟩ := place_of_isFile hfile
  obtain ⟨hnul, -, hsize, -⟩ := resolve_eq_ok hres'
  obtain ⟨left, hwalk⟩ := resolve_join_eq hres hn hnul hsize
  rw [hres'] at hwalk
  have hstep : Segment.ofPiece? n.toList = some (.name n) := by
    by_contra hother
    have hs : Segment.ofPiece? n.toList = none ∨ Segment.ofPiece? n.toList = some .up := by
      unfold Segment.ofPiece? at hother ⊢
      split <;> simp_all
    have := isFolderAt_of_walk hw hs hplace hwalk.symm
    simp [isFolderAt, he'] at this
  rw [hstep] at hwalk
  obtain ⟨-, e, he⟩ := entry?_of_walk_name hwalk.symm
  exact ⟨Segment.ofPiece?_isStep hn hstep, place, e, hres, hplace, he⟩

end ComponentSite.FileTree

namespace ComponentSite.Route

variable {files : FileTree} {appDir path : Path} {depth : Nat} {above : List Location}
    {here : Location} {n : String} {e : Entry}

theorem filesBelow_of_file (h : files.isFile path = true) : filesBelow files (depth + 1) above path = [path] := by
  obtain ⟨here, text, m, hres, he⟩ := FileTree.place_of_isFile h
  simp only [filesBelow, hres, he]

/-- The listing of a folder has every file that a name leads to, a link or not. -/
theorem mem_filesBelow_entry (hres : files.resolve path = .ok here)
    (hfolder : files.isFolderAt here = true) (he : files.entry? (here ++ [n]) = some e)
    (hfile : files.isFile (path.join ⟨n⟩) = true) (hdepth : 1 < depth) :
    path.join ⟨n⟩ ∈ filesBelow files depth [] path := by
  obtain ⟨left, rfl⟩ : ∃ left, depth = left + 2 := ⟨depth - 2, by omega⟩
  rw [filesBelow_of_folder hres hfolder, List.mem_flatMap]
  have hmem := FileTree.mem_of_entry?_eq_some (List.append_ne_nil_of_right_ne_nil here (List.cons_ne_nil n [])) he
  refine ⟨n, FileTree.mem_namesIn.mpr (List.mem_map.mpr ⟨_, hmem, rfl⟩), ?_⟩
  have hloop : isLoop files [here] (here ++ [n]) (path.join ⟨n⟩) = false := by
    obtain ⟨target, text, m, htarget, hfile⟩ := FileTree.place_of_isFile hfile
    have hother : target ≠ here := by
      rintro rfl
      simp [FileTree.isFolderAt, hfile] at hfolder
    unfold isLoop
    rw [he, htarget]
    cases e with
    | link => simpa using hother
    | file => rfl
    | folder => rfl
  unfold childFiles
  split
  · exact List.mem_singleton_self _
  · rw [hloop, if_neg Bool.false_ne_true, filesBelow_of_file hfile]
    exact List.mem_singleton_self _

theorem name_of_fileName? (h : path.fileName? = some n) : '/' ∉ n.toList := by
  unfold Path.fileName? at h
  cases hlast : path.segments.getLast? with
  | none => simp [hlast] at h
  | some s =>
    obtain ⟨steps, hsteps, hs⟩ := Path.segments_shape path
    have hmem : s ∈ path.segments := List.mem_of_getLast? hlast
    cases s with
    | name m =>
      simp only [hlast, Option.some.injEq] at h
      have : (Segment.name m).IsStep := by
        apply hsteps
        rcases hs with hs | hs | hs <;> simpa [hs] using hmem
      exact h ▸ this.2.1
    | root => simp [hlast] at h
    | here => simp [hlast] at h
    | up => simp [hlast] at h

end ComponentSite.Route

namespace ComponentSite.Site

theorem exists_of_isOk {α : Type} {result : Except SiteError α} (h : result.isOk = true) : ∃ a, result = .ok a := by
  cases result with
  | error cause => cases h
  | ok a => exact ⟨a, rfl⟩

variable {files : FileTree} {config : Config} {firstRun : Nat} {s : Site}

theorem locate_eq_ok {pieces : SiteStructure} (h : SiteStructure.locate files config = .ok pieces) :
    files.isFolder config.appFolder = true ∧ files.isFile config.entryPath = true ∧
      pieces.appDir = config.appFolder := by
  unfold SiteStructure.locate at h
  by_cases happ : files.isFolder config.appFolder = true
  · by_cases hlayout : files.isFile config.layoutPath = true
    · by_cases hentry : files.isFile config.entryPath = true
      · refine ⟨happ, hentry, ?_⟩
        simp only [happ, hlayout, hentry] at h
        cases hread : files.read config.layoutPath with
        | error cause =>
          rw [hread] at h
          cases h
        | ok layout =>
          rw [hread] at h
          cases h
          rfl
      · simp only [happ, hlayout, hentry] at h
        cases h
    · simp only [happ, hlayout] at h
      cases h
  · simp only [happ] at h
    cases h

theorem routes_of_load (h : load files config firstRun = .ok s) :
    s.routes = Route.discover files config.appFolder config.entryFile := by
  unfold load at h
  cases hpieces : SiteStructure.locate files config with
  | error cause =>
    rw [hpieces] at h
    cases h
  | ok pieces =>
    rw [hpieces] at h
    cases h
    show Route.discover files pieces.appDir config.entryFile = _
    rw [(locate_eq_ok hpieces).2.2]

/-- An open site has the route `/` to its entry page exactly if the entry file is configured
    without a slash. With one it has no routes. -/
theorem entry_route_iff (hw : files.WellFormed) (h : load files config firstRun = .ok s) :
    ((∃ r ∈ s.routes, r.path = "/" ∧ r.source.normalize = config.entryPath.normalize) ↔ '/' ∉ config.entryFile.toList) ∧
      ('/' ∈ config.entryFile.toList → s.routes = []) := by
  obtain ⟨pieces, hpieces, -⟩ := load_eq_ok h
  obtain ⟨happ, hentry, -⟩ := locate_eq_ok hpieces
  have hroutes := routes_of_load h
  have hnone : '/' ∈ config.entryFile.toList → s.routes = [] := by
    intro hslash
    rw [hroutes]
    refine List.eq_nil_iff_forall_not_mem.mpr fun r hr => ?_
    obtain ⟨p, -, hname, -⟩ := Route.mem_discover.mp hr
    exact Route.name_of_fileName? hname hslash
  refine ⟨⟨fun ⟨r, hr, _⟩ hslash => ?_, fun hslash => ?_⟩, hnone⟩
  · rw [hnone hslash] at hr
    cases hr
  · obtain ⟨hname, here, e, hres, hfolder, he⟩ := FileTree.entry?_of_isFile_join hw happ hslash hentry
    have haddress : Route.pathOf config.appFolder ((config.appFolder.below []).join ⟨config.entryFile⟩) =
        Route.address [] :=
      Route.pathOf_below (FileTree.resolve_eq_ok hres).2.1 nofun hname
    have hmem : config.entryPath ∈ Route.filesBelow files FileTree.maxPathBytes [] config.appFolder :=
      Route.mem_filesBelow_entry hres hfolder he hentry (by decide)
    refine ⟨⟨"/", config.entryPath⟩, ?_, rfl, rfl⟩
    rw [hroutes]
    refine Route.mem_discover.mpr ⟨config.entryPath, hmem, Route.fileName?_join hname _, ?_⟩
    rw [show Route.pathOf config.appFolder config.entryPath = _ from haddress]
    rfl

/-- The entry page is a link, in a folder that is spelled in a roundabout way. -/
theorem entry_route_of_linked_page :
    let files : FileTree := { entries := [(["site"], .folder none), (["site", "base.html"], .file (some "") 1),
      (["site", "start.goo"], .file (some "a") 1), (["site", "pages"], .folder none),
      (["site", "pages", "home.goo"], .link ⟨"../start.goo"⟩)] }
    let config : Config :=
      { root := ⟨"site/../site/."⟩, appDir := "pages//", layoutFile := "base.html", entryFile := "home.goo" }
    files.WellFormed ∧ ∃ s, load files config = .ok s ∧
      ((∃ r ∈ s.routes, r.path = "/" ∧ r.source.normalize = config.entryPath.normalize) ↔
        '/' ∉ config.entryFile.toList) ∧
      ('/' ∈ config.entryFile.toList → s.routes = []) := by
  intro files config
  have hw : files.WellFormed := ⟨by decide +kernel, by decide +kernel, by decide +kernel⟩
  obtain ⟨s, hload⟩ := exists_of_isOk (show (load files config).isOk = true by decide +kernel)
  exact ⟨hw, s, hload, entry_route_iff hw hload⟩

/-- The entry page is there and the site opens, but it has no routes. -/
theorem entry_page_without_route :
    let files : FileTree := { entries := [(["index.html"], .file (some "") 1), (["app"], .folder none),
      (["app", "page.goo"], .file (some "a") 1)] }
    let config : Config := { entryFile := "./page.goo" }
    files.WellFormed ∧ files.isFile config.entryPath = true ∧ (load files config).toOption.map (·.routes) = some [] :=
  ⟨⟨by decide +kernel, by decide +kernel, by decide +kernel⟩, by decide +kernel, by decide +kernel⟩

end ComponentSite.Site
