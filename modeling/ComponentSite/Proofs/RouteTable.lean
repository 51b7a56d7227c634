/-
  ComponentSite.Proofs.RouteTable — the routes of a site are the pages below its app
  folder.

  A listing spells every file as the app folder with the names on the way to the file
  joined to it (`below_of_mem_filesBelow`), once (`nodup_filesBelow`). So the address of
  a page gives the names of its folders back (`names_address`), no two pages have one
  address, and the routes are in strictly increasing order (`discover_sorted`).

  Where there are no links, the routes are the files of the name asked for, one for each
  (`discover_bijective`), in all folders whose paths are short enough to be followed: below
  a folder whose path has become too long there is nothing
  (`discover_misses_page_of_long_path`).
-/
import Mathlib.Data.Set.Function
import ComponentSite.Proofs.TreeWalk
import ComponentSite.Site

namespace ComponentSite.Route
open FileTree (IsName)

variable {files : FileTree} {appDir path p : Path} {depth : Nat} {above : List Location} {here : Location}
  {dirs : List String} {entryFile n : String} {r : Route}

/-! ## Addresses -/

def address (dirs : List String) : String := "/" ++ "/".intercalate dirs

def names (address : String) : List String := ((address.toList.splitOn '/').filter (!·.isEmpty)).map String.ofList

theorem pathOf_below (happ : appDir.text ≠ "") (hd : ∀ n ∈ dirs, (Segment.name n).IsStep)
    (hn : (Segment.name n).IsStep) : pathOf appDir ((appDir.below dirs).join ⟨n⟩) = address dirs := by
  obtain ⟨folder, hparent, hfolder⟩ := Path.segments_parent_join hn (Path.below_text_ne happ hd)
  rw [Path.segments_below hd] at hfolder
  obtain ⟨q, hq, hrest⟩ := Path.relativeTo?_of_segments happ hfolder
  unfold pathOf
  rw [hparent]
  simp only [Option.bind_some, hq, Option.getD_some, hrest, List.map_map]
  have : dirs.map (Segment.text ∘ Segment.name) = dirs := by
    rw [show Segment.text ∘ Segment.name = id from rfl, List.map_id]
  rw [this]
  rfl

theorem names_address (hd : ∀ n ∈ dirs, (Segment.name n).IsStep) : names (address dirs) = dirs := by
  cases dirs with
  | nil => decide
  | cons first rest =>
    have hslash : ∀ l ∈ (first :: rest).map String.toList, '/' ∉ l := by
      intro l hl
      obtain ⟨m, hm, rfl⟩ := List.mem_map.mp hl
      exact (hd m hm).2.1
    have hne : ∀ l ∈ (first :: rest).map String.toList, (!l.isEmpty) = true := by
      intro l hl
      obtain ⟨m, hm, rfl⟩ := List.mem_map.mp hl
      simpa using (hd m hm).1
    have hsplit : (address (first :: rest)).toList.splitOn '/' = [] :: (first :: rest).map String.toList := by
      unfold address
      rw [String.toList_append, String.toList_intercalate, show "/".toList = ['/'] from by decide]
      have := List.splitOn_append_cons_self (a := '/') [] (['/'].intercalate ((first :: rest).map String.toList))
      simp only [List.nil_append, List.splitOn_nil] at this
      rw [List.singleton_append, this, List.splitOn_intercalate '/' hslash (List.cons_ne_nil _ _)]
      rfl
    unfold names
    rw [hsplit, List.filter_cons_of_neg (by simp), List.filter_eq_self.mpr hne, List.map_map]
    have : String.ofList ∘ String.toList = id := by
      funext s
      exact String.ofList_toList
    rw [this, List.map_id]

/-! ## The files below a path -/

def childFiles (files : FileTree) (depth : Nat) (above : List Location) (here : Location)
    (path : Path) (name : String) :
    List Path :=
  match files.entry? (here ++ [name]) with
  | some (.file ..) => [path.join ⟨name⟩]
  | _ =>
    if isLoop files above (here ++ [name]) (path.join ⟨name⟩) then []
    else filesBelow files depth above (path.join ⟨name⟩)

theorem filesBelow_of_folder (hres : files.resolve path = .ok here)
    (hfolder : files.isFolderAt here = true) :
    filesBelow files (depth + 1) above path =
      (files.namesIn here).flatMap (childFiles files depth (here :: above) here path) := by
  obtain ⟨modified, he⟩ := FileTree.entry?_of_isFolderAt hfolder
  rw [filesBelow, hres]
  simp only [he]
  rfl

/-- A listing is empty, or the path is a file, or a folder is listed name by name. -/
theorem filesBelow_cases (files : FileTree) (depth : Nat) (above : List Location) (path : Path) :
    filesBelow files depth above path = [] ∨ filesBelow files depth above path = [path] ∨
      ∃ here left, depth = left + 1 ∧ files.resolve path = .ok here ∧
        files.isFolderAt here = true := by
  cases depth with
  | zero => exact Or.inl rfl
  | succ left =>
    rw [filesBelow]
    cases hres : files.resolve path with
    | error cause => exact Or.inl rfl
    | ok here =>
      cases he : files.entry? here with
      | none => exact Or.inl (by simp only [he])
      | some e =>
        cases e with
        | file => exact Or.inr (Or.inl (by simp only [he]))
        | link => exact Or.inl (by simp only [he])
        | folder => exact Or.inr (Or.inr ⟨here, left, rfl, rfl, by simp [FileTree.isFolderAt, he]⟩)

theorem mem_childFiles (h : p ∈ childFiles files depth above here path n) :
    p = path.join ⟨n⟩ ∨ p ∈ filesBelow files depth above (path.join ⟨n⟩) := by
  unfold childFiles at h
  split at h
  · exact Or.inl (List.mem_singleton.mp h)
  · split at h
    · cases h
    · exact Or.inr h

theorem below_of_mem_filesBelow (hw : files.WellFormed) (h : p ∈ filesBelow files depth above path) :
    ∃ names, (∀ n ∈ names, IsName n) ∧ p = path.below names := by
  induction depth generalizing above path with
  | zero => cases h
  | succ depth ih =>
    rcases filesBelow_cases files (depth + 1) above path with hnil | hself | ⟨here, left, hleft, hres, hfolder⟩
    · rw [hnil] at h
      cases h
    · rw [hself] at h
      exact ⟨[], nofun, List.mem_singleton.mp h⟩
    · rw [filesBelow_of_folder hres hfolder] at h
      obtain ⟨n, hn, hp⟩ := List.mem_flatMap.mp h
      have hname : IsName n := hw.names _ (FileTree.mem_namesIn.mp hn) n (by simp)
      rcases mem_childFiles hp with rfl | hp
      · exact ⟨[n], by simpa using hname, rfl⟩
      · obtain ⟨names, hnames, rfl⟩ := ih hp
        exact ⟨n :: names, by simpa using ⟨hname, hnames⟩, rfl⟩

theorem segments_of_mem_childFiles (hw : files.WellFormed) (hn : IsName n)
    (h : p ∈ childFiles files depth above here path n) : ∃ rest, p.segments = path.segments ++ .name n :: rest := by
  obtain ⟨names, hnames, hp⟩ : ∃ names, (∀ m ∈ names, IsName m) ∧ p = (path.join ⟨n⟩).below names := by
    rcases mem_childFiles h with hp | hp
    · exact ⟨[], nofun, hp⟩
    · exact below_of_mem_filesBelow hw hp
  refine ⟨names.map .name, ?_⟩
  rw [hp, Path.segments_below fun m hm => (hnames m hm).1, Path.segments_join hn.1]
  simp

theorem nodup_filesBelow (hw : files.WellFormed) (depth : Nat) (above : List Location) (path : Path) :
    (filesBelow files depth above path).Nodup := by
  induction depth generalizing above path with
  | zero => exact List.nodup_nil
  | succ depth ih =>
    rcases filesBelow_cases files (depth + 1) above path with hnil | hself | ⟨here, left, hleft, hres, hfolder⟩
    · rw [hnil]
      exact List.nodup_nil
    · rw [hself]
      exact List.nodup_singleton path
    · rw [filesBelow_of_folder hres hfolder, List.nodup_flatMap]
      refine ⟨fun n hn => ?_, ?_⟩
      · unfold childFiles
        split
        · exact List.nodup_singleton _
        · split
          · exact List.nodup_nil
          · exact ih _ _
      · -- Files under different names differ in the step behind the folder.
        refine (FileTree.nodup_namesIn hw here).imp_of_mem fun {n m} hn hm hne => ?_
        intro p hp hp'
        have hname : ∀ k ∈ files.namesIn here, IsName k :=
          fun k hk => hw.names _ (FileTree.mem_namesIn.mp hk) k (by simp)
        obtain ⟨rest, h⟩ := segments_of_mem_childFiles hw (hname n hn) hp
        obtain ⟨rest', h'⟩ := segments_of_mem_childFiles hw (hname m hm) hp'
        rw [h] at h'
        have := List.append_cancel_left h'
        simp only [List.cons.injEq, Segment.name.injEq] at this
        exact hne this.1

/-! ## Routes -/

theorem fileName?_join (hn : (Segment.name n).IsStep) (p : Path) : (p.join ⟨n⟩).fileName? = some n := by
  unfold Path.fileName?
  rw [Path.segments_join hn, List.getLast?_concat]

theorem mem_discover :
    r ∈ discover files appDir entryFile ↔
      ∃ p ∈ filesBelow files FileTree.maxPathBytes [] appDir, p.fileName? = some entryFile ∧
        ⟨pathOf appDir p, p⟩ = r := by
  unfold discover
  rw [List.mem_mergeSort, List.mem_map]
  constructor
  · rintro ⟨p, hp, rfl⟩
    obtain ⟨hp, hname⟩ := List.mem_filter.mp hp
    exact ⟨p, hp, eq_of_beq hname, rfl⟩
  · rintro ⟨p, hp, hname, rfl⟩
    exact ⟨p, List.mem_filter.mpr ⟨hp, beq_iff_eq.mpr hname⟩, rfl⟩

/-- The pages of a listing are the routes if they are in order already. -/
theorem discover_of_listed {routes : List Route}
    (h : ((filesBelow files FileTree.maxPathBytes [] appDir).filter (·.fileName? == some entryFile)).map
      (fun page => (⟨pathOf appDir page, page⟩ : Route)) = routes)
    (hsorted : routes.Pairwise (·.path ≤ ·.path)) : discover files appDir entryFile = routes := by
  simp only [discover, h]
  exact List.mergeSort_of_pairwise (hsorted.imp decide_eq_true)

theorem exists_below_of_mem (hw : files.WellFormed) (happ : files.isFolder appDir = true)
    (h : p ∈ filesBelow files depth above appDir) (hname : p.fileName? = some n) :
    ∃ dirs, (∀ n ∈ dirs, IsName n) ∧ IsName n ∧ p = (appDir.below dirs).join ⟨n⟩ := by
  obtain ⟨names, hnames, hp⟩ := below_of_mem_filesBelow hw h
  rcases List.eq_nil_or_concat names with rfl | ⟨dirs, last, rfl⟩
  · -- The folder itself is not listed.
    obtain rfl : p = appDir := hp
    obtain ⟨place, hres, hfolder⟩ := FileTree.place_of_isFolder happ
    exfalso
    cases depth with
    | zero => cases h
    | succ depth =>
      rw [filesBelow_of_folder hres hfolder] at h
      obtain ⟨m, hm, hp⟩ := List.mem_flatMap.mp h
      have hname : IsName m := hw.names _ (FileTree.mem_namesIn.mp hm) m (by simp)
      obtain ⟨rest, hrest⟩ := segments_of_mem_childFiles hw hname hp
      simp at hrest
  · have hlast : IsName last := hnames last (by simp)
    have hp' : p = (appDir.below dirs).join ⟨last⟩ := by
      rw [hp, List.concat_eq_append, Path.below_concat]
    rw [hp', fileName?_join hlast.1] at hname
    cases hname
    exact ⟨dirs, fun m hm => hnames m (by simp [hm]), hlast, hp'⟩

/-- A route of an app folder lies in the folder that its address names. -/
theorem exists_dirs_of_mem (hw : files.WellFormed) (happ : files.isFolder appDir = true)
    (h : r ∈ discover files appDir entryFile) :
    ∃ dirs, (∀ n ∈ dirs, IsName n) ∧ IsName entryFile ∧
      r = ⟨address dirs, (appDir.below dirs).join ⟨entryFile⟩⟩ := by
  obtain ⟨p, hp, hname, rfl⟩ := mem_discover.mp h
  obtain ⟨dirs, hdirs, hentry, rfl⟩ := exists_below_of_mem hw happ hp hname
  refine ⟨dirs, hdirs, hentry, ?_⟩
  obtain ⟨place, hres, -⟩ := FileTree.place_of_isFolder happ
  rw [pathOf_below (FileTree.resolve_eq_ok hres).2.1 (fun m hm => (hdirs m hm).1) hentry.1]

theorem source_of_mem (hw : files.WellFormed) (happ : files.isFolder appDir = true)
    (h : r ∈ discover files appDir entryFile) : r.source = (appDir.below (names r.path)).join ⟨entryFile⟩ := by
  obtain ⟨dirs, hdirs, -, rfl⟩ := exists_dirs_of_mem hw happ h
  rw [names_address fun m hm => (hdirs m hm).1]

/-- No two routes have one address, and they are in the order of their addresses. -/
theorem discover_sorted (hw : files.WellFormed) (happ : files.isFolder appDir = true) (entryFile : String) :
    (discover files appDir entryFile).Pairwise (·.path < ·.path) := by
  have hle : (discover files appDir entryFile).Pairwise (·.path ≤ ·.path) := by
    unfold discover
    refine (List.pairwise_mergeSort ?_ ?_ _).imp of_decide_eq_true
    · intro a b c hab hbc
      exact decide_eq_true (String.le_trans (of_decide_eq_true hab) (of_decide_eq_true hbc))
    · intro a b
      simpa using String.le_total a.path b.path
  have hsources : ((discover files appDir entryFile).map (·.source)).Nodup := by
    unfold discover
    rw [((List.mergeSort_perm _ _).map _).nodup_iff, List.map_map]
    show (List.map id _).Nodup
    rw [List.map_id]
    exact (nodup_filesBelow hw _ _ _).filter _
  have hne : (discover files appDir entryFile).Pairwise (·.path ≠ ·.path) := by
    refine (List.pairwise_map.mp hsources).imp_of_mem fun hr hr' hne heq => hne ?_
    rw [source_of_mem hw happ hr, source_of_mem hw happ hr', heq]
  exact (hle.and hne).imp fun ⟨h, h'⟩ => String.not_le.mp fun hle => h' (String.le_antisymm h hle)

/-! ## Folders without links -/

def LinkFree (files : FileTree) (here : Location) : Prop :=
  ∀ l target, here <+: l → (l, Entry.link target) ∉ files.entries

theorem childFiles_of_file {text : Option String} {m : Int} (he : files.entry? (here ++ [n]) = some (.file text m)) :
    childFiles files depth above here path n = [path.join ⟨n⟩] := by
  simp only [childFiles, he]

theorem childFiles_of_folder {m : Option Int} (he : files.entry? (here ++ [n]) = some (.folder m)) :
    childFiles files depth above here path n = filesBelow files depth above (path.join ⟨n⟩) := by
  simp only [childFiles, isLoop, he, Bool.false_eq_true, if_false]

theorem resolve_of_mem_filesBelow (h : p ∈ filesBelow files depth above path) :
    ∃ place, files.resolve path = .ok place := by
  cases depth with
  | zero => cases h
  | succ depth =>
    rw [filesBelow] at h
    cases hres : files.resolve path with
    | ok place => exact ⟨place, rfl⟩
    | error cause => simp [hres] at h

/-- Where there are no links, a listing has every file of every folder below, as long as the
    path of the folder is short enough to lead there. -/
theorem mem_filesBelow_iff (hw : files.WellFormed) (hlinks : LinkFree files here)
    (hres : files.resolve path = .ok here) (hfolder : files.isFolderAt here = true)
    (hdepth : FileTree.maxPathBytes < depth + path.text.utf8ByteSize) :
    p ∈ filesBelow files depth above path ↔
      ∃ dirs n text m, (here ++ dirs ++ [n], Entry.file text m) ∈ files.entries ∧
        (path.below dirs).text.utf8ByteSize ≤ FileTree.maxPathBytes ∧ p = (path.below dirs).join ⟨n⟩ := by
  induction depth generalizing above path here with
  | zero =>
    have := (FileTree.resolve_eq_ok hres).2.2.1
    omega
  | succ depth ih =>
    have hsize := (FileTree.resolve_eq_ok hres).2.2.1
    -- Below a folder in this folder the listing is the one of that folder.
    have hbelow : ∀ {d : String} {m : Option Int}, files.entry? (here ++ [d]) = some (.folder m) →
        (path.join ⟨d⟩).text.utf8ByteSize ≤ FileTree.maxPathBytes →
        (p ∈ childFiles files depth (here :: above) here path d ↔
          ∃ dirs n text m, (here ++ [d] ++ dirs ++ [n], Entry.file text m) ∈ files.entries ∧
            ((path.join ⟨d⟩).below dirs).text.utf8ByteSize ≤ FileTree.maxPathBytes ∧
              p = ((path.join ⟨d⟩).below dirs).join ⟨n⟩) := by
      intro d m he hshort
      have hstep := (FileTree.isName_of_entry?_eq_some hw (by simp) he d (by simp)).1
      have hjoin := Path.size_join_lt hstep path
      rw [childFiles_of_folder he]
      refine ih (fun l target hl => hlinks l target ((List.prefix_append _ _).trans hl))
        (FileTree.resolve_join hw hres hfolder he nofun hshort) ?_ (by omega)
      simp only [FileTree.isFolderAt, he]
    rw [filesBelow_of_folder hres hfolder, List.mem_flatMap]
    constructor
    · rintro ⟨d, hd, hp⟩
      obtain ⟨⟨l, e⟩, hmem, hl⟩ := List.mem_map.mp (FileTree.mem_namesIn.mp hd)
      obtain rfl : l = here ++ [d] := hl
      have he := FileTree.entry?_of_mem hw (by simp) hmem
      cases e with
      | link target => exact absurd hmem (hlinks _ _ (List.prefix_append _ _))
      | file text m =>
        rw [childFiles_of_file he, List.mem_singleton] at hp
        exact ⟨[], d, text, m, by simpa using hmem, hsize, hp⟩
      | folder m =>
        have hlisted := hp
        rw [childFiles_of_folder he] at hlisted
        obtain ⟨place, hplace⟩ := resolve_of_mem_filesBelow hlisted
        obtain ⟨dirs, n, text, m', hfile, hshort, hp⟩ := (hbelow he (FileTree.resolve_eq_ok hplace).2.2.1).mp hp
        exact ⟨d :: dirs, n, text, m', by simpa using hfile, hshort, hp⟩
    · rintro ⟨dirs, n, text, m, hfile, hshort, hp⟩
      cases dirs with
      | nil =>
        have hmem : (here ++ [n], Entry.file text m) ∈ files.entries := by simpa using hfile
        refine ⟨n, FileTree.mem_namesIn.mpr (List.mem_map.mpr ⟨_, hmem, rfl⟩), ?_⟩
        rw [childFiles_of_file (FileTree.entry?_of_mem hw (by simp) hmem)]
        exact List.mem_singleton.mpr hp
      | cons d dirs =>
        have hmem : (here ++ [d] ++ dirs ++ [n], Entry.file text m) ∈ files.entries := by simpa using hfile
        have hisFolder := FileTree.isFolderAt_above hw (l := here ++ [d]) (m := dirs ++ [n])
          (by simp) (by simpa using hmem)
        obtain ⟨modified, he⟩ := FileTree.entry?_of_isFolderAt hisFolder
        have hnames : ∀ k ∈ here ++ [d] ++ dirs ++ [n], IsName k := hw.names _ (List.mem_map.mpr ⟨_, hmem, rfl⟩)
        have hdirs : ∀ k ∈ dirs, (Segment.name k).IsStep := fun k hk => (hnames k (by simp [hk])).1
        have hgrow := Path.size_below_le hdirs (path.join ⟨d⟩)
        have hin := FileTree.mem_of_entry?_eq_some (List.append_ne_nil_of_right_ne_nil here (List.cons_ne_nil d [])) he
        refine ⟨d, FileTree.mem_namesIn.mpr (List.mem_map.mpr ⟨_, hin, rfl⟩), ?_⟩
        exact (hbelow he (hgrow.trans hshort)).mpr ⟨dirs, n, text, m, hmem, hshort, hp⟩

def routeIn (appDir : Path) (entryFile : String) (dirs : List String) : Route :=
  ⟨address dirs, (appDir.below dirs).join ⟨entryFile⟩⟩

/-- The folders below a place with a file of this name, to which their path, spelled from
    the app folder, is short enough to lead. -/
def PageFolder (files : FileTree) (appDir : Path) (app : Location) (entryFile : String) (dirs : List String) : Prop :=
  (∃ text m, (app ++ dirs ++ [entryFile], Entry.file text m) ∈ files.entries) ∧
    (appDir.below dirs).text.utf8ByteSize ≤ FileTree.maxPathBytes

variable {app : Location}

theorem PageFolder.isName (hw : files.WellFormed) (h : PageFolder files appDir app entryFile dirs) :
    (∀ n ∈ dirs, IsName n) ∧ IsName entryFile := by
  obtain ⟨⟨text, m, hmem⟩, -⟩ := h
  have hnames := hw.names _ (List.mem_map.mpr ⟨_, hmem, rfl⟩)
  exact ⟨fun n hn => hnames n (by simp [hn]), hnames entryFile (by simp)⟩

theorem mem_discover_iff (hw : files.WellFormed) (hres : files.resolve appDir = .ok app)
    (hfolder : files.isFolderAt app = true) (hlinks : LinkFree files app) :
    r ∈ discover files appDir entryFile ↔
      ∃ dirs, PageFolder files appDir app entryFile dirs ∧ routeIn appDir entryFile dirs = r := by
  have happ := (FileTree.resolve_eq_ok hres).2.1
  have hsize : 0 < appDir.text.utf8ByteSize := Nat.pos_of_ne_zero fun h => happ (String.utf8ByteSize_eq_zero_iff.mp h)
  have hroute : ∀ {dirs}, PageFolder files appDir app entryFile dirs →
      pathOf appDir ((appDir.below dirs).join ⟨entryFile⟩) = address dirs := by
    intro dirs h
    obtain ⟨hdirs, hentry⟩ := h.isName hw
    exact pathOf_below happ (fun n hn => (hdirs n hn).1) hentry.1
  rw [mem_discover]
  constructor
  · rintro ⟨p, hp, hname, rfl⟩
    obtain ⟨dirs, n, text, m, hmem, hshort, rfl⟩ := (mem_filesBelow_iff hw hlinks hres hfolder (by omega)).mp hp
    have hn : IsName n := hw.names _ (List.mem_map.mpr ⟨_, hmem, rfl⟩) n (by simp)
    rw [fileName?_join hn.1] at hname
    cases hname
    have hpage : PageFolder files appDir app entryFile dirs := ⟨⟨text, m, hmem⟩, hshort⟩
    exact ⟨dirs, hpage, by rw [routeIn, hroute hpage]⟩
  · rintro ⟨dirs, hpage, rfl⟩
    obtain ⟨⟨text, m, hmem⟩, hshort⟩ := hpage
    refine ⟨_, (mem_filesBelow_iff hw hlinks hres hfolder (by omega)).mpr
      ⟨dirs, entryFile, text, m, hmem, hshort, rfl⟩, ?_, ?_⟩
    · exact fileName?_join (PageFolder.isName hw ⟨⟨text, m, hmem⟩, hshort⟩).2.1 _
    · rw [routeIn, hroute ⟨⟨text, m, hmem⟩, hshort⟩]

/-- Discovery is a bijection from the folders with a page to the routes, which are in
    strictly increasing order of their addresses, and the address of a route leads back to
    its page. -/
theorem discover_bijective (hw : files.WellFormed) (hres : files.resolve appDir = .ok app)
    (happ : files.isFolder appDir = true) (hlinks : LinkFree files app) (entryFile : String) :
    Set.BijOn (routeIn appDir entryFile) {dirs | PageFolder files appDir app entryFile dirs}
        {r | r ∈ discover files appDir entryFile} ∧
      (discover files appDir entryFile).Pairwise (·.path < ·.path) ∧
      ∀ r ∈ discover files appDir entryFile, (appDir.below (names r.path)).join ⟨entryFile⟩ = r.source := by
  have hfolder : files.isFolderAt app = true := by
    obtain ⟨place, hplace, hfolder⟩ := FileTree.place_of_isFolder happ
    rw [hres] at hplace
    cases hplace
    exact hfolder
  refine ⟨⟨?_, ?_, ?_⟩, discover_sorted hw happ entryFile, fun r hr => (source_of_mem hw happ hr).symm⟩
  · intro dirs hdirs
    exact (mem_discover_iff hw hres hfolder hlinks).mpr ⟨dirs, hdirs, rfl⟩
  · intro dirs hdirs dirs' hdirs' heq
    have haddress : address dirs = address dirs' := (Route.mk.inj heq).1
    rw [← names_address fun n hn => ((PageFolder.isName hw hdirs).1 n hn).1, haddress,
      names_address fun n hn => ((PageFolder.isName hw hdirs').1 n hn).1]
  · intro r hr
    exact (mem_discover_iff hw hres hfolder hlinks).mp hr

/-- An app folder spelled in a roundabout way, with pages at three depths. -/
theorem discover_bijective_nested :
    let files : FileTree := { entries := [(["app"], .folder none), (["app", "page.goo"], .file (some "a") 1),
      (["app", "blog"], .folder none), (["app", "blog", "über uns"], .folder none),
      (["app", "blog", "über uns", "page.goo"], .file (some "b") 1), (["app", "blog", "card.goo"], .file (some "c") 1),
      (["app", "blog", "page.goo"], .file none 1)] }
    let appDir : Path := ⟨"./app/blog/..//"⟩
    let app : Location := ["app"]
    (files.WellFormed ∧ files.resolve appDir = .ok app ∧ files.isFolder appDir = true ∧ LinkFree files app) ∧
      Set.BijOn (routeIn appDir "page.goo") {dirs | PageFolder files appDir app "page.goo" dirs}
          {r | r ∈ discover files appDir "page.goo"} ∧
        (discover files appDir "page.goo").Pairwise (·.path < ·.path) ∧
        ∀ r ∈ discover files appDir "page.goo", (appDir.below (names r.path)).join ⟨"page.goo"⟩ = r.source := by
  intro files appDir app
  have hw : files.WellFormed := ⟨by decide +kernel, by decide +kernel, by decide +kernel⟩
  have hres : files.resolve appDir = .ok app := by decide +kernel
  have happ : files.isFolder appDir = true := by decide +kernel
  have hlinks : LinkFree files app := by
    intro l target _ h
    simp [files] at h
  exact ⟨⟨hw, hres, happ, hlinks⟩, discover_bijective hw hres happ hlinks "page.goo"⟩

/-- Slashes at the end of the path of a folder change nothing until the path is too long. -/
theorem resolve_slashes {place : Location} (h : files.resolve p = .ok place) (hfolder : files.isFolderAt place = true)
    (count : Nat) (hsize : p.text.utf8ByteSize + count ≤ FileTree.maxPathBytes) :
    (⟨p.text ++ String.ofList (List.replicate count '/')⟩ : Path).text.utf8ByteSize = p.text.utf8ByteSize + count ∧
      files.resolve ⟨p.text ++ String.ofList (List.replicate count '/')⟩ = .ok place := by
  induction count with
  | zero => simpa using h
  | succ count ih =>
    obtain ⟨hlong, hres⟩ := ih (by omega)
    have hmore : p.text ++ String.ofList (List.replicate (count + 1) '/') =
        p.text ++ String.ofList (List.replicate count '/') ++ "/" := by
      rw [List.replicate_succ', String.ofList_append, String.append_assoc]
    have hstep := FileTree.resolve_slash hres hfolder (by omega)
    rw [hmore]
    refine ⟨?_, hstep⟩
    rw [String.utf8ByteSize_append, hlong]
    exact Nat.add_assoc ..

/-- Below an app folder that is spelled with as many bytes as a path can have, no folder is
    listed. -/
theorem PageFolder.eq_nil (hw : files.WellFormed) (h : PageFolder files appDir app entryFile dirs)
    (hsize : appDir.text.utf8ByteSize = FileTree.maxPathBytes) : dirs = [] := by
  obtain ⟨hdirs, -⟩ := h.isName hw
  cases dirs with
  | nil => rfl
  | cons d dirs =>
    have hjoin := Path.size_join_lt (hdirs d (by simp)).1 appDir
    have hsteps : ∀ n ∈ dirs, (Segment.name n).IsStep := fun n hn => (hdirs n (by simp [hn])).1
    have hbelow := Path.size_below_le hsteps (appDir.join ⟨d⟩)
    have hshort : ((appDir.join ⟨d⟩).below dirs).text.utf8ByteSize ≤ FileTree.maxPathBytes := h.2
    omega

/-- A page that has no route, as the path of its folder has become too long. -/
theorem discover_misses_page_of_long_path :
    let files : FileTree := { entries := [(["app"], .folder none), (["app", "blog"], .folder none),
      (["app", "blog", "page.goo"], .file (some "a") 1)] }
    let appDir : Path := ⟨"app" ++ String.ofList (List.replicate 4092 '/')⟩
    let app : Location := ["app"]
    (files.WellFormed ∧ files.resolve appDir = .ok app ∧ files.isFolder appDir = true ∧ LinkFree files app) ∧
      (app ++ ["blog"] ++ ["page.goo"], Entry.file (some "a") 1) ∈ files.entries ∧
        discover files appDir "page.goo" = [] := by
  intro files appDir app
  have hw : files.WellFormed := ⟨by decide +kernel, by decide +kernel, by decide +kernel⟩
  have hlinks : LinkFree files app := by
    intro l target _ h
    simp [files] at h
  have hfolder : files.isFolderAt app = true := by decide +kernel
  have hplain : files.resolve ⟨"app"⟩ = .ok app := by decide +kernel
  have hsize : "app".utf8ByteSize = 3 := by decide
  have hmost : FileTree.maxPathBytes = 4095 := rfl
  obtain ⟨hlong, hres⟩ := resolve_slashes hplain hfolder 4092 (by rw [hsize, hmost])
  have hempty : ∀ path : Path, path.text.utf8ByteSize = "app".utf8ByteSize + 4092 →
      files.resolve path = .ok app → files.isFolder path = true ∧ discover files path "page.goo" = [] := by
    intro path hlong hres
    rw [hsize] at hlong
    refine ⟨?_, List.eq_nil_iff_forall_not_mem.mpr fun r hr => ?_⟩
    · unfold FileTree.isFolder FileTree.lookup
      rw [hres]
      rfl
    · obtain ⟨dirs, hpage, -⟩ := (mem_discover_iff hw hres hfolder hlinks).mp hr
      have hdirs := hpage.eq_nil hw (by omega)
      obtain ⟨⟨text, m, hmem⟩, -⟩ := hpage
      simp [hdirs, files, app] at hmem
  obtain ⟨happ, hnone⟩ := hempty _ hlong hres
  exact ⟨⟨hw, hres, happ, hlinks⟩, by simp [files, app], hnone⟩

end ComponentSite.Route
