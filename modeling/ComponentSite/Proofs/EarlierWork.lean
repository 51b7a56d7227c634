/-
  ComponentSite.Proofs.EarlierWork — what a page owes to the calls before it and after it.

  While the files stay as they are, what a compiler has in its graph is what the files say,
  whatever it was called for (`reflects_of_run`). So a page compiles there exactly if it
  compiles with a new compiler, and below it stand the same sources in the same order
  (`Reflects.descendants_eq`). Only names can be more: a component keeps those that other
  pages and other calls gave it. Flattening fails exactly at a name that two sources below
  the page have (`flatten_eq_error_iff`), so it can fail for a name that neither the page
  nor what it imports gives to both of them, and for no other reason than with a new
  compiler (`page_beside_earlier_work`).

  The one page that is not read again is one whose source is in the graph without being a
  page: nothing asks it for markup then (`earlier_work_shows`).
-/
import ComponentSite.Proofs.CompileOutcome
import ComponentSite.Proofs.Flattening
import ComponentSite.Proofs.NameOrigins

namespace ComponentSite.ComponentGraph
open Compile

/-! ## Two graphs of the same files -/

namespace Reflects

variable {files : FileTree} {options : CompileOptions} {g g' : ComponentGraph}

theorem reaches_iff (h : Reflects files options g) {a b : Path} (ha : a ∈ g.keys) :
    g.Reaches a b ↔ Relation.TransGen (SourceImports files options) a b := by
  refine ⟨fun hab => ?_, h.reaches ha⟩
  refine Relation.TransGen.mono (fun x y hxy => ?_) a b hab
  obtain ⟨c, hc, rfl, hy⟩ := hxy
  rw [(h.linked c hc).children_eq, List.mem_eraseDups] at hy
  obtain ⟨i, hi, rfl⟩ := List.mem_map.mp hy
  exact ⟨_, h.scans c hc, i, hi, rfl⟩

/-- What a source reaches, and in which order, the files say. -/
theorem descendants_eq (h : Reflects files options g) (h' : Reflects files options g') {c c' : Component}
    (hc : c ∈ g.components) (hc' : c' ∈ g'.components) (e : c'.sourcePath = c.sourcePath) :
    c'.descendants = c.descendants := by
  refine h.ordered.induction (motive := fun c => ∀ c' ∈ g'.components, c'.sourcePath = c.sourcePath →
    c'.descendants = c.descendants) ?_ c hc c' hc' e
  intro c hc ih c' hc' e
  have himports : importsOf options c' = importsOf options c :=
    (e ▸ h'.scans c' hc').unique (h.scans c hc)
  have hchildren : c'.children = c.children := by
    rw [(h'.linked c' hc').children_eq, (h.linked c hc).children_eq, himports, e]
  rw [h'.ordered.descendants c' hc', h.ordered.descendants c hc, hchildren, reached, reached]
  congr 1
  refine List.flatMap_congr fun k hk => ?_
  obtain ⟨d, hd, rfl⟩ := ComponentGraph.mem_keys.mp (h.ordered.child_mem hc hk)
  obtain ⟨d', hd', e'⟩ := ComponentGraph.mem_keys.mp (h'.ordered.child_mem hc' (hchildren ▸ hk))
  have hkey := h.ordered.isKey d hd
  rw [(h.ordered.get?_eq_some hkey).mpr ⟨hd, rfl⟩, (h'.ordered.get?_eq_some hkey).mpr ⟨hd', e'⟩]
  exact congrArg (d.sourcePath :: ·) (ih d hd hk d' hd' e')

end Reflects

/-! ## Names of the page's own -/

/-- The page, or a source that it leads to, imports the source at `key` under this name. -/
def NamedBelow (files : FileTree) (options : CompileOptions) (page key : Path) (name : String) : Prop :=
  ∃ importer imports, Leads files options page importer ∧ Scans files options importer imports ∧
    ∃ i ∈ imports, importer.resolveImport i.raw = key ∧ i.displayName = name

section Names

variable {files : FileTree} {options : CompileOptions} {g : ComponentGraph}

theorem Reflects.bound (h : Reflects files options g) {page k : Path} (hpage : page ∈ g.keys) {n : String}
    (hnamed : NamedBelow files options page k n) : g.Bound k n := by
  obtain ⟨importer, imports, hlead, hscans, i, hi, rfl, rfl⟩ := hnamed
  obtain ⟨c, hc, rfl⟩ := ComponentGraph.mem_keys.mp (h.mem_keys hpage hlead)
  obtain rfl := hscans.unique (h.scans c hc)
  exact (h.linked c hc).bound i hi

theorem Requested.namedBelow {call : Call} {before later : ComponentGraph} {isPage : Bool} {k : Path} {n : String}
    (h : Requested options call before later isPage k n) :
    Leads call.files options call.path.normalize k ∧
      (k = call.path.normalize ∨ NamedBelow call.files options call.path.normalize k n) := by
  induction h with
  | called => exact ⟨.refl, Or.inl rfl⟩
  | @imported _ importer _ source done rest i _ _ hread hsplit _ ih =>
    have hscans := (scans_of_readSource hread).1
    have hi : i ∈ source.scanned.imports := by rw [hsplit]; simp
    exact ⟨ih.1.tail ⟨_, hscans, i, hi, rfl⟩, Or.inr ⟨importer, _, ih.1, hscans, i, hi, rfl, rfl⟩⟩

/-- The only call of a compiler gives no names but those below its source. -/
theorem namedBelow_of_bound {call : Call} {k : Path} {n : String} (h : (after options [call]).Bound k n) :
    k = call.path.normalize ∨ NamedBelow call.files options call.path.normalize k n := by
  obtain ⟨before, call', later, isPage, hcalls, hrequest⟩ := requested_of_bound options h
  obtain ⟨rfl, rfl⟩ : before = [] ∧ call = call' := by
    cases before with
    | nil => exact ⟨rfl, (List.cons.inj hcalls).1⟩
    | cons c before => simp at hcalls
  exact hrequest.namedBelow.2

end Names

/-! ## A page among other calls -/

section Calls

variable {files : FileTree} {options : CompileOptions}

theorem run_later (options : CompileOptions) (earlier : List Call) {later : List Call}
    (h : ∀ call ∈ later, call.files = files) :
    Run files options Any (after options earlier) (after options (earlier ++ later)) := by
  induction later using List.reverseRecOn with
  | nil => rw [List.append_nil]
  | append_singleton later call ih =>
    have hg := (reachable_after options (earlier ++ later)).inv.1
    rw [← List.append_assoc, after_concat, Call.answer_eq, h call (by simp)]
    exact (ih fun c hc => h c (by simp [hc])).trans (grows_compile files options maxDepth [] call.isPage _ _ hg).run

theorem reflects_after (options : CompileOptions) {calls : List Call} (h : ∀ call ∈ calls, call.files = files) :
    Reflects files options (after options calls) :=
  reflects_of_run (run_later options [] h)

/-- Flattening the page comes to the same, except that it may fail where a name came to
    two sources in another way than through the page. -/
structure FlattensAs (files : FileTree) (options : CompileOptions) (page : Path)
    (fresh now : ComponentGraph) : Prop where
  sources : ∀ flat, now.flatten page = .ok flat →
    ∃ flat', fresh.flatten page = .ok flat' ∧ flat.map (·.sourcePath) = flat'.map (·.sourcePath)
  ambiguous : ∀ e, now.flatten page = .error e → ∃ n a b, e = .ambiguousName n a b ∧ now.Clash page n a b
  fails_iff : (∃ e, now.flatten page = .error e) ↔ (∃ e, fresh.flatten page = .error e) ∨
    ∃ n a b, now.Clash page n a b ∧ ¬ (NamedBelow files options page a n ∧ NamedBelow files options page b n)

/-- Two graphs of the same files in which the page was compiled, `fresh` with no names but
    those below the page. -/
theorem flattensAs_of_reflects {page : Path} {fresh now : ComponentGraph} (hfresh : Reflects files options fresh)
    (hnow : Reflects files options now) (hpage : page ∈ fresh.keys) (hpage' : page ∈ now.keys)
    (hnames : ∀ k n, fresh.Bound k n → k = page ∨ NamedBelow files options page k n) :
    FlattensAs files options page fresh now := by
  have hreaches (k : Path) : now.Reaches page k ↔ fresh.Reaches page k :=
    (hnow.reaches_iff hpage').trans (hfresh.reaches_iff hpage).symm
  -- the page has names of its own, but it is not below itself
  have hown {k : Path} {n : String} (hk : fresh.Reaches page k) (hb : fresh.Bound k n) :
      NamedBelow files options page k n := by
    refine (hnames k n hb).resolve_left ?_
    rintro rfl
    exact hfresh.ordered.not_reaches_self k hk
  have hfails : (∃ e, now.flatten page = .error e) ↔ (∃ e, fresh.flatten page = .error e) ∨
      ∃ n a b, now.Clash page n a b ∧ ¬ (NamedBelow files options page a n ∧ NamedBelow files options page b n) := by
    rw [hnow.ordered.flatten_eq_error_iff hpage', hfresh.ordered.flatten_eq_error_iff hpage]
    constructor
    · rintro ⟨n, a, b, hclash⟩
      by_cases hboth : NamedBelow files options page a n ∧ NamedBelow files options page b n
      · refine Or.inl ⟨n, a, b, hclash.ne, (hreaches a).mp hclash.reaches_left,
          (hreaches b).mp hclash.reaches_right, ?_, ?_⟩
        · exact hfresh.bound hpage hboth.1
        · exact hfresh.bound hpage hboth.2
      · exact Or.inr ⟨n, a, b, hclash, hboth⟩
    · rintro (⟨n, a, b, hclash⟩ | ⟨n, a, b, hclash, -⟩)
      · refine ⟨n, a, b, hclash.ne, (hreaches a).mpr hclash.reaches_left, (hreaches b).mpr hclash.reaches_right, ?_, ?_⟩
        · exact hnow.bound hpage' (hown hclash.reaches_left hclash.bound_left)
        · exact hnow.bound hpage' (hown hclash.reaches_right hclash.bound_right)
      · exact ⟨n, a, b, hclash⟩
  obtain ⟨c, hc, rfl⟩ := mem_keys.mp hpage
  obtain ⟨c', hc', e⟩ := mem_keys.mp hpage'
  refine ⟨fun flat hflat => ?_, fun cause hfail => ?_, hfails⟩
  · cases hflat' : fresh.flatten c.sourcePath with
    | error cause =>
      obtain ⟨cause', hfail⟩ := hfails.mpr (Or.inl ⟨cause, hflat'⟩)
      cases hflat.symm.trans hfail
    | ok flat' =>
      rw [← e] at hflat
      refine ⟨flat', rfl, ?_⟩
      rw [hnow.ordered.map_flat hc' hflat, hfresh.ordered.map_flat hc hflat', hfresh.descendants_eq hnow hc hc' e]
  · rw [← e] at hfail ⊢
    exact hnow.ordered.clash_of_flatten hc' hfail

theorem mem_keys_of_answer {call : Call} {g : ComponentGraph} (hg : g.Ordered) {key : Path}
    (h : (call.answer options g).1 = .ok key) : key = call.path.normalize ∧ key ∈ (call.answer options g).2.keys := by
  have hran := compile_ran call.files options call.isPage call.path call.name hg
  rw [← Call.answer_eq] at hran
  obtain ⟨rfl, c, hc, hkey, -⟩ := hran.found key h
  exact ⟨rfl, mem_keys.mpr ⟨c, hc, hkey⟩⟩

/-- What a page comes to in a compiler that answered other calls, if its source is not
    there yet or has markup. -/
theorem answer_ok_iff {page : Call} (hpage : page.isPage = true) (earlier : List Call)
    (hearlier : ∀ call ∈ earlier, call.files = page.files)
    (hmarkup : page.path.normalize ∈ (after options earlier).keys →
      ∃ sections, Delimits page.files options page.path.normalize sections ∧ sections.hasMarkup = true) (key : Path) :
    (page.answer options (after options earlier)).1 = .ok key ↔
      key = page.path.normalize ∧ Compiles page.files options page.path.normalize := by
  have hg := (reachable_after options earlier).inv.1
  have hanswer : page.answer options (after options earlier) =
      (after options earlier).compilePage page.files options page.path page.name := by simp [Call.answer, hpage]
  constructor
  · intro hok
    obtain ⟨rfl, hmem⟩ := mem_keys_of_answer hg hok
    have hreflects : Reflects page.files options (page.answer options (after options earlier)).2 := by
      rw [← after_concat]
      exact reflects_after options (by simpa [or_imp, forall_and] using hearlier)
    refine ⟨rfl, hreflects.compiles hmem ?_⟩
    by_cases hin : page.path.normalize ∈ (after options earlier).keys
    · exact hmarkup hin
    · have hout : (after options earlier).contains page.path.normalize = false := by
        rw [← Bool.not_eq_true, hg.contains_iff (Path.isKey_normalize _)]
        exact hin
      obtain ⟨source, hread⟩ := readSource_of_compilePage hout (hanswer ▸ hok)
      exact (scans_of_readSource hread).2 rfl
  · rintro ⟨rfl, hcompiles⟩
    cases hfail : (page.answer options (after options earlier)).1 with
    | ok key => rw [(mem_keys_of_answer hg hfail).1]
    | error e => exact absurd hcompiles (fault_of_compilePage (hanswer ▸ hfail)).not_compiles

/-- With files that do not change, a page compiles in a compiler that answered other calls
    exactly if it compiles in a new one, unless its source is there already and has no
    markup. Below it are then the same sources, now and after any further calls; flattening
    fails where it fails with the new compiler, and else only at a name that two of these
    sources have, not both of them through the page. -/
theorem page_beside_earlier_work (options : CompileOptions) (page : Call) (hpage : page.isPage = true)
    (earlier later : List Call) (hfiles : ∀ call ∈ earlier ++ later, call.files = page.files)
    (hmarkup : page.path.normalize ∈ (after options earlier).keys →
      ∃ sections, Delimits page.files options page.path.normalize sections ∧ sections.hasMarkup = true) :
    (∀ key, (page.answer options (after options earlier)).1 = .ok key ↔ (page.answer options empty).1 = .ok key) ∧
      ∀ key, (page.answer options (after options earlier)).1 = .ok key →
        FlattensAs page.files options key (after options [page]) (after options (earlier ++ [page] ++ later)) := by
  have hearlier : ∀ call ∈ earlier, call.files = page.files := fun call hc => hfiles call (List.mem_append_left _ hc)
  have hlater : ∀ call ∈ later, call.files = page.files := fun call hc => hfiles call (List.mem_append_right _ hc)
  have hok := answer_ok_iff hpage earlier hearlier hmarkup
  have hok' (key : Path) : (page.answer options empty).1 = .ok key ↔ _ :=
    answer_ok_iff hpage [] (by simp) (by simp [after, keys, empty]) key
  refine ⟨fun key => (hok key).trans (hok' key).symm, fun key hkey => ?_⟩
  obtain ⟨rfl, hcompiles⟩ := (hok key).mp hkey
  have hfresh : Reflects page.files options (after options [page]) := reflects_after options (by simp)
  have hnow : Reflects page.files options (after options (earlier ++ [page] ++ later)) :=
    reflects_after options fun call hc => by
      rcases List.mem_append.mp hc with hc | hc
      · rcases List.mem_append.mp hc with hc | hc
        · exact hearlier call hc
        · rw [List.mem_singleton.mp hc]
      · exact hlater call hc
  have hmem := (mem_keys_of_answer ordered_empty ((hok' _).mpr ⟨rfl, hcompiles⟩)).2
  have hmem' : page.path.normalize ∈ (after options (earlier ++ [page] ++ later)).keys := by
    have hadded := (mem_keys_of_answer (reachable_after options earlier).inv.1 hkey).2
    rw [← after_concat] at hadded
    exact (run_later options (earlier ++ [page]) hlater).grows.mem_keys hadded
  exact flattensAs_of_reflects hfresh hnow hmem hmem' fun k n hb => namedBelow_of_bound hb

/-- A page that is in the graph already, as a component that another page calls by the name
    of its sibling. -/
theorem page_beside_renaming_page :
    let text := "<script>import A from './a.goo'\nimport B from './b.goo'</script><component><A/><B/></component>"
    let files : FileTree := { entries := [
      (["p.goo"], .file (some text) 1),
      (["q.goo"],
        .file (some "<script>import P from './p.goo'\nimport B from './a.goo'</script><component><P/></component>") 1),
      (["a.goo"], .file (some "<component>a</component>") 1),
      (["b.goo"], .file (some "<script>b()</script>") 1)] }
    let options : CompileOptions := { classOf := fun p => p.text }
    let page : Call := ⟨files, true, ⟨"p.goo"⟩, "Page"⟩
    let other : Call := ⟨files, true, ⟨"q.goo"⟩, "Page"⟩
    let earlier : List Call := [⟨files, false, ⟨"p.goo"⟩, "Panel"⟩]
    (page.answer options (after options earlier)).1 = .ok ⟨"p.goo"⟩ ∧
      FlattensAs files options ⟨"p.goo"⟩ (after options [page]) (after options (earlier ++ [page])) ∧
      FlattensAs files options ⟨"p.goo"⟩ (after options [page]) (after options (earlier ++ [page, other])) := by
  intro text files options page other earlier
  have hsections : ∃ sections, Delimits files options ⟨"p.goo"⟩ sections ∧ sections.hasMarkup = true := by
    refine ⟨⟨"import A from './a.goo'\nimport B from './b.goo'", "", "<A/><B/>", true⟩, ⟨text, 1, ?_, ?_⟩, rfl⟩
    · decide +kernel
    · decide +kernel
  have hok : (page.answer options (after options earlier)).1 = .ok ⟨"p.goo"⟩ := by decide +kernel
  have hkey : page.path.normalize = ⟨"p.goo"⟩ := by decide +kernel
  have hbeside (later : List Call) (hlater : ∀ call ∈ later, call.files = files) :=
    (page_beside_earlier_work options page rfl earlier later (by simpa [earlier, page] using hlater)
      fun _ => by rw [hkey]; exact hsections).2 _ hok
  exact ⟨hok, hbeside [] (by simp), hbeside [other] (by simp [other])⟩

/-- Two pages that give one name to different sources, and a component without markup:
    what a page comes to depends on the calls before it and after it. -/
theorem earlier_work_shows :
    let files : FileTree := { entries := [
      (["p.goo"], .file (some
        "<script>import A from './a.goo'\nimport B from './b.goo'</script><component><A/><B/></component>") 1),
      (["q.goo"], .file (some "<script>import B from './a.goo'</script><component><B/></component>") 1),
      (["a.goo"], .file (some "<component>a</component>") 1),
      (["b.goo"], .file (some "<script>b()</script>") 1)] }
    let options : CompileOptions := { classOf := fun p => p.text }
    let page : Call := ⟨files, true, ⟨"p.goo"⟩, "Page"⟩
    let other : Call := ⟨files, true, ⟨"q.goo"⟩, "Page"⟩
    let bare : Call := ⟨files, true, ⟨"b.goo"⟩, "Page"⟩
    let below (calls : List Call) := ((after options calls).flatten ⟨"p.goo"⟩).map (·.map (·.sourcePath))
    ((page.answer options empty).1 = .ok ⟨"p.goo"⟩ ∧ below [page] = .ok [⟨"a.goo"⟩, ⟨"b.goo"⟩]) ∧
      ((page.answer options (after options [other])).1 = .ok ⟨"p.goo"⟩ ∧
        below [other, page] = .error (.ambiguousName "B" ⟨"a.goo"⟩ ⟨"b.goo"⟩)) ∧
      below [page, other] = .error (.ambiguousName "B" ⟨"a.goo"⟩ ⟨"b.goo"⟩) ∧
      (bare.answer options empty).1 = .error (.malformedSource ⟨"b.goo"⟩ .noMarkup) ∧
      (bare.answer options (after options [page])).1 = .ok ⟨"b.goo"⟩ := by
  intro files options page other bare below
  decide +kernel

end Calls

end ComponentSite.ComponentGraph
