/-
  ComponentSite.Proofs.CompileOutcome — which pages compile, and what the others fail at.

  A new compiler compiles a page exactly if the page has markup, every source that its
  imports lead to can be read and scanned, and none of these imports itself in the end
  (`Compiles`); otherwise the cause of the failure names such a source and what is wrong
  with it (`FaultBelow`). One direction is that the graph has the imports that the files
  have, and no cycles. For the other a compile fails only at a source that is in progress,
  at one that cannot be taken, or below an import that fails so (`Fails`): the recursion does
  not run out of depth, because the sources being compiled are all different (`Room`), and
  there are fewer paths that can be read than levels (`length_lt_maxDepth`).
-/
import ComponentSite.Proofs.GraphOrder
import Mathlib.Data.Nat.Digits.Lemmas
import Mathlib.Order.Interval.Finset.Nat

namespace ComponentSite
open Compile

/-! ## Depth -/

/-- The bytes of a text as the digits of a number, with one more digit in front. -/
def byteCode (s : String) : Nat :=
  Nat.ofDigits 256 (s.toByteArray.data.toList.map UInt8.toNat ++ [1])

theorem digits_byteCode (s : String) :
    Nat.digits 256 (byteCode s) = s.toByteArray.data.toList.map UInt8.toNat ++ [1] := by
  refine Nat.digits_ofDigits 256 (by decide) _ ?_ ?_
  · intro d hd
    rcases List.mem_append.mp hd with hd | hd
    · obtain ⟨byte, _, rfl⟩ := List.mem_map.mp hd
      exact byte.toNat_lt
    · rw [List.mem_singleton.mp hd]
      decide
  · intro _
    rw [List.getLast_append_singleton]
    decide

theorem byteCode_injective : Function.Injective byteCode := by
  intro s t h
  have hdigits := congrArg (Nat.digits 256) h
  rw [digits_byteCode, digits_byteCode] at hdigits
  have hbytes := List.map_injective_iff.mpr (fun _ _ => UInt8.toNat_inj.mp) (List.append_cancel_right hdigits)
  exact String.toByteArray_inj.mp (ByteArray.ext (Array.toList_inj.mp hbytes))

theorem byteCode_pos (s : String) : 0 < byteCode s := by
  rw [byteCode, Nat.ofDigits_append, Nat.ofDigits_singleton, mul_one]
  exact Nat.add_pos_right _ (Nat.pow_pos (by decide))

theorem byteCode_lt (s : String) : byteCode s < 256 ^ (s.utf8ByteSize + 1) := by
  have hlength : (Nat.digits 256 (byteCode s)).length = s.utf8ByteSize + 1 := by
    rw [digits_byteCode, List.length_append, List.length_map]
    rfl
  rw [← hlength]
  exact Nat.lt_base_pow_length_digits (by decide)

/-- There are fewer paths that can be read than the depth of the recursion. -/
theorem length_lt_maxDepth {paths : List Path} (hnodup : paths.Nodup)
    (hshort : ∀ p ∈ paths, p.text.utf8ByteSize ≤ FileTree.maxPathBytes) : paths.length < maxDepth := by
  have hdepth : maxDepth = 256 ^ (FileTree.maxPathBytes + 1) := by
    have hexp : 256 * 128 = 8 * (FileTree.maxPathBytes + 1) := rfl
    have hbase : (256 : Nat) = 2 ^ 8 := rfl
    rw [hbase, ← pow_mul, ← hexp]
    exact (pow_mul 2 256 128).symm
  let codes := paths.map fun p => byteCode p.text
  have hcodes : codes.Nodup := hnodup.map fun p q h => congrArg Path.mk (byteCode_injective h)
  have hsubset : codes.toFinset ⊆ Finset.Ico 1 maxDepth := by
    intro code hcode
    obtain ⟨p, hp, rfl⟩ := List.mem_map.mp (List.mem_toFinset.mp hcode)
    refine Finset.mem_Ico.mpr ⟨byteCode_pos _, (byteCode_lt _).trans_le ?_⟩
    rw [hdepth]
    exact Nat.pow_le_pow_right (by decide) (Nat.succ_le_succ (hshort p hp))
  have hcard := Finset.card_le_card hsubset
  rw [List.toFinset_card_of_nodup hcodes, List.length_map, Nat.card_Ico] at hcard
  have hpos : 0 < maxDepth := hdepth ▸ Nat.pow_pos (by decide)
  omega

theorem FileTree.short_of_read {files : FileTree} {p : Path} {found : String × Int} (h : files.read p = .ok found) :
    p.text.utf8ByteSize ≤ maxPathBytes := by
  unfold read lookup resolve walkPath at h
  split at h
  · cases h
  · split at h
    · cases h
    · split at h
      · cases h
      · omega

namespace Compile

variable {files : FileTree} {options : CompileOptions}

/-! ## What the files say of a source -/

def Delimits (files : FileTree) (options : CompileOptions) (key : Path) (sections : Sections) : Prop :=
  ∃ raw modified, files.read key = .ok (raw, modified) ∧ Sections.extract options.markers raw key = .ok sections

/-- The source at a key can be read, has its sections and imports these. -/
def Scans (files : FileTree) (options : CompileOptions) (key : Path) (imports : List ImportReference) : Prop :=
  ∃ sections scanned, Delimits files options key sections ∧
    Imports.scan options.extension sections.script key = .ok scanned ∧ scanned.imports = imports

def Malformed (files : FileTree) (options : CompileOptions) (key : Path) (fault : Malformation) : Prop :=
  (∃ raw modified, files.read key = .ok (raw, modified) ∧
    Sections.extract options.markers raw key = .error (.malformedSource key fault)) ∨
  ∃ sections, Delimits files options key sections ∧
    Imports.scan options.extension sections.script key = .error (.malformedSource key fault)

def SourceImports (files : FileTree) (options : CompileOptions) (importer key : Path) : Prop :=
  ∃ imports, Scans files options importer imports ∧ ∃ i ∈ imports, importer.resolveImport i.raw = key

/-- Imports lead from `top` to `key`, which may be `top` itself. -/
abbrev Leads (files : FileTree) (options : CompileOptions) : Path → Path → Prop :=
  Relation.ReflTransGen (SourceImports files options)

/-- Imports lead from `key` back to it. -/
def OnCycle (files : FileTree) (options : CompileOptions) (key : Path) : Prop :=
  Relation.TransGen (SourceImports files options) key key

structure Compiles (files : FileTree) (options : CompileOptions) (page : Path) : Prop where
  /-- Other sources do not need markup. -/
  markup : ∃ sections, Delimits files options page sections ∧ sections.hasMarkup = true
  sound : ∀ key, Leads files options page key → ∃ imports, Scans files options key imports
  acyclic : ∀ key, Leads files options page key → ¬ OnCycle files options key

/-- The failure names a source that the page leads to, and is right about it. -/
inductive FaultBelow (files : FileTree) (options : CompileOptions) (page : Path) : SiteError → Prop
  | unreadable {key : Path} {cause : ReadFailure} : Leads files options page key →
      files.read key = .error cause → FaultBelow files options page (.sourceNotFound key cause)
  | malformed {key : Path} {fault : Malformation} : Leads files options page key →
      Malformed files options key fault → FaultBelow files options page (.malformedSource key fault)
  | noMarkup {sections : Sections} : Delimits files options page sections → sections.hasMarkup = false →
      FaultBelow files options page (.malformedSource page .noMarkup)
  | cyclic {key : Path} : Leads files options page key → OnCycle files options key →
      FaultBelow files options page (.cyclicImport key)

/-! ## Reading a source -/

theorem Delimits.unique {key : Path} {sections sections' : Sections} (h : Delimits files options key sections)
    (h' : Delimits files options key sections') : sections = sections' := by
  obtain ⟨raw, modified, hread, hextract⟩ := h
  obtain ⟨raw', modified', hread', hextract'⟩ := h'
  cases hread.symm.trans hread'
  cases hextract.symm.trans hextract'
  rfl

theorem Scans.unique {key : Path} {imports imports' : List ImportReference} (h : Scans files options key imports)
    (h' : Scans files options key imports') : imports = imports' := by
  obtain ⟨sections, scanned, hdelimits, hscan, rfl⟩ := h
  obtain ⟨sections', scanned', hdelimits', hscan', rfl⟩ := h'
  cases hdelimits.unique hdelimits'
  cases hscan.symm.trans hscan'
  rfl

theorem Malformed.not_scans {key : Path} {fault : Malformation} (h : Malformed files options key fault)
    (imports : List ImportReference) : ¬ Scans files options key imports := by
  rintro ⟨sections, scanned, hdelimits, hscan, -⟩
  rcases h with ⟨raw, modified, hread, hfault⟩ | ⟨sections', hdelimits', hfault⟩
  · obtain ⟨raw', modified', hread', hextract⟩ := hdelimits
    cases hread.symm.trans hread'
    cases hfault.symm.trans hextract
  · cases hdelimits.unique hdelimits'
    cases hfault.symm.trans hscan

theorem scans_of_readSource {isPage : Bool} {key : Path} {source : ReadSource}
    (h : readSource files options isPage key = .ok source) :
    Scans files options key source.scanned.imports ∧
      (isPage = true → ∃ sections, Delimits files options key sections ∧ sections.hasMarkup = true) := by
  obtain ⟨hread, hextract, hscan, hmarkup⟩ := readSource_ok h
  have hdelimits : Delimits files options key source.sections := ⟨_, _, hread, hextract⟩
  exact ⟨⟨_, _, hdelimits, hscan, rfl⟩, fun hpage => ⟨_, hdelimits, hmarkup hpage⟩⟩

theorem extract_eq_error {m : SectionMarkers} {raw : String} {key : Path} {e : SiteError}
    (h : Sections.extract m raw key = .error e) : ∃ fault, e = .malformedSource key fault := by
  unfold Sections.extract Except.mapError at h
  split at h
  · cases h
    exact ⟨_, rfl⟩
  · cases h

theorem scan_eq_error {extension script : String} {key : Path} {e : SiteError}
    (h : Imports.scan extension script key = .error e) : ∃ fault, e = .malformedSource key fault := by
  unfold Imports.scan at h
  split at h
  · cases h
  · cases h
    exact ⟨_, rfl⟩

/-- Why a source is not taken: its file cannot be read, or something is wrong with its text;
    a page has to have markup besides. -/
theorem readSource_eq_error {isPage : Bool} {key : Path} {e : SiteError}
    (h : readSource files options isPage key = .error e) :
    (∃ cause, e = .sourceNotFound key cause ∧ files.read key = .error cause) ∨
      ∃ fault, e = .malformedSource key fault ∧ (Malformed files options key fault ∨
        isPage = true ∧ fault = .noMarkup ∧ ∃ sections, Delimits files options key sections ∧
          sections.hasMarkup = false) := by
  unfold readSource at h
  cases hread : files.read key with
  | error cause =>
    rw [hread] at h
    cases h
    exact Or.inl ⟨cause, rfl, rfl⟩
  | ok found =>
    obtain ⟨raw, modified⟩ := found
    rw [hread] at h
    right
    cases hextract : Sections.extract options.markers raw key with
    | error e' =>
      simp only [Except.mapError, bind, Except.bind, hextract] at h
      cases h
      obtain ⟨fault, rfl⟩ := extract_eq_error hextract
      exact ⟨fault, rfl, Or.inl (Or.inl ⟨raw, modified, hread, hextract⟩)⟩
    | ok sections =>
      have hdelimits : Delimits files options key sections := ⟨raw, modified, hread, hextract⟩
      cases hmarkup : isPage && !sections.hasMarkup with
      | true =>
        simp [Except.mapError, bind, Except.bind, hextract, hmarkup] at h
        obtain ⟨hpage, hno⟩ := (Bool.and_eq_true _ _).mp hmarkup
        cases h
        exact ⟨.noMarkup, rfl, Or.inr ⟨hpage, rfl, sections, hdelimits, by simpa using hno⟩⟩
      | false =>
        cases hscan : Imports.scan options.extension sections.script key with
        | error e' =>
          simp [Except.mapError, bind, Except.bind, hextract, hmarkup, hscan] at h
          subst h
          obtain ⟨fault, rfl⟩ := scan_eq_error hscan
          exact ⟨fault, rfl, Or.inl (Or.inr ⟨sections, hdelimits, hscan⟩)⟩
        | ok scanned =>
          simp [Except.mapError, bind, Except.bind, hextract, hmarkup, hscan, pure, Except.pure] at h

/-- A source that cannot be read, below a page, is a fault of the page. -/
theorem fault_of_readSource {isPage : Bool} {page key : Path} {e : SiteError} (hlead : Leads files options page key)
    (hpage : isPage = true → key = page) (h : readSource files options isPage key = .error e) :
    FaultBelow files options page e := by
  rcases readSource_eq_error h with ⟨cause, rfl, hread⟩ | ⟨fault, rfl, hfault | ⟨hp, rfl, sections, hdelimits, hno⟩⟩
  · exact .unreadable hlead hread
  · exact .malformed hlead hfault
  · obtain rfl := hpage hp
    exact .noMarkup hdelimits hno

/-! ## A failed compile -/

theorem FaultBelow.rootCause_eq {page : Path} {e : SiteError} (h : FaultBelow files options page e) :
    e.rootCause = e := by
  cases h <;> rfl

theorem FaultBelow.not_compiles {page : Path} {e : SiteError} (h : FaultBelow files options page e) :
    ¬ Compiles files options page := by
  rintro ⟨⟨sections, hdelimits, hmarkup⟩, hsound, hacyclic⟩
  cases h with
  | unreadable hlead hfail =>
    obtain ⟨_, _, _, ⟨_, _, hread, _⟩, _⟩ := hsound _ hlead
    cases hfail.symm.trans hread
  | malformed hlead hfault =>
    obtain ⟨imports, hscans⟩ := hsound _ hlead
    exact hfault.not_scans imports hscans
  | noMarkup hdelimits' hno =>
    cases hdelimits.unique hdelimits'
    cases hno.symm.trans hmarkup
  | cyclic hlead hcycle => exact hacyclic _ hlead hcycle

theorem compileImports_eq_error
    {compile : Path → String → ComponentGraph → Except SiteError Path × ComponentGraph} {importer : Path}
    {imports : List ImportReference} {done : List Path} {g : ComponentGraph} {e : SiteError}
    (h : (compileImports compile importer imports done g).1 = .error e) :
    ∃ i ∈ imports, ∃ g' cause, (compile (importer.resolveImport i.raw) i.displayName g').1 = .error cause ∧
      e = .importFailed importer i.raw cause := by
  induction imports generalizing done g with
  | nil => cases h
  | cons i rest ih =>
    rw [compileImports] at h
    rcases hc : compile (importer.resolveImport i.raw) i.displayName g with ⟨result, g'⟩
    rw [hc] at h
    cases result with
    | error cause =>
      cases h
      exact ⟨i, List.mem_cons_self, g, cause, by rw [hc], rfl⟩
    | ok child =>
      obtain ⟨j, hj, hfail⟩ := ih h
      exact ⟨j, List.mem_cons_of_mem i hj, hfail⟩

/-- The sources above are different keys and could be read, and with this depth there is
    room for all the others. -/
structure Room (files : FileTree) (above : List Path) (depth : Nat) : Prop where
  keys : ∀ k ∈ above, k.IsKey
  nodup : above.Nodup
  reads : ∀ k ∈ above, ∃ found, files.read k = .ok found
  depth_eq : above.length + depth = maxDepth

theorem room_start (files : FileTree) : Room files [] maxDepth := ⟨by simp, List.nodup_nil, by simp, Nat.zero_add _⟩

theorem Room.not_zero {above : List Path} : ¬ Room files above 0 := by
  intro h
  have hlt := length_lt_maxDepth h.nodup fun k hk => FileTree.short_of_read (h.reads k hk).choose_spec
  have := h.depth_eq
  omega

theorem Room.down {above : List Path} {depth : Nat} (h : Room files above (depth + 1)) {key : Path} (hkey : key.IsKey)
    (hnew : key ∉ above) {found : String × Int} (hread : files.read key = .ok found) :
    Room files (key :: above) depth where
  keys k hk := by
    rcases List.mem_cons.mp hk with rfl | hk
    · exact hkey
    · exact h.keys k hk
  nodup := List.nodup_cons.mpr ⟨hnew, h.nodup⟩
  reads k hk := by
    rcases List.mem_cons.mp hk with rfl | hk
    · exact ⟨found, hread⟩
    · exact h.reads k hk
  depth_eq := by
    have := h.depth_eq
    rw [List.length_cons]
    omega

theorem not_mem_of_any_same {above : List Path} {key : Path} (h : above.any (·.same key) = false) : key ∉ above :=
  fun hmem => Bool.false_ne_true (h.symm.trans (List.any_eq_true.mpr ⟨key, hmem, Path.same_refl key⟩))

/-- How the compile of the source at a key fails while those above are being compiled: it is
    one of them, it cannot be taken, or one of its imports fails below it. -/
inductive Fails (files : FileTree) (options : CompileOptions) : List Path → Bool → Path → SiteError → Prop
  | cyclic {above : List Path} {isPage : Bool} {key : Path} : key ∈ above →
      Fails files options above isPage key (.cyclicImport key)
  | unfit {above : List Path} {isPage : Bool} {key : Path} {e : SiteError} : key ∉ above →
      readSource files options isPage key = .error e → Fails files options above isPage key e
  | imported {above : List Path} {isPage : Bool} {key : Path} {source : ReadSource}
    {i : ImportReference} {cause : SiteError} :
      key ∉ above → readSource files options isPage key = .ok source → i ∈ source.scanned.imports →
      Fails files options (key :: above) false (key.resolveImport i.raw) cause →
      Fails files options above isPage key (.importFailed key i.raw cause)

/-- A compile fails in no other way: there is depth left for all sources that are not above. -/
theorem compileSource_fails (depth : Nat) {above : List Path} (hroom : Room files above depth)
    {isPage : Bool} {path : Path}
    {name : String} {g : ComponentGraph} {e : SiteError}
    (h : (compileSource files options depth above isPage path name g).1 = .error e) :
    Fails files options above isPage path.normalize e := by
  induction depth generalizing above isPage path name g e with
  | zero => exact absurd hroom Room.not_zero
  | succ depth ih =>
    have hkey := Path.isKey_normalize path
    rw [compileSource_succ] at h
    split at h
    · cases h
    · split at h
      · rename_i hcycle
        cases h
        obtain ⟨a, ha, hsame⟩ := List.any_eq_true.mp hcycle
        exact .cyclic ((Path.same_iff (hroom.keys a ha) hkey).mp hsame ▸ ha)
      · rename_i hnot
        rw [Bool.not_eq_true] at hnot
        have hnew := not_mem_of_any_same hnot
        split at h
        · rename_i e' hread
          cases h
          exact .unfit hnew hread
        · rename_i source hread
          rcases hc : compileImports (compileSource files options depth (path.normalize :: above) false)
            path.normalize source.scanned.imports [] g with ⟨result, g'⟩
          rw [hc] at h
          cases result with
          | ok children => cases h
          | error cause =>
            cases h
            obtain ⟨i, hi, g₁, cause', hfail, rfl⟩ := compileImports_eq_error (congrArg Prod.fst hc)
            -- the source could be read and is not above, so a depth less is room enough below it
            have hbelow := ih (hroom.down hkey hnew (readSource_ok hread).1) hfail
            rw [Path.isKey_resolveImport] at hbelow
            exact .imported hnew hread hi hbelow

structure Above (files : FileTree) (options : CompileOptions) (page : Path)
    (above : List Path) (key : Path) : Prop where
  lead : Leads files options page key
  leadsOn : ∀ a ∈ above, Relation.TransGen (SourceImports files options) a key

theorem Above.down {page key next : Path} {above : List Path} (h : Above files options page above key)
    (himport : SourceImports files options key next) : Above files options page (key :: above) next := by
  refine ⟨h.lead.tail himport, fun a ha => ?_⟩
  rcases List.mem_cons.mp ha with rfl | ha
  · exact .single himport
  · exact (h.leadsOn a ha).tail himport

/-- Whatever a compile fails at is a fault of the page it stands below. -/
theorem Fails.faultBelow {page key : Path} {above : List Path} {isPage : Bool} {e : SiteError}
    (h : Fails files options above isPage key e) (habove : Above files options page above key)
    (hpage : isPage = true → key = page) : FaultBelow files options page e.rootCause := by
  induction h with
  | cyclic hmem => exact .cyclic habove.lead (habove.leadsOn _ hmem)
  | unfit _ hread =>
    have hfault := fault_of_readSource habove.lead hpage hread
    rwa [hfault.rootCause_eq]
  | imported _ hread hi _ ih =>
    have himport : SourceImports files options _ _ := ⟨_, (scans_of_readSource hread).1, _, hi, rfl⟩
    exact ih (habove.down himport) nofun

end Compile

/-! ## A compile that succeeds -/

namespace ComponentGraph

variable {files : FileTree} {options : CompileOptions} {g : ComponentGraph}

/-- The components of the graph are what these files say. -/
structure Reflects (files : FileTree) (options : CompileOptions) (g : ComponentGraph) : Prop where
  ordered : g.Ordered
  linked : AllLinked options g
  scans : ∀ c ∈ g.components, Scans files options c.sourcePath (importsOf options c)

/-- The graph of a compiler with these files reflects them. -/
theorem reflects_of_run {asked : Path → String → Prop} (hrun : Run files options asked empty g) :
    Reflects files options g := by
  have hg := hrun.ordered ordered_empty
  refine ⟨hg, hrun.allLinked (by simp [AllLinked, empty]), ?_⟩
  refine hrun.forall_components (P := fun c => Scans files options c.sourcePath (importsOf options c)) ?_ ?_
    (fun _ hk => hg.isKey_of_mem hk) (by simp [empty])
  · intro c name hc _
    have he := Component.Extends.bind c name
    rwa [he.sourcePath_eq, importsOf_of_extends he]
  · intro g key name isPage source children _ hread
    rw [importsOf_finish hread]
    exact (scans_of_readSource hread).1

namespace Reflects

variable (h : Reflects files options g)
include h

theorem imports {a b : Path} (ha : a ∈ g.keys) (hab : SourceImports files options a b) : g.Imports a b := by
  obtain ⟨c, hc, rfl⟩ := mem_keys.mp ha
  obtain ⟨imports, himports, i, hi, rfl⟩ := hab
  obtain rfl := himports.unique (h.scans c hc)
  refine (h.ordered.imports_iff hc).mpr ?_
  rw [(h.linked c hc).children_eq, List.mem_eraseDups]
  exact List.mem_map_of_mem hi

theorem reaches {a b : Path} (ha : a ∈ g.keys) (hab : Relation.TransGen (SourceImports files options) a b) :
    g.Reaches a b := by
  induction hab with
  | single hab => exact .single (h.imports ha hab)
  | tail _ hbc ih => exact ih.tail (h.imports (h.ordered.reaches_mem ih) hbc)

theorem mem_keys {a b : Path} (ha : a ∈ g.keys) (hab : Leads files options a b) : b ∈ g.keys := by
  rcases Relation.reflTransGen_iff_eq_or_transGen.mp hab with rfl | hab
  · exact ha
  · exact h.ordered.reaches_mem (h.reaches ha hab)

theorem compiles {page : Path} (hpage : page ∈ g.keys)
    (hmarkup : ∃ sections, Delimits files options page sections ∧ sections.hasMarkup = true) :
    Compiles files options page where
  markup := hmarkup
  sound k hlead := by
    obtain ⟨c, hc, rfl⟩ := ComponentGraph.mem_keys.mp (h.mem_keys hpage hlead)
    exact ⟨_, h.scans c hc⟩
  acyclic k hlead hcycle := h.ordered.not_reaches_self k (h.reaches (h.mem_keys hpage hlead) hcycle)

end Reflects

/-- A page that is not in the graph is read before anything else. -/
theorem readSource_of_compilePage {path key : Path} {name : String} (hout : g.contains path.normalize = false)
    (h : (g.compilePage files options path name).1 = .ok key) :
    ∃ source, readSource files options true path.normalize = .ok source := by
  obtain ⟨depth, hdepth⟩ : ∃ depth, maxDepth = depth + 1 :=
    Nat.exists_eq_succ_of_ne_zero
      (Nat.pos_iff_ne_zero.mp (Nat.zero_lt_of_lt (length_lt_maxDepth List.nodup_nil (by simp))))
  rw [compilePage, hdepth, compileSource_succ, hout] at h
  cases hread : readSource files options true path.normalize with
  | error e =>
    rw [hread] at h
    cases h
  | ok source => exact ⟨source, rfl⟩

/-- A page that was compiled had what it needs. -/
theorem compiles_of_compilePage {path key : Path} {name : String}
    (h : (empty.compilePage files options path name).1 = .ok key) : Compiles files options path.normalize := by
  have hran := compile_ran files options true path name ordered_empty
  rw [← compilePage] at hran
  obtain ⟨rfl, page, hpage, hkey, -⟩ := hran.found key h
  refine (reflects_of_run hran.run).compiles (mem_keys.mpr ⟨page, hpage, hkey⟩) ?_
  obtain ⟨source, hread⟩ := readSource_of_compilePage rfl h
  exact (scans_of_readSource hread).2 rfl

/-- A page fails to compile only at a fault below it. -/
theorem fault_of_compilePage {path : Path} {name : String} {e : SiteError}
    (h : (g.compilePage files options path name).1 = .error e) :
    FaultBelow files options path.normalize e.rootCause :=
  (compileSource_fails maxDepth (room_start files) h).faultBelow ⟨.refl, by simp⟩ fun _ => rfl

/-- With a new compiler, a page compiles exactly if it has what it needs, and otherwise
    the cause is a fault below it. -/
theorem compilePage_ok_iff (files : FileTree) (options : CompileOptions) (path : Path) (name : String) :
    ((∃ key, (empty.compilePage files options path name).1 = .ok key) ↔ Compiles files options path.normalize) ∧
      ∀ e, (empty.compilePage files options path name).1 = .error e →
        FaultBelow files options path.normalize e.rootCause := by
  refine ⟨⟨fun ⟨key, h⟩ => compiles_of_compilePage h, fun hcompiles => ?_⟩, fun e => fault_of_compilePage⟩
  cases h : (empty.compilePage files options path name).1 with
  | ok key => exact ⟨key, rfl⟩
  | error e => exact absurd hcompiles (fault_of_compilePage h).not_compiles

/-- Two ways lead from the page to the sources `b.goo` and `c.goo`, which import each other;
    without the import in `b.goo` the page compiles. -/
theorem outcome_of_shared_imports :
    let page : Path := ⟨"p.goo"⟩
    let options : CompileOptions := { classOf := fun p => p.text }
    let project (b : String) : FileTree := { entries := [
      (["p.goo"], .file
        (some "<script>import A from './a.goo'\nimport B from './b.goo'</script><component></component>") 1),
      (["a.goo"], .file (some "<script>import C from './c.goo'</script>") 1),
      (["b.goo"], .file (some b) 1),
      (["c.goo"], .file (some "<script>import B from './b.goo'</script>") 1)] }
    let cyclic := project "<script>import C from './c.goo'</script>"
    let mended := project "<style>i</style>"
    (FaultBelow cyclic options page.normalize (.cyclicImport ⟨"c.goo"⟩) ∧ ¬ Compiles cyclic options page.normalize) ∧
      Compiles mended options page.normalize := by
  intro page options project cyclic mended
  constructor
  · have hfail : (empty.compilePage cyclic options page "Page").1 = .error (.importFailed page "./a.goo"
        (.importFailed ⟨"a.goo"⟩ "./c.goo" (.importFailed ⟨"c.goo"⟩ "./b.goo"
          (.importFailed ⟨"b.goo"⟩ "./c.goo" (.cyclicImport ⟨"c.goo"⟩))))) := by decide +kernel
    obtain ⟨hiff, hfault⟩ := compilePage_ok_iff cyclic options page "Page"
    refine ⟨hfault _ hfail, fun hcompiles => ?_⟩
    obtain ⟨key, hok⟩ := hiff.mpr hcompiles
    cases hfail.symm.trans hok
  · have hok : (empty.compilePage mended options page "Page").1 = .ok page := by decide +kernel
    exact (compilePage_ok_iff mended options page "Page").1.mp ⟨page, hok⟩

end ComponentGraph

end ComponentSite
