/-
  ComponentSite.Proofs.CompiledElements — the custom elements of compiled components.

  With custom elements a compile takes the steps that it takes without them, and each of its
  components gets the element of its source (`Component.withElement`, `after_withElements`).
  A source is asked for by any spelling of its path (`after_normal`). So the spelling of the
  app folder comes into the graph by the names of the elements only, and they are the same
  under two spellings as far as `CustomElement.forPath` gives them so
  (`elements_of_spellings`).
-/
import ComponentSite.Config
import ComponentSite.Proofs.ElementNames
import ComponentSite.Proofs.NameOrigins
import ComponentSite.Proofs.Retouching

namespace ComponentSite
open Compile

/-! ## Elements as a finishing touch -/

/-- The options with elements named after this folder, or without elements. -/
def CompileOptions.withElements (options : CompileOptions) (folder : Option Path) : CompileOptions :=
  { options with webComponents := folder }

def Component.withElement (folder : Option Path) (c : Component) : Component :=
  { c with
    fragments :=
      Fragment.generate c.scopeClass c.script c.markup c.style (folder.map (CustomElement.forPath c.sourcePath)) }

namespace Component

variable (folder : Option Path) (c : Component)

@[simp] theorem withElement_sourcePath : (c.withElement folder).sourcePath = c.sourcePath := by simp only [withElement]
@[simp] theorem withElement_descendants : (c.withElement folder).descendants = c.descendants := by
  simp only [withElement]
@[simp] theorem withElement_names : (c.withElement folder).names = c.names := by simp only [withElement, names]

theorem withElement_bind (name : String) : (c.bind name).withElement folder = (c.withElement folder).bind name := by
  unfold bind
  rw [withElement_names]
  by_cases h : c.names.contains name = true
  · rw [if_pos h, if_pos h]
  · rw [if_neg h, if_neg h]
    simp only [withElement]

theorem retouches_withElement : Retouches (·.withElement folder) where
  sourcePath := withElement_sourcePath folder
  descendants := withElement_descendants folder
  names := withElement_names folder
  bind := withElement_bind folder

end Component

theorem Compile.retouched_withElement (options : CompileOptions) (folder : Option Path) :
    Retouched (·.withElement folder) options (options.withElements folder) where
  retouches := Component.retouches_withElement folder
  read _ _ _ := rfl
  finish _ _ key source _ g name children := by
    unfold finish
    rw [ComponentGraph.reached_map (Component.retouches_withElement folder)]
    rfl

namespace ComponentGraph

variable {options options' : CompileOptions} {change : Component → Component}

theorem Call.answer_map (h : Retouched change options options') (call : Call) (g : ComponentGraph) :
    call.answer options' (g.map change) = ((call.answer options g).1, (call.answer options g).2.map change) := by
  rw [answer_eq, answer_eq]
  exact compileSource_map h _ _ _ _ _ _ _

theorem after_map (h : Retouched change options options') (calls : List Call) :
    after options' calls = (after options calls).map change := by
  induction calls using List.reverseRecOn with
  | nil => rfl
  | append_singleton calls call ih => rw [after_concat, after_concat, ih, call.answer_map h]

theorem after_withElements (options : CompileOptions) (folder : Option Path) (calls : List Call) :
    after (options.withElements folder) calls = (after options calls).map (·.withElement folder) :=
  after_map (retouched_withElement options folder) calls

/-- Folders after which every source is named alike give one graph. -/
theorem map_withElement_congr {folder spelled : Path} {g : ComponentGraph} (hg : g.Ordered)
    (h : ∀ key : Path, key.IsKey → CustomElement.forPath key folder = CustomElement.forPath key spelled) :
    g.map (·.withElement folder) = g.map (·.withElement spelled) := by
  refine congrArg mk (List.map_congr_left fun c hc => ?_)
  unfold Component.withElement
  rw [Option.map_some, Option.map_some, h c.sourcePath (hg.isKey c hc)]

/-! ## Calls for one source -/

def Call.normal (call : Call) : Call := { call with path := call.path.normalize }

theorem Call.answer_normal (options : CompileOptions) (call : Call) (g : ComponentGraph) :
    call.normal.answer options g = call.answer options g := by
  rw [answer_eq, answer_eq]
  generalize maxDepth = depth
  unfold compileSource
  simp only [Call.normal, Path.normalize_normalize]

theorem after_normal (options : CompileOptions) (calls : List Call) :
    after options (calls.map Call.normal) = after options calls := by
  unfold after
  rw [List.foldl_map]
  simp only [Call.answer_normal]

end ComponentGraph

/-! ## Spellings of one app folder -/

namespace Config
open ComponentGraph CustomElement

/-- With elements a configuration compiles what it compiles without them, each component
    with the element of its source. -/
theorem after_compileOptions {config : Config} (hon : config.webComponents = true) (seed : Nat) (calls : List Call) :
    after (config.compileOptions seed) calls =
      (after ({ config with webComponents := false }.compileOptions seed) calls).map
        (·.withElement config.appFolder) := by
  rw [← after_withElements]
  congr 1
  unfold compileOptions
  rw [hon]
  rfl

/-- Configurations that differ in the root only compile the same components, each with its
    element in the app folder as its configuration spells it. -/
theorem after_of_spellings {config : Config} (hon : config.webComponents = true) (root : Path) (seed : Nat)
    {calls calls' : List Call} (hcalls : calls'.map Call.normal = calls.map Call.normal) :
    let plain := after ({ config with webComponents := false }.compileOptions seed) calls
    after (config.compileOptions seed) calls = plain.map (·.withElement config.appFolder) ∧
      after ({ config with root }.compileOptions seed) calls' =
        plain.map (·.withElement ({ config with root } : Config).appFolder) := by
  let other : Config := { config with root }
  -- without elements nothing is left of the root in the options
  have hplain : ({ other with webComponents := false } : Config).compileOptions seed =
      ({ config with webComponents := false } : Config).compileOptions seed := rfl
  have hother := after_compileOptions (show other.webComponents = true from hon) seed calls
  refine ⟨after_compileOptions hon seed calls, ?_⟩
  rw [← after_normal, hcalls, after_normal, hother, hplain]

/-- Two configurations that differ in the root only, with one app folder in two spellings,
    compile what they compile without elements, each component with its element in the folder
    as spelled. To a source outside the folder both spellings give one element. To a source
    below it they do exactly if they name alike; and the element is the one of the path seen
    from the folder exactly if the folder is straight or mute. If both spellings are straight,
    or neither is, the graphs are equal. -/
theorem elements_of_spellings (config : Config) (root : Path) (hon : config.webComponents = true)
    (hfolder : ({ config with root } : Config).appFolder.normalize = config.appFolder.normalize) :
    let other : Config := { config with root }
    let folder := config.appFolder
    let spelled := other.appFolder
    (∀ seed calls calls', calls'.map Call.normal = calls.map Call.normal →
      let plain := after ({ config with webComponents := false }.compileOptions seed) calls
      after (config.compileOptions seed) calls = plain.map (·.withElement folder) ∧
        after (other.compileOptions seed) calls' = plain.map (·.withElement spelled)) ∧
    (∀ key : Path, key.IsKey → ¬ Path.normalSegments folder.segments <+: key.segments →
      forPath key folder = forPath key spelled) ∧
    (∀ names : List String, names ≠ [] → (∀ n ∈ names, (Segment.name n).IsStep) →
      let key := (folder.below names).normalize
      (forPath key folder = forPath key spelled ↔ NamedAlike folder spelled) ∧
        (forPath key folder = forPath (Path.ofSegments (names.map .name)) ⟨""⟩ ↔ folder.IsStraight ∨ IsMute folder)) ∧
    ((folder.IsStraight ↔ spelled.IsStraight) → ∀ seed calls calls', calls'.map Call.normal = calls.map Call.normal →
      after (config.compileOptions seed) calls = after (other.compileOptions seed) calls') := by
  intro other folder spelled
  refine ⟨fun seed _ _ hcalls => after_of_spellings hon root seed hcalls, ?_, ?_, ?_⟩
  · intro key hkey hout
    have hout' : ¬ Path.normalSegments spelled.segments <+: key.segments := by
      rwa [Path.normalSegments_of_normalize hfolder]
    exact (forPath_of_outside hkey hout).trans (forPath_of_outside hkey hout').symm
  · intro names hne hn
    exact ⟨forPath_eq_iff hfolder hn hne, forPath_eq_seen_iff hn hne⟩
  · intro hstraight seed calls calls' hcalls
    obtain ⟨hgraph, hother⟩ := after_of_spellings hon root seed hcalls
    rw [hgraph, hother]
    refine map_withElement_congr (reachable_after _ _).inv.1 fun key hkey => ?_
    exact forPath_congr hfolder hstraight hkey

/-- The folder `site/app` in two spellings that both hide it: the pages are named after
    their whole path under both. -/
theorem elements_of_hidden_folder :
    let config : Config := { root := ⟨"./site"⟩, webComponents := true }
    let spelled := ({ config with root := ⟨"x/../site"⟩ } : Config).appFolder
    let key := (config.appFolder.below ["page.goo"]).normalize
    config.webComponents = true ∧ spelled.normalize = config.appFolder.normalize ∧
      forPath key config.appFolder = forPath key spelled ∧
      forPath key config.appFolder ≠ forPath (Path.ofSegments [.name "page.goo"]) ⟨""⟩ := by
  intro config spelled key
  have hfacts : spelled.normalize = config.appFolder.normalize ∧ (∀ n ∈ ["page.goo"], (Segment.name n).IsStep) ∧
      ¬ config.appFolder.IsStraight ∧ ¬ spelled.IsStraight ∧ ¬ IsMute config.appFolder := by decide +kernel
  obtain ⟨hfolder, hn, hs, hs', hmute⟩ := hfacts
  obtain ⟨-, -, hbelow, -⟩ := elements_of_spellings config ⟨"x/../site"⟩ rfl hfolder
  obtain ⟨hsame, hseen⟩ := hbelow ["page.goo"] (by simp) hn
  exact ⟨rfl, hfolder, hsame.mpr (Or.inl (iff_of_false hs hs')), fun h => (hseen.mp h).elim hs hmute⟩

/-- The folder `app` below the root `.`, as it is by default, and below the empty root: the
    page has two elements. -/
theorem default_root_shows :
    let config : Config := { webComponents := true }
    let other : Config := { config with root := ⟨""⟩ }
    let files : FileTree :=
      { entries := [(["app"], .folder none),
        (["app", "page.goo"], .file (some "<script>start();</script><component>p</component>") 1)] }
    let content (c : Config) : Option String :=
      ((empty.compilePage files (c.compileOptions 0) c.entryPath "Page").2.get? ⟨"app/page.goo"⟩).bind
        fun page => (Fragment.ofKind? page.fragments .content).map (·.body)
    other.appFolder.normalize = config.appFolder.normalize ∧
      forPath ⟨"app/page.goo"⟩ config.appFolder = ⟨"goo-app-page", "GooAppPage"⟩ ∧
      forPath ⟨"app/page.goo"⟩ other.appFolder = ⟨"goo-page", "GooPage"⟩ ∧
      content config = some "<goo-app-page>\np\n</goo-app-page>" ∧
        content other = some "<goo-page>\np\n</goo-page>" := by
  decide +kernel

end Config

end ComponentSite
