/-
  ComponentSite.Config — the settings of a site.

  Every setting has a default, so a site without a configuration file has the usual
  shape: a layout `index.html`, the entry page `app/page.goo`, and further pages in
  the folders below `app`. A file may give any of the settings, each of its kind;
  what is no setting is refused, so that a misspelt name does not go unnoticed.
-/
import ComponentSite.Component.Compile
import ComponentSite.ScopeClass
import ComponentSite.Toml.Document

namespace ComponentSite

structure Config where
  root : Path := ⟨"."⟩
  appDir : String := "app"
  layoutFile : String := "index.html"
  entryFile : String := "page.goo"
  extension : String := "goo"
  /-- Keep compiled pages. -/
  cache : Bool := true
  /-- Compile a kept page again when one of its sources changed. -/
  invalidateOnChange : Bool := false
  scopedStyles : Bool := true
  webComponents : Bool := false
  scopeStrategy : ScopeStrategy := .random
  logLevel : String := "info"
  address : String := "127.0.0.1:4200"
  deriving DecidableEq, Repr

namespace Config

def appFolder (c : Config) : Path := c.root.join ⟨c.appDir⟩

def layoutPath (c : Config) : Path := c.root.join ⟨c.layoutFile⟩

def entryPath (c : Config) : Path := c.appFolder.join ⟨c.entryFile⟩

/-- The options of a compile whose scope classes come from this seed. Custom elements
    are named after the app folder. -/
def compileOptions (c : Config) (seed : Nat) : CompileOptions :=
  { extension := c.extension
    scopedStyles := c.scopedStyles
    classOf := c.scopeStrategy.classOf seed
    webComponents := if c.webComponents then some c.appFolder else none }

/-! ## Reading settings -/

def text (field : String) : Toml.Value → Except ConfigFault String
  | .text s => .ok s
  | _ => .error (.wrongKind field "a string")

def boolean (field : String) : Toml.Value → Except ConfigFault Bool
  | .boolean b => .ok b
  | _ => .error (.wrongKind field "true or false")

def strategyNamed (name : String) : Except ConfigFault ScopeStrategy :=
  if name == ScopeStrategy.random.name then .ok .random
  else if name == ScopeStrategy.hashed.name then .ok .hashed
  else .error (.wrongKind "scope_strategy" "random or hashed")

def isEmptyValue : Toml.Value → Bool
  | .table _ [] => true
  | .list _ [] => true
  | _ => false

/-- A strategy is given by its name, or by a table whose one field has that name and
    is empty. -/
def strategy : Toml.Value → Except ConfigFault ScopeStrategy
  | .text name => strategyNamed name
  | .table _ [(name, v)] => do
    let found ← strategyNamed name
    if isEmptyValue v then return found
    else throw (.wrongKind "scope_strategy" "a strategy without settings of its own")
  | _ => .error (.wrongKind "scope_strategy" "random or hashed")

def setServerField (c : Config) : String × Toml.Value → Except ConfigFault Config
  | ("address", v) => do return { c with address := ← text "address" v }
  | (name, _) => .error (.unknownField name)

/-- The settings of the server, by name, or as a list of their values in order. -/
def setServer (c : Config) : Toml.Value → Except ConfigFault Config
  | .table _ fields => fields.foldlM setServerField c
  | .list _ (address :: _) => do return { c with address := ← text "address" address }
  | .list _ [] => .ok c
  | _ => .error (.wrongKind "server" "a table")

def setField (c : Config) : String × Toml.Value → Except ConfigFault Config
  | ("root", v) => do return { c with root := ⟨← text "root" v⟩ }
  | ("app_dir", v) => do return { c with appDir := ← text "app_dir" v }
  | ("layout_file", v) => do return { c with layoutFile := ← text "layout_file" v }
  | ("entry_file", v) => do return { c with entryFile := ← text "entry_file" v }
  | ("extension", v) => do return { c with extension := ← text "extension" v }
  | ("cache", v) => do return { c with cache := ← boolean "cache" v }
  | ("invalidate_on_change", v) => do
    return { c with invalidateOnChange := ← boolean "invalidate_on_change" v }
  | ("scoped_styles", v) => do return { c with scopedStyles := ← boolean "scoped_styles" v }
  | ("web_components", v) => do return { c with webComponents := ← boolean "web_components" v }
  | ("scope_strategy", v) => do return { c with scopeStrategy := ← strategy v }
  | ("log_level", v) => do return { c with logLevel := ← text "log_level" v }
  | ("server", v) => c.setServer v
  | (name, _) => .error (.unknownField name)

def ofToml (source : String) : Except SiteError Config :=
  match Toml.read source with
  | .error (.unreadable, line) => .error (.badConfig (.unreadable line))
  | .error (.repeatedKey key, line) => .error (.badConfig (.repeatedKey key line))
  | .ok fields => (fields.foldlM setField ({} : Config)).mapError .badConfig

/-! ## Files -/

def fileName : String := "goo.toml"

/-- Reads a configuration file. A relative root counts from the folder of the file. -/
def load (files : FileTree) (path : Path) : Except SiteError Config := do
  let (source, _) ← (files.read path).mapError (.sourceNotFound path)
  let config ← ofToml source
  match path.parent? with
  | some folder => return { config with root := folder.join config.root }
  | none => return config

/-- The configuration of the site at a root folder: its file, or the defaults. -/
def discover (files : FileTree) (root : Path) : Except SiteError Config :=
  let path := root.join ⟨fileName⟩
  if files.isFile path then load files path else .ok { root }

end Config

end ComponentSite
