/-
  ComponentSite.Error — everything that can go wrong, by cause.

  Each cause has a stable code and one message. A failure of an imported component
  keeps the failure that caused it, so that the message spells the way from the
  page to the faulty source; `rootCause` is the end of that way.
-/
import ComponentSite.FileTree
import ComponentSite.Text.Quoted

namespace ComponentSite

def Path.quoted (p : Path) : String := Text.quoted p.text

/-- Why a source that could be read cannot be compiled. -/
inductive Malformation
  | unclosedSection (opening : String)
  | noMarkup
  | unnamedImport (raw : String)
  | noEntryTemplate (entry : String)
  | described (reason : String)
  deriving DecidableEq, Repr

def Malformation.reason : Malformation → String
  | unclosedSection opening => opening ++ " is opened but never closed"
  | noMarkup => "page has no <component> section"
  | unnamedImport raw => "import of '" ++ raw ++ "' binds no capitalized component name"
  | noEntryTemplate entry => "template set has no entry template '" ++ entry ++ "'"
  | described reason => reason

inductive TemplateFault
  | unreadable
  | mismatchedClose (opened closed : String)
  | unclosedBlock (opened : String)
  deriving DecidableEq, Repr

def TemplateFault.message : TemplateFault → String
  | unreadable => "no template tag can be read here"
  | mismatchedClose opened closed => "block '" ++ opened ++ "' is closed as '" ++ closed ++ "'"
  | unclosedBlock opened => "block '" ++ opened ++ "' is never closed"

inductive RenderFault
  | missingParameter (helper : String) (index : Nat)
  | unknownHelper (name : String)
  | unknownDecorator (name : String)
  | badDecorator (name : String)
  | selfInclusion (template : String)
  | badIndex (text : String)
  | badLevel (text : String)
  /-- No result: templates use each other without end. The engine has no such error. -/
  | nestedTooDeep
  deriving DecidableEq, Repr

def RenderFault.message : RenderFault → String
  | missingParameter helper index =>
    "helper '" ++ helper ++ "' lacks its parameter " ++ toString index
  | unknownHelper name => "no helper is named '" ++ name ++ "'"
  | unknownDecorator name => "no decorator is named '" ++ name ++ "'"
  | badDecorator name => "decorator '" ++ name ++ "' needs a text parameter and a block"
  | selfInclusion template => "template '" ++ template ++ "' includes itself"
  | badIndex text => "'" ++ text ++ "' is no array index"
  | badLevel text => "'" ++ text ++ "' is no level of logging"
  | nestedTooDeep => "templates are nested too deep"

inductive StructureFault
  | noAppFolder (path : Path)
  | noLayout (path : Path)
  | noEntryPage (path : Path)
  | unreadableLayout (path : Path) (cause : ReadFailure)
  deriving DecidableEq, Repr

def StructureFault.message : StructureFault → String
  | noAppFolder path => "app folder " ++ path.quoted ++ " not found"
  | noLayout path => "base layout " ++ path.quoted ++ " not found"
  | noEntryPage path => "entry page " ++ path.quoted ++ " not found"
  | unreadableLayout path cause =>
    "base layout " ++ path.quoted ++ " is unreadable: " ++ cause.message

inductive ConfigFault
  | unreadable (line : Nat)
  | repeatedKey (key : String) (line : Nat)
  | unknownField (field : String)
  | wrongKind (field : String) (expected : String)
  deriving DecidableEq, Repr

def ConfigFault.message : ConfigFault → String
  | unreadable line => "line " ++ toString line ++ " cannot be read"
  | repeatedKey key line => "key '" ++ key ++ "' is defined twice, again in line " ++ toString line
  | unknownField field => "there is no setting '" ++ field ++ "'"
  | wrongKind field expected => "setting '" ++ field ++ "' must be " ++ expected

inductive ServeFault
  | badAddress
  | badNumber
  | noListener
  deriving DecidableEq, Repr

def ServeFault.message : ServeFault → String
  | badAddress => "invalid socket address"
  | badNumber => "invalid port value"
  | noListener => "no listener is available"

inductive SiteError
  | sourceNotFound (path : Path) (cause : ReadFailure)
  | malformedSource (path : Path) (fault : Malformation)
  | importFailed (importer : Path) (raw : String) (cause : SiteError)
  | cyclicImport (path : Path)
  | ambiguousName (name : String) (first second : Path)
  | templateRejected (template : String) (fault : TemplateFault)
  | renderFailed (page : Path) (fault : RenderFault)
  | badStructure (fault : StructureFault)
  | badConfig (fault : ConfigFault)
  | serveFailed (fault : ServeFault)
  deriving DecidableEq, Repr

namespace SiteError

def code : SiteError → String
  | sourceNotFound .. => "GOO-ERR-SOURCE-001"
  | malformedSource .. => "GOO-ERR-SOURCE-002"
  | importFailed .. => "GOO-ERR-IMPORT-001"
  | cyclicImport .. => "GOO-ERR-IMPORT-002"
  | ambiguousName .. => "GOO-ERR-NAME-001"
  | templateRejected .. => "GOO-ERR-TEMPLATE-001"
  | renderFailed .. => "GOO-ERR-RENDER-001"
  | badStructure .. => "GOO-ERR-STRUCTURE-001"
  | badConfig .. => "GOO-ERR-CONFIG-001"
  | serveFailed .. => "GOO-ERR-SERVE-001"

def message : SiteError → String
  | sourceNotFound path cause => "cannot read source " ++ path.quoted ++ ": " ++ cause.message
  | malformedSource path fault => "malformed source " ++ path.quoted ++ ": " ++ fault.reason
  | importFailed importer raw cause =>
    "failed to resolve import '" ++ raw ++ "' from " ++ importer.quoted ++ ": " ++ cause.message
  | cyclicImport path => "import cycle detected at " ++ path.quoted
  | ambiguousName name first second =>
    "component name '" ++ name ++ "' is bound to both " ++ first.quoted ++ " and " ++ second.quoted
  | templateRejected template fault =>
    "template '" ++ template ++ "' failed to parse: " ++ fault.message
  | renderFailed page fault => "failed to render page " ++ page.quoted ++ ": " ++ fault.message
  | badStructure fault => "invalid project structure: " ++ fault.message
  | badConfig fault => "invalid configuration: " ++ fault.message
  | serveFailed fault => "server failure: " ++ fault.message

/-- The failure that started it, behind all imports. -/
def rootCause : SiteError → SiteError
  | importFailed _ _ cause => cause.rootCause
  | other => other

end SiteError

end ComponentSite
