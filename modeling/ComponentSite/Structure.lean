/-
  ComponentSite.Structure — the pieces that every site has.
-/
import ComponentSite.Config
import ComponentSite.Error

namespace ComponentSite

structure SiteStructure where
  appDir : Path
  layoutPath : Path
  layout : String
  entryPage : Path
  deriving DecidableEq, Repr

/-- Looks for the app folder, the layout and the entry page, in this order, and reads
    the layout. -/
def SiteStructure.locate (files : FileTree) (config : Config) : Except SiteError SiteStructure := do
  let appDir := config.appFolder
  let layoutPath := config.layoutPath
  let entryPage := config.entryPath
  unless files.isFolder appDir do throw (.badStructure (.noAppFolder appDir))
  unless files.isFile layoutPath do throw (.badStructure (.noLayout layoutPath))
  unless files.isFile entryPage do throw (.badStructure (.noEntryPage entryPage))
  let (layout, _) ←
    (files.read layoutPath).mapError fun cause => .badStructure (.unreadableLayout layoutPath cause)
  return { appDir, layoutPath, layout, entryPage }

end ComponentSite
