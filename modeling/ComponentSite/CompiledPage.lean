/-
  ComponentSite.CompiledPage — a template set that is ready to be rendered.
-/
import ComponentSite.Template.Read
import ComponentSite.Template.Render
import ComponentSite.TemplateSet

namespace ComponentSite

structure CompiledPage where
  page : Path
  /-- The template that a rendering starts with. -/
  entry : String
  set : TemplateSet
  /-- The templates of the set as read, in its order. -/
  registry : List (String × List Template.Node)

namespace CompiledPage

/-- Reads the templates in order; the first that is refused fails the page. -/
def readAll : List (String × String) → Except SiteError (List (String × List Template.Node))
  | [] => .ok []
  | (name, body) :: rest => do
    let nodes ← (Template.read? body).mapError (.templateRejected name)
    return (name, nodes) :: (← readAll rest)

/-- Reads every template of a set, which must hold the entry. -/
def register (page : Path) (set : TemplateSet) (entry : String) : Except SiteError CompiledPage := do
  let registry ← readAll set.templates
  if set.contains entry then return { page, entry, set, registry }
  else .error (.malformedSource page (.noEntryTemplate entry))

def source (p : CompiledPage) : String := p.set.source p.entry

def render (p : CompiledPage) (data : Template.Value) : Except SiteError String :=
  match p.registry.find? (·.1 == p.entry) with
  | some (_, nodes) =>
    (Template.render p.registry p.entry nodes data).mapError (.renderFailed p.page)
  | none => .error (.malformedSource p.page (.noEntryTemplate p.entry))

end CompiledPage

end ComponentSite
