/-
  ComponentSite.TemplateSet — named templates, in the order in which their names
  were first added.
-/
import ComponentSite.Fragment

namespace ComponentSite

structure TemplateSet where
  templates : List (String × String)
  deriving DecidableEq, Repr

namespace TemplateSet

/-- The template that a page is rendered through. -/
def base : String := "base"

def empty : TemplateSet := ⟨[]⟩

def get? (s : TemplateSet) (name : String) : Option String :=
  (s.templates.find? (·.1 == name)).map (·.2)

def contains (s : TemplateSet) (name : String) : Bool := (s.get? name).isSome

def names (s : TemplateSet) : List String := s.templates.map (·.1)

def size (s : TemplateSet) : Nat := s.templates.length

/-- Adds a template at the end, or replaces the one of that name where it is. -/
def insert (s : TemplateSet) (name body : String) : TemplateSet :=
  if s.contains name then
    ⟨s.templates.map fun (n, b) => (n, if n == name then body else b)⟩
  else ⟨s.templates ++ [(name, body)]⟩

/-- A raw block: the engine gives its body out as it is. -/
def verbatim (body : String) : String :=
  "\x7b\x7b\x7b\x7braw\x7d\x7d\x7d\x7d" ++ body ++ "\x7b\x7b\x7b\x7b/raw\x7d\x7d\x7d\x7d"

/-- The template source of a fragment. Scripts and styles are verbatim, because
    braces in them are no template tags. -/
def fragmentBody (f : Fragment) : String :=
  match f.kind with
  | .content => f.body
  | .script | .style => verbatim f.body

def push (s : TemplateSet) (f : Fragment) : TemplateSet := s.insert f.name (fragmentBody f)

/-- The whole set as one source: an inline definition of every template but `entry`,
    then the entry itself. -/
def source (s : TemplateSet) (entry : String) : String :=
  let others := s.templates.filter (·.1 != entry)
  String.join (others.map fun (name, body) => Fragment.inlineDefinition name body) ++
    (s.get? entry).getD ""

end TemplateSet

end ComponentSite
