/-
  ComponentSite.Fragment — the named templates of a component.

  A component has at most one fragment of each kind, in the order script, content,
  style; a section of white space gives none. Their names are made of the kind and
  the component's scope class.
-/
import ComponentSite.CustomElement

namespace ComponentSite

inductive FragmentKind
  | script
  | content
  | style
  deriving DecidableEq, Repr

def FragmentKind.label : FragmentKind → String
  | script => "js"
  | content => "content"
  | style => "css"

def FragmentKind.nameFor (kind : FragmentKind) (scopeClass : String) : String :=
  kind.label ++ "-" ++ scopeClass

structure Fragment where
  kind : FragmentKind
  name : String
  body : String
  deriving DecidableEq, Repr

namespace Fragment

def inlineDefinition (name body : String) : String :=
  "\x7b\x7b#*inline \x22" ++ name ++ "\x22\x7d\x7d\n" ++ body ++ "\n\x7b\x7b/inline\x7d\x7d\n"

def definition (f : Fragment) : String := inlineDefinition f.name f.body

/-- The fragments of a component. The custom element wraps script and markup, and
    only where there is a script to attach to it. -/
def generate (scopeClass script markup style : String) (element : Option CustomElement) :
    List Fragment :=
  let script := Text.trimmed script
  let markup := Text.trimmed markup
  let style := Text.trimmed style
  let element := if script.isEmpty then none else element
  let wrapped (wrap : CustomElement → String → String) (text : String) : String :=
    match element with
    | some e => wrap e text
    | none => text
  let fragment (kind : FragmentKind) (body : String) : Fragment := ⟨kind, kind.nameFor scopeClass, body⟩
  (if script.isEmpty then []
    else [fragment .script ("<script>\n" ++ wrapped CustomElement.wrapScript script ++ "\n</script>")]) ++
  (if markup.isEmpty then [] else [fragment .content (wrapped CustomElement.wrapMarkup markup)]) ++
  (if style.isEmpty then [] else [fragment .style ("<style>\n" ++ style ++ "\n</style>")])

def ofKind? (fragments : List Fragment) (kind : FragmentKind) : Option Fragment :=
  fragments.find? (·.kind == kind)

def modifyBody (kind : FragmentKind) (change : String → String) : List Fragment → List Fragment
  | [] => []
  | f :: rest =>
    if f.kind == kind then { f with body := change f.body } :: rest
    else f :: modifyBody kind change rest

end Fragment

end ComponentSite
