/-
  ComponentSite.Style.Scope — styles that stay within their component.

  The bare-tag rules of the stylesheet are qualified with the scope class, and the
  top-level elements of those tags get the class, so that such a rule reaches the
  component's own elements only.
-/
import ComponentSite.Style.RootClass
import ComponentSite.Style.Sheet

namespace ComponentSite

structure ScopedStyle where
  style : String
  markup : String
  /-- The tags whose rules were qualified, sorted, each once. -/
  scopedTags : List String
  deriving DecidableEq, Repr

namespace Style

def sortedOnce (tags : List String) : List String :=
  (tags.mergeSort fun a b => a ≤ b).eraseDups

def scope (style markup scopeClass : String) : ScopedStyle :=
  let cls := scopeClass.toList
  let (sheet, tags) := scopeRules cls style.toList
  { style := String.ofList sheet
    markup := String.ofList (markRootElements cls tags markup.toList)
    scopedTags := sortedOnce (tags.map String.ofList) }

end Style

end ComponentSite
