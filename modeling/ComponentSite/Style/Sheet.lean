/-
  ComponentSite.Style.Sheet — a stylesheet whose bare-tag rules are qualified with a
  scope class.

  Rules are qualified one after the other. The block of a rule stays as it is; an
  at-rule stays as it is too, unless its block holds further rules, which are then
  qualified in the same way.
-/
import ComponentSite.Style.Selector
import ComponentSite.Style.Statement

namespace ComponentSite.Style
open Text

/-- The starts of at-rules whose block holds style rules. -/
def nestingRules : List String := ["@media", "@supports", "@container", "@layer", "@document"]

def isAtRule (prelude : List Char) : Bool := (trimStart prelude).head? == some '@'

def isNestingRule (prelude : List Char) : Bool :=
  nestingRules.any fun rule => rule.toList.isPrefixOf (trimStart prelude)

/-- The stylesheet with its bare-tag rules qualified by the class, and the tags in
    the order of the rules. -/
def scopeRules (cls css : List Char) : List Char × List (List Char) :=
  match h : takePrelude .code css with
  | (prelude, []) => (prelude, [])
  | (prelude, c :: rest) =>
    have := takePrelude_rest_length h
    if c == ';' then
      let (after, tags) := scopeRules cls rest
      (prelude ++ ';' :: after, tags)
    else
      let block := (takeBlock 0 (c :: rest)).1
      let (head, headTags) :=
        if isAtRule prelude then
          if isNestingRule prelude then
            let (body, tags) := scopeRules cls (blockBody block)
            (prelude ++ '\x7b' :: body ++ blockEnd block, tags)
          else (prelude ++ block, [])
        else
          let (selectors, tags) := scopeSelectorList cls prelude
          (selectors ++ block, tags)
      let (after, tags) := scopeRules cls (takeBlock 0 (c :: rest)).2
      (head ++ after, headTags ++ tags)
termination_by css.length
decreasing_by
  · exact this
  · exact Nat.lt_of_le_of_lt (takeBlock_body_length 0 c rest) this
  · exact Nat.lt_of_le_of_lt (takeBlock_rest_length 0 c rest) this

end ComponentSite.Style
