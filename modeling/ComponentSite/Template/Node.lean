/-
  ComponentSite.Template.Node — templates as they are read.

  A template is a list of nodes. A call is what stands in a tag: a name, its
  parameters, its named parameters and the names it binds in its block.
-/
import ComponentSite.Template.Value

namespace ComponentSite.Template

inductive Step
  | root
  | up
  | key (name : String)
  deriving DecidableEq, Repr

inductive Reference
  /-- A value that a loop keeps, `level` blocks further out. -/
  | loopValue (level : Nat) (name : String)
  | path (steps : List Step)
  deriving DecidableEq, Repr

inductive Param
  | literal (v : Value)
  | reference (r : Reference)
  /-- A helper call whose value is used. -/
  | call (name : String) (params : List Param) (named : List (String × Param))
  deriving Inhabited, Repr

/-- The name in a tag: as text, and, if it can also be read as data, the parameter
    it then is. -/
structure CallName where
  text : String
  value : Option Param
  deriving Inhabited, Repr

structure Call where
  name : CallName
  params : List Param
  /-- Named parameters; of two with one name the last one counts. -/
  named : List (String × Param)
  /-- Names for the value and the key of a block. -/
  binds : List String
  deriving Inhabited, Repr

def Call.isBare (c : Call) : Bool := c.params.isEmpty && c.named.isEmpty

inductive Node
  | text (s : List Char)
  | comment
  | value (call : Call) (escaped : Bool)
  | block (call : Call) (body inverse : Option (List Node))
  /-- The use of another template. Its lines are indented as the tag is; a body stands
      in for a missing template and is what the template can show as its own block. -/
  | partialUse (call : Call) (indent : List Char) (body : Option (List Node))
  | decorator (call : Call) (body : Option (List Node))
  deriving Inhabited, Repr

mutual

def Node.size : Node → Nat
  | .block _ body inverse => sizeOption body + sizeOption inverse + 1
  | .partialUse _ _ body => sizeOption body + 1
  | .decorator _ body => sizeOption body + 1
  | _ => 1

def Node.sizeOption : Option (List Node) → Nat
  | none => 0
  | some nodes => sizeList nodes

def Node.sizeList : List Node → Nat
  | [] => 0
  | node :: rest => node.size + sizeList rest

end

end ComponentSite.Template
