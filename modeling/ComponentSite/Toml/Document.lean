/-
  ComponentSite.Toml.Document — a whole TOML text as one table.

  Pairs belong to the table of the last header before them. A key is given a meaning
  only once; what may be added to a table later is said at `Fields.addPair`,
  `Fields.addHeader` and `Fields.addElement`.
-/
import ComponentSite.Toml.Statement

namespace ComponentSite.Toml

structure Document where
  fields : Fields
  /-- The header that pairs stand under, all its parts. -/
  header : List String
  deriving Repr

namespace Document

def empty : Document := ⟨[], []⟩

def add (d : Document) : Statement → Except Clash Document
  | .empty => .ok d
  | .pair way key v => do
    let edit := Fields.addPair way key v
    return { d with fields := ← Fields.editAt .passed edit d.header .headed d.fields }
  | .header way key => do
    return { fields := ← Fields.addHeader way key d.fields, header := way ++ [key] }
  | .element way key => do
    return { fields := ← Fields.addElement way key d.fields, header := way ++ [key] }

/-- Adds every statement of a text. At a fault the answer has the text from there on.
    `fuel` is at least the length of the text. -/
def addAll : (fuel : Nat) → Document → List Char → Except (Fault × List Char) Document
  | _, d, [] => .ok d
  | 0, d, _ => .ok d
  | fuel + 1, d, s =>
    match statement s with
    | .error fault => .error (fault, s)
    | .ok (found, rest) =>
      match d.add found with
      | .error clash => .error (.repeatedKey clash.key, s)
      | .ok d => addAll fuel d rest

end Document

/-- A byte order mark in front of a text means nothing. -/
def withoutMark : List Char → List Char
  | '\uFEFF' :: r => r
  | s => s

def read (source : String) : Except (Fault × Nat) Fields :=
  let s := withoutMark source.toList
  match Document.empty.addAll s.length s with
  | .ok d => .ok d.fields
  | .error (fault, rest) => .error (fault, s.count '\n' - rest.count '\n' + 1)

end ComponentSite.Toml
