/-
  ComponentSite.Toml.Statement — the lines of a TOML text: pairs of a key and a
  value, and headers.

  A value may nest lists and tables in braces, `maxNested` of them in each other. The
  readers of values take one unit of fuel per item or level; each of them stands for
  at least one character, so the length of the text is enough.
-/
import ComponentSite.Toml.Scalar
import ComponentSite.Toml.Text

namespace ComponentSite.Toml
open Text

inductive Fault
  | unreadable
  | repeatedKey (key : String)
  deriving DecidableEq, Repr

def orUnreadable {α : Type} : Option α → Except Fault α
  | some a => .ok a
  | none => .error .unreadable

def after? (c : Char) (s : List Char) : Option (List Char) := rest? [c] (skipBlanks s)

def pair (value : List Char → Except Fault (Value × List Char)) (s : List Char) :
    Except Fault (((List String × String) × Value) × List Char) := do
  let (key, s) ← orUnreadable (key? s)
  let s ← orUnreadable (after? '=' s)
  let (v, s) ← value (skipBlanks s)
  return ((key, v), s)

def addField (fields : Fields) (entry : (List String × String) × Value) : Except Fault Fields :=
  (Fields.addPair entry.1.1 entry.1.2 entry.2 .inBraces fields).mapError fun clash =>
    .repeatedKey clash.key

def maxNested : Nat := 79

mutual

/-- The value that stands here, in which `depth` lists and tables may be nested. -/
def value : (fuel depth : Nat) → List Char → Except Fault (Value × List Char)
  | 0, _, _ => .error .unreadable
  | _ + 1, 0, '[' :: _ => .error .unreadable
  | _ + 1, 0, '{' :: _ => .error .unreadable
  | fuel + 1, depth + 1, '[' :: r => do
    let (items, r) ← items fuel depth r
    return (.list false items, r)
  | fuel + 1, depth + 1, '{' :: r => do
    match after? '}' r with
    | some r => return (.table .inBraces [], r)
    | none =>
      let (fields, r) ← fields fuel depth [] r
      return (.table .inBraces fields, r)
  | _ + 1, _, s =>
    match s.head? with
    | some '"' | some '\'' => do
      let (t, r) ← orUnreadable (string? s)
      return (.text t, r)
    | _ => orUnreadable (scalar? s)

/-- The rest of a list. Lines may end between its parts, and a comma may stand after
    the last item. -/
def items : (fuel depth : Nat) → List Char → Except Fault (List Value × List Char)
  | 0, _, _ => .error .unreadable
  | fuel + 1, depth, s =>
    match skipLines s.length s with
    | ']' :: r => .ok ([], r)
    | s => do
      let (v, s) ← value fuel depth s
      match skipLines s.length s with
      | ',' :: r =>
        let (vs, r) ← items fuel depth r
        return (v :: vs, r)
      | ']' :: r => return ([v], r)
      | _ => throw .unreadable

/-- The rest of a table in braces, which stands on one line and holds a pair at least. -/
def fields : (fuel depth : Nat) → Fields → List Char → Except Fault (Fields × List Char)
  | 0, _, _, _ => .error .unreadable
  | fuel + 1, depth, done, s => do
    let (entry, s) ← pair (value fuel depth) s
    let done ← addField done entry
    match skipBlanks s with
    | ',' :: r => fields fuel depth done r
    | '}' :: r => return (done, r)
    | _ => throw .unreadable

end

inductive Statement
  /-- An empty line, or one that holds only a comment. -/
  | empty
  | pair (way : List String) (key : String) (value : Value)
  | header (way : List String) (key : String)
  /-- A header in double brackets. -/
  | element (way : List String) (key : String)
  deriving Repr

def bracketed (closing : String) (s : List Char) :
    Except Fault ((List String × String) × List Char) := do
  let (key, s) ← orUnreadable (key? s)
  let s ← orUnreadable (rest? closing.toList s)
  return (key, s)

def statement (s : List Char) : Except Fault (Statement × List Char) := do
  let s := skipBlanks s
  match closeLine? s with
  | some r => return (.empty, r)
  | none =>
    let (found, s) ← match s with
      | '[' :: '[' :: r => do
        let ((way, key), r) ← bracketed "]]" r
        pure (Statement.element way key, r)
      | '[' :: r => do
        let ((way, key), r) ← bracketed "]" r
        pure (Statement.header way key, r)
      | _ => do
        let (((way, key), v), r) ← pair (value s.length maxNested) s
        pure (Statement.pair way key v, r)
    return (found, ← orUnreadable (closeLine? s))

end ComponentSite.Toml
