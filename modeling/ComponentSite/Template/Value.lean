/-
  ComponentSite.Template.Value — the data a template is rendered with.

  Objects keep their fields in increasing order of the names, each name once
  (`ofFields`); a loop visits them in that order.
-/
import ComponentSite.Error
import ComponentSite.Number

namespace ComponentSite.Template

inductive Value
  | null
  | bool (b : Bool)
  | number (n : Number)
  | text (s : String)
  | list (items : List Value)
  | object (fields : List (String × Value))
  deriving Inhabited, Repr

namespace Value

def ofNat (n : Nat) : Value := number (.ofNat n)

/-- Sets a field, keeping the order of the names. -/
def setField (name : String) (v : Value) : List (String × Value) → List (String × Value)
  | [] => [(name, v)]
  | (n, w) :: rest =>
    if name < n then (name, v) :: (n, w) :: rest
    else if name = n then (name, v) :: rest
    else (n, w) :: setField name v rest

/-- An object of these fields; of two with one name the last one counts. -/
def ofFields (fields : List (String × Value)) : Value :=
  object (fields.foldl (fun acc (name, v) => setField name v acc) [])

def fields : Value → List (String × Value)
  | object fields => fields
  | _ => []

/-- What counts as true in a condition. Zero and what is nearly zero do only if `zero`
    says so. -/
def truthy (zero : Bool) : Value → Bool
  | null => false
  | bool b => b
  | number n => zero || n.isSignificant
  | text s => !s.isEmpty
  | list items => !items.isEmpty
  | object fields => !fields.isEmpty

mutual

def shown : Value → List Char
  | null => []
  | bool b => (toString b).toList
  | number n => n.shown
  | text s => s.toList
  | list items => '[' :: shownItems items ++ [']']
  | object _ => "[object]".toList

def shownItems : List Value → List Char
  | [] => []
  | item :: rest => item.shown ++ ", ".toList ++ shownItems rest

end

mutual

def size : Value → Nat
  | list items => sizeItems items + 1
  | object fields => sizeFields fields + 1
  | _ => 1

def sizeItems : List Value → Nat
  | [] => 0
  | item :: rest => item.size + sizeItems rest

def sizeFields : List (String × Value) → Nat
  | [] => 0
  | (_, v) :: rest => v.size + sizeFields rest

end

def indexLimit : Nat := 0x10000000000000000

/-- The index a key of a list is; a leading plus is allowed. -/
def index? (key : String) : Option Nat :=
  let digits := match key.toList with
    | '+' :: r => r
    | s => s
  if digits.isEmpty || !digits.all Char.isDigit then none
  else
    let n := digits.foldl (fun n c => 10 * n + (c.toNat - '0'.toNat)) 0
    if n < indexLimit then some n else none

/-- The element or field under a key. A list has no other keys than indices. -/
def child? (v : Value) (key : String) : Except RenderFault (Option Value) :=
  match v with
  | list items =>
    match index? key with
    | some i => .ok items[i]?
    | none => .error (.badIndex key)
  | object fields => .ok ((fields.find? (·.1 == key)).map (·.2))
  | _ => .ok none

def at? (v : Value) : List String → Except RenderFault (Option Value)
  | [] => .ok (some v)
  | key :: rest =>
    match v.child? key with
    | .ok (some w) => w.at? rest
    | .ok none => .ok none
    | .error e => .error e

end Value

end ComponentSite.Template
