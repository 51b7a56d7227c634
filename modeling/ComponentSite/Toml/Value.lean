/-
  ComponentSite.Toml.Value — the data that a TOML text writes.

  A table is complete, or it may get more keys, and which ones depends on how it was
  begun: a table in braces is complete, one with a header of its own gets keys below
  that header and tables by longer headers, one that a dotted key began gets further
  dotted keys, and one that was only passed on the way to a longer header may still
  get a header of its own. A list that headers in double brackets made grows by one
  table with each of them.
-/

namespace ComponentSite.Toml

inductive Origin
  /-- In braces. -/
  | inBraces
  /-- By a header of its own. -/
  | headed
  /-- On the way to a longer header. -/
  | passed
  /-- By a dotted key. -/
  | dotted
  deriving DecidableEq, Repr

inductive Value
  | text (s : String)
  | boolean (b : Bool)
  | number (written : String)
  /-- A date, a time, or both. -/
  | moment (written : String)
  /-- `grows` if headers made the list. -/
  | list (grows : Bool) (items : List Value)
  | table (origin : Origin) (fields : List (String × Value))
  deriving Inhabited, Repr

abbrev Fields := List (String × Value)

structure Clash where
  key : String
  deriving DecidableEq, Repr

namespace Fields

def get? (fields : Fields) (key : String) : Option Value := (fields.find? (·.1 == key)).map (·.2)

def put (fields : Fields) (key : String) (v : Value) : Fields :=
  if (fields.get? key).isSome then fields.map fun (k, old) => (k, if k == key then v else old)
  else fields ++ [(key, v)]

/-- Whether the way to a table may lead through this one. A dotted key stays out of
    tables that have a header. -/
def passable : (began : Origin) → Origin → Bool
  | _, .inBraces => false
  | .dotted, .headed => false
  | _, _ => true

/-- Edits the table at the end of the keys. Tables that are missing on the way begin
    as `began`; a list that grows is passed through its last table. -/
def editAt (began : Origin) (edit : Origin → Fields → Except Clash Fields) :
    List String → Origin → Fields → Except Clash Fields
  | [], origin, fields => edit origin fields
  | key :: keys, _, fields =>
    match fields.get? key with
    | none => do return fields.put key (.table began (← editAt began edit keys began []))
    | some (.table origin inner) =>
      if passable began origin then do
        return fields.put key (.table origin (← editAt began edit keys origin inner))
      else throw ⟨key⟩
    | some (.list true items) =>
      match items.getLast? with
      | some (.table origin inner) => do
        let last := Value.table origin (← editAt began edit keys origin inner)
        return fields.put key (.list true (items.dropLast ++ [last]))
      | _ => throw ⟨key⟩
    | some _ => throw ⟨key⟩

/-- Adds a value under a dotted key, given as its way and its last part. A table
    below the start gets it only if dotted keys began that table. -/
def addPair (way : List String) (key : String) (v : Value) (origin : Origin) (fields : Fields) :
    Except Clash Fields :=
  editAt .dotted (fun last inner =>
    if !way.isEmpty && last != .dotted then throw ⟨key⟩
    else if (inner.get? key).isSome then throw ⟨key⟩
    else return inner.put key v) way origin fields

def addHeader (way : List String) (key : String) (fields : Fields) : Except Clash Fields :=
  editAt .passed (fun _ inner =>
    match inner.get? key with
    | none => return inner.put key (.table .headed [])
    | some (.table .passed below) => return inner.put key (.table .headed below)
    | some _ => throw ⟨key⟩) way .headed fields

def addElement (way : List String) (key : String) (fields : Fields) : Except Clash Fields :=
  editAt .passed (fun _ inner =>
    match inner.get? key with
    | none => return inner.put key (.list true [.table .headed []])
    | some (.list true items) => return inner.put key (.list true (items ++ [.table .headed []]))
    | some _ => throw ⟨key⟩) way .headed fields

end Fields

end ComponentSite.Toml
