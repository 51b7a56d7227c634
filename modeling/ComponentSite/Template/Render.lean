/-
  ComponentSite.Template.Render — what a template gives with its data.

  Blocks stand in a stack of scopes, the innermost first. A scope says where its
  block's data is: at a path of the whole data, or a value of its own. A reference
  starts from there, from an outer scope for each step up, from the whole data, or
  from a name that a block has bound.

  A template uses another one with a stack and a list of inline templates of its
  own, so what it changes there ends with it. Every line it gives but the first is
  indented as the tag that uses it is.

  The engine itself counts no depth: templates that use each other without end are
  followed until the stack is used up, and the program ends with it. So that rendering
  is a function here, it takes a unit of depth for each block and each use of a
  template, and gives `nestedTooDeep` when none is left. That is no error of the engine:
  it stands for a rendering without a result. The depth that `render` starts with
  (`maxNesting`) is an estimate from the size of the templates and the data.
-/
import ComponentSite.Template.Node
import ComponentSite.Text.Search

namespace ComponentSite.Template

/-! ## Scopes and references -/

/-- What a name bound by a block stands for: a path from the block's data, or a value. -/
inductive Binding
  | path (keys : List String)
  | value (v : Value)
  deriving Repr

structure Scope where
  base : List String := []
  value : Option Value := none
  binds : List (String × Binding) := []
  loop : List (String × Value) := []
  deriving Repr

/-- What a reference leads to: nothing, a place in the whole data, or a value that is
    not part of it. -/
inductive Found
  | missing
  | inData (v : Value) (path : List String)
  | derived (v : Value)
  deriving Repr

namespace Found

def value : Found → Value
  | missing => .null
  | inData v _ => v
  | derived v => v

def path? : Found → Option (List String)
  | inData _ path => some path
  | _ => none

end Found

def findInData (data : Value) (path : List String) : Except RenderFault Found :=
  (data.at? path).map fun
    | some v => .inData v path
    | none => .missing

def findDerived (v : Value) (path : List String) : Except RenderFault Found :=
  (v.at? path).map fun
    | some v => .derived v
    | none => .missing

def findFrom (data : Value) (scope : Option Scope) (keys : List String) : Except RenderFault Found :=
  match scope with
  | none => findInData data keys
  | some s =>
    match s.value with
    | some v => findDerived v keys
    | none => findInData data (s.base ++ keys)

def boundTo? (scopes : List Scope) (name : String) : Option (Scope × Binding) :=
  scopes.findSome? fun s => (s.binds.find? (·.1 == name)).map fun (_, b) => (s, b)

def splitUps : List Step → Nat × List Step
  | .up :: rest =>
    let (n, rest) := splitUps rest
    (n + 1, rest)
  | steps => (0, steps)

def keysOf (steps : List Step) : List String :=
  steps.filterMap fun
    | .key name => some name
    | _ => none

/-- What a reference leads to. More steps up than there are blocks lead to the
    innermost one. -/
def resolve (data : Value) (scopes : List Scope) : Reference → Except RenderFault Found
  | .loopValue level name =>
    .ok <| match (scopes[level]?).bind fun s => s.loop.find? (·.1 == name) with
      | some (_, v) => .derived v
      | none => .missing
  | .path steps =>
    match splitUps steps with
    | (_, .root :: rest) => findInData data (keysOf rest)
    | (level, rest) =>
      let keys := keysOf rest
      let bound := match rest with
        | .key name :: _ => boundTo? scopes name
        | _ => none
      match bound with
      | some (_, .value v) => findDerived v keys.tail
      | some (s, .path more) => findInData data (s.base ++ more ++ keys.tail)
      | none => findFrom data (scopes[level]? <|> scopes.head?) keys

/-! ## Helpers with a value -/

def lookupIn (collection index : Value) : Value :=
  match collection, index with
  | .list items, .number n => (n.nat?.bind (items[·]?)).getD .null
  | .object fields, .text key => ((fields.find? (·.1 == key)).map (·.2)).getD .null
  | _, _ => .null

mutual

def Value.sameAs : Value → Value → Bool
  | .null, .null => true
  | .bool a, .bool b => a == b
  | .number a, .number b => a.sameAs b
  | .text a, .text b => a == b
  | .list as, .list bs => Value.sameItems as bs
  | .object as, .object bs => Value.sameFields as bs
  | _, _ => false

def Value.sameItems : List Value → List Value → Bool
  | [], [] => true
  | a :: as, b :: bs => a.sameAs b && Value.sameItems as bs
  | _, _ => false

def Value.sameFields : List (String × Value) → List (String × Value) → Bool
  | [], [] => true
  | (n, a) :: as, (m, b) :: bs => n == m && a.sameAs b && Value.sameFields as bs
  | _, _ => false

end

def Value.int? : Value → Option Int
  | .number n => n.int?
  | _ => none

def Value.extent : Value → Nat
  | .list items => items.length
  | .object fields => fields.length
  | .text s => s.utf8ByteSize
  | _ => 0

/-- The value of a helper that only computes one; nothing if no such helper has the
    name. -/
def computed? (name : String) (params : List Value) : Option (Except RenderFault Value) :=
  let param (i : Nat) : Except RenderFault Value :=
    match params[i]? with
    | some v => .ok v
    | none => .error (.missingParameter name i)
  let typed {α : Type} (read : Value → Option α) (i : Nat) : Except RenderFault α := do
    match read (← param i) with
    | some a => .ok a
    | none => .error (.missingParameter name i)
  let compare (test : Int → Int → Bool) : Except RenderFault Value := do
    return .bool (test (← typed Value.int? 0) (← typed Value.int? 1))
  let holds (i : Nat) : Except RenderFault Bool := (param i).map (·.truthy false)
  match name with
  | "lookup" => some do return lookupIn (← param 0) (← param 1)
  | "eq" => some do return .bool ((← param 0).sameAs (← param 1))
  | "ne" => some do return .bool (!(← param 0).sameAs (← param 1))
  | "gt" => some (compare fun a b => a > b)
  | "gte" => some (compare fun a b => a ≥ b)
  | "lt" => some (compare fun a b => a < b)
  | "lte" => some (compare fun a b => a ≤ b)
  | "and" => some do
    let a ← holds 0
    let b ← holds 1
    return .bool (a && b)
  | "or" => some do
    let a ← holds 0
    let b ← holds 1
    return .bool (a || b)
  | "not" => some do return .bool (!(← holds 0))
  | "len" => some do return .ofNat (← param 0).extent
  | _ => none

/-- The helpers that decide what is rendered. -/
def blockHelpers : List String := ["if", "unless", "each", "with", "raw", "log"]

def isHelper (name : String) : Bool := blockHelpers.contains name || (computed? name []).isSome

/-- The named value; of two with the name the last one counts. -/
def namedValue? (named : List (String × Value)) (name : String) : Option Value :=
  (named.reverse.find? (·.1 == name)).map (·.2)

def logLevels : List String := ["error", "warn", "info", "debug", "trace"]

/-- A level of logging must be one that there is; what is no text does not count. -/
def checkLevel (level : Option Value) : Except RenderFault Unit :=
  match level with
  | some (.text t) =>
    if logLevels.contains (String.ofList (Text.lowered t.toList)) then .ok () else .error (.badLevel t)
  | _ => .ok ()

def checkBlockCall (name : String) (params : List Value) (named : List (String × Value)) :
    Except RenderFault Unit :=
  if name == "log" then checkLevel (namedValue? named "level")
  else if name != "raw" && params.isEmpty then .error (.missingParameter name 0)
  else .ok ()

/-! ## The state of rendering -/

structure Env where
  data : Value
  /-- The templates that are known by name. -/
  registry : List (String × List Node)
  scopes : List Scope
  /-- The bodies that uses of templates gave, the innermost first. -/
  bodies : List (List Node)
  /-- How many of them uses of bodies have gone out. -/
  outward : Nat
  indent : List Char
  escaped : Bool

structure State where
  inlines : List (String × List Node)
  /-- The template the node is in; a block is in none. -/
  current : Option String

abbrev Rendered := Except RenderFault (List Char × State)

mutual

/-- What a parameter leads to. A helper that decides what is rendered has nothing to
    render here and gives an empty text. -/
def expand (env : Env) : Param → Except RenderFault Found
  | .literal v => .ok (.derived v)
  | .reference r => resolve env.data env.scopes r
  | .call name params named => do
    let values := (← expandAll env params).map (·.value)
    let named ← expandNamed env named
    match computed? name values with
    | some v => return .derived (← v)
    | none =>
      if blockHelpers.contains name then
        checkBlockCall name values named
        return .derived (.text "")
      else .error (.unknownHelper name)

def expandAll (env : Env) : List Param → Except RenderFault (List Found)
  | [] => .ok []
  | p :: rest => do return (← expand env p) :: (← expandAll env rest)

def expandNamed (env : Env) : List (String × Param) → Except RenderFault (List (String × Value))
  | [] => .ok []
  | (name, p) :: rest => do
    let v := (← expand env p).value
    return (name, v) :: (← expandNamed env rest)

end

/-- The name of a call. One that is itself a call is what that call gives. -/
def nameOf (env : Env) (name : CallName) : Except RenderFault String :=
  match name.value with
  | some (.call n ps named) => do return String.ofList (← expand env (.call n ps named)).value.shown
  | _ => .ok name.text

def escapeChar (c : Char) : List Char :=
  if c == '&' then "&amp;".toList
  else if c == '<' then "&lt;".toList
  else if c == '>' then "&gt;".toList
  else if c == '\x22' then "&quot;".toList
  else if c == '\x27' then "&#x27;".toList
  else if c == '\x60' then "&#x60;".toList
  else if c == '=' then "&#x3D;".toList
  else [c]

/-- The text with the indent after every line feed that something follows. -/
def indented (indent : List Char) : List Char → List Char
  | [] => []
  | c :: r =>
    if c == '\n' && !r.isEmpty then c :: indent ++ indented indent r
    else c :: indented indent r

def Env.write (env : Env) (s : List Char) : List Char :=
  if env.indent.isEmpty then s else indented env.indent s

def Env.shown (env : Env) (v : Value) : List Char :=
  if env.escaped then v.shown.flatMap escapeChar else v.shown

/-! ## Blocks -/

abbrev Below := Env → Option String → List Node → State → Rendered

def renderOption (below : Below) (env : Env) (nodes : Option (List Node)) (st : State) : Rendered :=
  match nodes with
  | some nodes => below env none nodes st
  | none => .ok ([], st)

def scopeOf (found : Found) (binds : List String) : Scope :=
  let scope : Scope := match found.path? with
    | some path => { base := path }
    | none => { value := some found.value }
  match binds with
  | [name] =>
    { scope with binds := [(name, if found.path?.isSome then .path [] else .value found.value)] }
  | _ => scope

def loopBinds (inData : Bool) (binds : List String) (key item : Value) : List (String × Binding) :=
  let value := if inData then Binding.path [] else .value item
  match binds with
  | [v] => [(v, value)]
  | [v, k] => [(k, .value key), (v, value)]
  | _ => []

/-- An item of a loop: what the loop calls its key, the key, the last step of its
    path, and the item. -/
structure LoopItem where
  keyName : String
  key : Value
  step : String
  value : Value

def loopItems : Value → List LoopItem
  | .list items => items.mapIdx fun i v => ⟨"index", .ofNat i, toString i, v⟩
  | .object fields => fields.map fun (name, v) => ⟨"key", .text name, name, v⟩
  | _ => []

def isCollection : Value → Bool
  | .list _ => true
  | .object _ => true
  | _ => false

def itemScope (path? : Option (List String)) (binds : List String) (first last : Bool) (item : LoopItem) :
    Scope :=
  { base := (path?.map (· ++ [item.step])).getD []
    value := if path?.isSome then none else some item.value
    binds := loopBinds path?.isSome binds item.key item.value
    loop := [("first", .bool first), ("last", .bool last), (item.keyName, item.key)] }

def renderItems (below : Below) (env : Env) (path? : Option (List String)) (binds : List String)
    (body : List Node) : (first : Bool) → List LoopItem → State → Rendered
  | _, [], st => .ok ([], st)
  | first, item :: rest, st => do
    let scope := itemScope path? binds first rest.isEmpty item
    let (out, st) ← below { env with scopes := scope :: env.scopes } none body st
    let (more, st) ← renderItems below env path? binds body false rest st
    return (out ++ more, st)

def renderEach (below : Below) (env : Env) (found : Found) (binds : List String)
    (body inverse : Option (List Node)) (st : State) : Rendered :=
  match body with
  | none => .ok ([], st)
  | some body =>
    let items := loopItems found.value
    if isCollection found.value && (!items.isEmpty || inverse.isNone) then
      renderItems below env found.path? binds body true items st
    else renderOption below env inverse st

def renderHelper (below : Below) (env : Env) (call : Call) (body inverse : Option (List Node))
    (st : State) : Rendered := do
  let name ← nameOf env call.name
  let params ← expandAll env call.params
  let named ← expandNamed env call.named
  let first : Except RenderFault Found :=
    match params with
    | p :: _ => .ok p
    | [] => .error (.missingParameter name 0)
  let zero : Bool := match namedValue? named "includeZero" with
    | some (.bool b) => b
    | _ => false
  match name with
  | "if" => renderOption below env (if (← first).value.truthy zero then body else inverse) st
  | "unless" => renderOption below env (if (← first).value.truthy zero then inverse else body) st
  | "each" => renderEach below env (← first) call.binds body inverse st
  | "with" =>
    let found ← first
    if found.value.truthy false then
      renderOption below { env with scopes := scopeOf found call.binds :: env.scopes } body st
    else renderOption below env inverse st
  | "raw" => renderOption below env body st
  | "log" =>
    checkLevel (namedValue? named "level")
    return ([], st)
  | _ =>
    match computed? name (params.map (·.value)) with
    | some v => return (env.shown (← v), st)
    | none => .error (.unknownHelper name)

def renderValue (below : Below) (env : Env) (call : Call) (st : State) : Rendered := do
  if call.isBare && !isHelper (← nameOf env call.name) then
    match call.name.value with
    | some p =>
      match ← expand env p with
      | .missing => return ([], st)
      | found => return (env.write (env.shown found.value), st)
    | none => return ([], st)
  else renderHelper below env call none none st

/-! ## Other templates -/

/-- Puts an inline template where the nodes after it find it. -/
def define (env : Env) (call : Call) (body : Option (List Node)) (st : State) :
    Except RenderFault State := do
  let name ← nameOf env call.name
  let params ← expandAll env call.params
  let _ ← expandNamed env call.named
  if name == "inline" then
    match params, body with
    | p :: _, some body =>
      match p.value with
      | .text title => return { st with inlines := (title, body) :: st.inlines }
      | _ => .error (.badDecorator name)
    | _, _ => .error (.badDecorator name)
  else .error (.unknownDecorator name)

def defineAll (env : Env) : List Node → State → Except RenderFault State
  | [], st => .ok st
  | .decorator call body :: rest, st => do defineAll env rest (← define env call body st)
  | _ :: rest, st => defineAll env rest st

/-- The name under which a template shows the body it was used with. -/
def bodyName : String := "@partial-block"

/-- The template of a name, and the name if it is known by one. -/
def findTemplate? (env : Env) (st : State) (name : String) (body : Option (List Node)) :
    Option (Option String × List Node) :=
  let inline :=
    if name == bodyName then env.bodies[env.outward]?
    else (st.inlines.find? (·.1 == name)).map (·.2)
  match inline with
  | some nodes => some (none, nodes)
  | none =>
    match env.registry.find? (·.1 == name) with
    | some (_, nodes) => some (some name, nodes)
    | none => body.map (none, ·)

/-- The value with named values put into it; what is no object counts as an empty one. -/
def withNamed (v : Value) (named : List (String × Value)) : Value :=
  .object (named.foldl (fun fields (name, w) => Value.setField name w fields) v.fields)

def usedScopes (env : Env) (params : List Found) (named : List (String × Value)) :
    Except RenderFault (List Scope) := do
  let scopes := match params.head?.bind Found.path? with
    | some path => [{ base := path }]
    | none => env.scopes
  if named.isEmpty then return scopes
  else
    let scope := scopes.head?.getD {}
    let here ← findFrom env.data (some scope) []
    return [{ scope with value := some (withNamed here.value named) }]

/-- Renders the use of a template. A template that is nowhere gives nothing. -/
def renderPartial (below : Below) (env : Env) (call : Call) (indent : List Char)
    (body : Option (List Node)) (st : State) : Rendered := do
  let name ← nameOf env call.name
  let params ← expandAll env call.params
  let named ← expandNamed env call.named
  let st ← match body with
    | some nodes => defineAll env nodes st
    | none => .ok st
  if st.current == some name then .error (.selfInclusion name)
  else
    match findTemplate? env st name body with
    | none => return ([], st)
    | some (title, nodes) =>
      let scopes ← usedScopes env params named
      let inner : Env :=
        { env with
          scopes
          bodies := body.toList ++ env.bodies
          outward := if name == bodyName then env.outward + 1 else env.outward - 1
          indent }
      let (out, _) ← below inner title nodes st
      return (out, st)

/-! ## Templates -/

def renderNode (below : Below) (env : Env) (node : Node) (st : State) : Rendered :=
  match node with
  | .text s => .ok (env.write s, st)
  | .comment => .ok ([], st)
  | .value call escaped => renderValue below { env with escaped } call st
  | .block call body inverse => renderHelper below env call body inverse st
  | .partialUse call indent body => renderPartial below env call indent body st
  | .decorator call body => (define env call body st).map ([], ·)

def renderNodes (below : Below) (env : Env) : List Node → State → Rendered
  | [], st => .ok ([], st)
  | node :: rest, st => do
    let (out, st) ← renderNode below env node st
    let (more, st) ← renderNodes below env rest st
    return (out ++ more, st)

def renderTemplate : (depth : Nat) → Below
  | 0, _, _, _, _ => .error .nestedTooDeep
  | depth + 1, env, name, nodes, st =>
    renderNodes (renderTemplate depth) env nodes { st with current := name }

/-- The depth to start with: a unit for each node with each part of the data. -/
def maxNesting (registry : List (String × List Node)) (data : Value) : Nat :=
  (registry.foldl (fun n (_, nodes) => n + Node.sizeList nodes) 2) * (data.size + 2)

def render (registry : List (String × List Node)) (entry : String) (nodes : List Node) (data : Value) :
    Except RenderFault String :=
  let env : Env :=
    { data, registry, scopes := [{}], bodies := [], outward := 0, indent := [], escaped := true }
  (renderTemplate (maxNesting registry data) env (some entry) nodes ⟨[], none⟩).map
    fun (out, _) => String.ofList out

end ComponentSite.Template
