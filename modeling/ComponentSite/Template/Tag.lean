/-
  ComponentSite.Template.Tag — the tags of a template.

  A tag is read from the text that starts with its two braces; the answer is the
  tag and the text after it. White space may stand between any two parts of a tag, but
  not inside a name, a reference or a number. Where several readings are possible the
  first that fits is taken and no other is tried later. A literal without a value
  makes the tag unreadable.
-/
import ComponentSite.Template.Literal
import ComponentSite.Template.Node

namespace ComponentSite.Template
open Text

/-! ## References -/

def isKeySeparator (c : Char) : Bool := c == '/' || c == '.'

def separator? : List Char → Option (List Char)
  | c :: r => if isKeySeparator c then some r else none
  | [] => none

/-- A key: a name, or any text in square brackets. -/
def key? (s : List Char) : Option (String × List Char) :=
  match s with
  | '[' :: r =>
    match r.dropWhile (· != ']') with
    | _ :: after => some (String.ofList (r.takeWhile (· != ']')), after)
    | [] => none
  | _ => (word? isNameChar s).map fun (w, r) => (String.ofList w, r)

/-- More keys, each after a separator. `fuel` is at least the length of the text. -/
def moreKeys : (fuel : Nat) → List Char → List String × List Char
  | 0, s => ([], s)
  | fuel + 1, s =>
    match (separator? s).bind key? with
    | some (k, r) =>
      let (ks, r) := moreKeys fuel r
      (k :: ks, r)
    | none => ([], s)

def ups : (fuel : Nat) → List Char → Nat × List Char
  | 0, s => (0, s)
  | fuel + 1, s =>
    match (rest? "..".toList s).bind separator? with
    | some r =>
      let (n, r) := ups fuel r
      (n + 1, r)
    | none => (0, s)

/-- The text after one of these, the first that fits, or the text itself. -/
def skipOne (options : List String) (s : List Char) : List Char :=
  (options.findSome? fun t => rest? t.toList s).getD s

/-- A reference and the text after it. The key `this` is no step. -/
def reference? (s : List Char) : Option (Reference × List Char) := do
  let s := skipOne ["this/", "this.", "./"] s
  let (root, s) := match (rest? "@root".toList s).bind separator? with
    | some r => ([Step.root], r)
    | none => ([], s)
  let (loop, s) := match s with
    | '@' :: r => (true, r)
    | _ => (false, s)
  let (level, s) := ups s.length s
  let (first, s) ← key? s
  let (more, s) := moreKeys s.length s
  let keys := (first :: more).filter (· != "this")
  if loop && root.isEmpty then
    match keys with
    | name :: _ => return (.loopValue level name, s)
    | [] => return (.path [], s)
  else return (.path (root ++ List.replicate level .up ++ keys.map .key), s)

/-! ## Parameters -/

/-- `as` and `else` are no parameters, unless a name follows. -/
def isKeyword (s : List Char) : Bool :=
  let ends (t : String) : Bool := ((rest? t.toList s).map fun r => endsName (skipSpace r)).getD false
  ends "as" || ends "else"

inductive Argument
  | plain (p : Param)
  | named (name : String) (p : Param)

mutual

def param? : (fuel : Nat) → List Char → Option (Param × List Char)
  | 0, _ => none
  | fuel + 1, s =>
    if isKeyword s then none
    else
      match literalEnd? s with
      | some r => (literalValue? (s.take (s.length - r.length))).map fun v => (.literal v, r)
      | none => (reference? s).map (fun (r, rest) => (.reference r, rest)) <|> inParens? fuel s

def inParens? : (fuel : Nat) → List Char → Option (Param × List Char)
  | 0, _ => none
  | fuel + 1, s =>
    match s with
    | '(' :: r => do
      let r := skipSpace r
      let withArguments : Option (Param × List Char) := do
        let (name, r) ← word? isNameChar r
        let (args, r) := arguments fuel r
        if args.isEmpty then none
        else return (.call (String.ofList name) (plainArguments args) (namedArguments args), r)
      let bare : Option (Param × List Char) := do
        let (_, after) ← reference? r
        return (.call (String.ofList (r.take (r.length - after.length))) [] [], after)
      let (p, r) ← withArguments <|> bare
      let r ← token? ")" r
      return (p, r)
    | _ => none

def argument? : (fuel : Nat) → List Char → Option (Argument × List Char)
  | 0, _ => none
  | fuel + 1, s =>
    let s := skipSpace s
    let named : Option (Argument × List Char) := do
      let (name, r) ← word? isNameChar s
      let r ← token? "=" r
      let (p, r) ← param? fuel (skipSpace r)
      return (.named (String.ofList name) p, r)
    named <|> (param? fuel s).map fun (p, r) => (.plain p, r)

def arguments : (fuel : Nat) → List Char → List Argument × List Char
  | 0, s => ([], s)
  | fuel + 1, s =>
    match argument? fuel s with
    | some (a, r) =>
      let (as, r) := arguments fuel r
      (a :: as, r)
    | none => ([], s)

def plainArguments (args : List Argument) : List Param :=
  args.filterMap fun
    | .plain p => some p
    | .named .. => none

def namedArguments (args : List Argument) : List (String × Param) :=
  args.filterMap fun
    | .named name p => some (name, p)
    | .plain _ => none

end

/-- Enough for every nesting of parameters in a text: a level of parentheses takes a
    character and four units. -/
def nesting (s : List Char) : Nat := 4 * s.length + 4

/-- The names a block binds: `as |value key|`. -/
def binds? (s : List Char) : Option (List String × List Char) := do
  let r ← token? "as" s
  let r ← token? "|" r
  let (value, r) ← word? isNameChar (skipSpace r)
  match word? isNameChar (skipSpace r) with
  | some (key, r) => return ([String.ofList value, String.ofList key], ← token? "|" r)
  | none => return ([String.ofList value], ← token? "|" r)

/-! ## Calls -/

def bareCall? (s : List Char) : Option (Call × List Char) :=
  let named (text : List Char) (p : Param) : Call := ⟨⟨String.ofList text, some p⟩, [], [], []⟩
  match inParens? (nesting s) s with
  | some (p, r) => some (named [] p, r)
  | none => (reference? s).map fun (ref, r) =>
      (named (s.take (s.length - r.length)) (.reference ref), r)

/-- A name with at least one argument, or else a name alone. -/
def valueCall? (s : List Char) : Option (Call × List Char) :=
  let withArguments : Option (Call × List Char) := do
    let (name, r) ← word? isNameChar s
    let (args, r) := arguments (nesting r) r
    if args.isEmpty then none
    else return (⟨⟨String.ofList name, none⟩, plainArguments args, namedArguments args, []⟩, r)
  withArguments <|> bareCall? s

def blockCall? (s : List Char) : Option (Call × List Char) := do
  let (name, r) ← word? isNameChar s
  let (args, r) := arguments (nesting r) r
  let (binds, r) := (binds? r).getD ([], r)
  return (⟨⟨String.ofList name, none⟩, plainArguments args, namedArguments args, binds⟩, r)

def partialCall? (s : List Char) : Option (Call × List Char) := do
  let (name, r) ← (templateName? s).map (fun (w, r) => (⟨String.ofList w, none⟩, r))
    <|> (bareCall? s).map (fun (c, r) => (c.name, r))
  let (args, r) := arguments (nesting r) r
  return (⟨name, plainArguments args, namedArguments args, []⟩, r)

/-! ## Tags -/

structure Tildes where
  before : Bool
  after : Bool
  deriving DecidableEq, Repr

inductive BlockKind
  | helper
  | decorator
  | partialUse
  deriving DecidableEq, Repr

inductive Tag
  | comment
  | value (call : Call) (escaped : Bool)
  | otherwise
  | openBlock (kind : BlockKind) (call : Call)
  | close (name : String)
  | decorator (call : Call)
  | partialUse (call : Call)
  deriving Repr

def tilde (s : List Char) : Bool × List Char :=
  match skipSpace s with
  | '~' :: r => (true, r)
  | _ => (false, s)

/-- `open? … close` with an optional tilde inside each end and `inner?` between. -/
def between? {α : Type} (opening closing : String) (inner? : List Char → Option (α × List Char))
    (s : List Char) : Option (α × Tildes × List Char) := do
  let r ← rest? opening.toList s
  let (before, r) := tilde r
  let (a, r) ← inner? (skipSpace r)
  let (after, r) := tilde r
  let r ← token? closing r
  return (a, ⟨before, after⟩, r)

def marked? {α : Type} (mark : String) (inner? : List Char → Option (α × List Char)) (s : List Char) :
    Option (α × List Char) :=
  (rest? mark.toList s).bind fun r => inner? (skipSpace r)

def openBraces : String := "\x7b\x7b"
def closeBraces : String := "\x7d\x7d"

/-- A comment, up to `--` and two braces if it starts with `--` and they come, and up
    to two braces otherwise. -/
def comment? (s : List Char) : Option (List Char) := do
  let r ← rest? (openBraces ++ "!").toList s
  let long := ((token? "--" r).bind (breakOn ("--" ++ closeBraces).toList)).map (·.2)
  long <|> (breakOn closeBraces.toList r).map (·.2)

/-- A value given out as it is: in three braces, in two pairs of braces, or after `&`. -/
def plainValue? (s : List Char) : Option (Call × Tildes × List Char) :=
  let braced (r : List Char) : Option (Call × List Char) :=
    (valueCall? r).bind fun (c, r) => (token? "\x7d" r).map (c, ·)
  between? "\x7b\x7b\x7b" "\x7d\x7d\x7d" valueCall? s
    <|> between? openBraces closeBraces (marked? "\x7b" braced) s
    <|> between? openBraces closeBraces (marked? "&" bareCall?) s

def else? (s : List Char) : Option (Unit × List Char) :=
  ((rest? "else".toList s) <|> (rest? ['^'] s)).map ((), ·)

def tag? (s : List Char) : Option (Tag × Tildes × List Char) :=
  let inside (inner? : List Char → Option (Tag × List Char)) : Option (Tag × Tildes × List Char) :=
    between? openBraces closeBraces inner? s
  let call (mark : String) (call? : List Char → Option (Call × List Char)) (tag : Call → Tag)
      (r : List Char) : Option (Tag × List Char) :=
    (marked? mark call? r).map fun (c, r) => (tag c, r)
  match comment? s with
  | some r => some (.comment, ⟨false, false⟩, r)
  | none =>
    inside (fun r => (else? r).map fun (_, r) => (.otherwise, r))
    <|> inside (fun r => (valueCall? r).map fun (c, r) => (.value c true, r))
    <|> (plainValue? s).map (fun (c, t, r) => (.value c false, t, r))
    <|> inside (marked? "#" (call "*" blockCall? (.openBlock .decorator)))
    <|> inside (marked? "#" (call ">" partialCall? (.openBlock .partialUse)))
    <|> inside (call "#" blockCall? (.openBlock .helper))
    <|> inside (call "*" blockCall? .decorator)
    <|> inside (call ">" partialCall? .partialUse)
    <|> inside (fun r => (marked? "/" closingName? r).map fun (w, r) => (.close (String.ofList w), r))

def rawOpening? (s : List Char) : Option (Call × Tildes × List Char) :=
  between? "\x7b\x7b\x7b\x7b" "\x7d\x7d\x7d\x7d" blockCall? s

def rawClosing? (s : List Char) : Option (String × Tildes × List Char) :=
  between? "\x7b\x7b\x7b\x7b" "\x7d\x7d\x7d\x7d"
    (fun r => (marked? "/" (word? isNameChar) r).map fun (w, r) => (String.ofList w, r)) s

end ComponentSite.Template
