/-
  ComponentSite.Template.Read — templates read from their source.

  The source is text and tags in turn. A backslash before two braces makes them
  text; of several backslashes before two braces one goes, and the braces open a
  tag. A tag that only the blanks of its line stand beside (`standsAlone`) takes its
  line with it, values apart: the blanks before it and the line end after it are
  dropped. A tilde drops all white space on its side.

  Blocks must be closed in order and under their own name. A template with a tag
  that cannot be read is refused as a whole.
-/
import ComponentSite.Template.Tag
import ComponentSite.Text.Blank

namespace ComponentSite.Template
open Text

/-! ## Text -/

/-- The text up to the next `stop`, escapes undone, and the rest; the next `literal`
    characters are taken as they are. -/
def scanText (stop : List Char) : (literal : Nat) → List Char → List Char × List Char
  | _, [] => ([], [])
  | n + 1, c :: r =>
    let (t, rest) := scanText stop n r
    (c :: t, rest)
  | 0, c :: r =>
    let braces (s : List Char) : Bool := openBraces.toList.isPrefixOf s
    if stop.isPrefixOf (c :: r) then ([], c :: r)
    else
      let backslashes := if c == '\\' then r.takeWhile (· == '\\') else []
      if c == '\\' && braces (r.drop backslashes.length) then
        if backslashes.isEmpty then
          scanText stop (if (openBraces ++ openBraces).toList.isPrefixOf r then 4 else 2) r
        else scanText stop backslashes.length r
      else
        let (t, rest) := scanText stop 0 r
        (c :: t, rest)

def isLineSpace (c : Char) : Bool := c == ' ' || c == '\t'

def isLineEnd (c : Char) : Bool := c == '\n' || c == '\r'

def dropLineStart (s : List Char) : List Char :=
  match s.dropWhile isLineSpace with
  | '\r' :: '\n' :: r => r
  | '\n' :: r => r
  | r => r

/-- Before the tag there are only blanks on its line; `before` is read backwards. -/
def startsLine (before : List Char) : Bool :=
  match before.dropWhile isLineSpace with
  | [] => true
  | c :: _ => isLineEnd c

def endsLine (after : List Char) : Bool :=
  match after.dropWhile isLineSpace with
  | [] => false
  | c :: _ => isLineEnd c

/-! ## The state of reading -/

structure Frame where
  kind : BlockKind
  call : Call
  /-- What was read before the `else`, once there was one. -/
  body : Option (List Node)
  /-- The nodes around the block, the last first. -/
  outer : List Node

def Frame.node (f : Frame) (nodes : List Node) : Node :=
  match f.kind, f.body with
  | .helper, none => .block f.call (some nodes.reverse) none
  | .helper, some body => .block f.call (some body) (some nodes.reverse)
  | .decorator, _ => .decorator f.call (some nodes.reverse)
  | .partialUse, _ => .partialUse f.call [] (some nodes.reverse)

/-- The name closes the block: it is the one in its opening tag, and if that uses a
    template, also a name that a template can have. -/
def Frame.closedBy (f : Frame) (name : String) : Bool :=
  f.call.name.text == name && (f.kind != .partialUse || isTemplateName name.toList)

structure Reading where
  frames : List Frame
  /-- The nodes of the innermost open block, the last first. -/
  nodes : List Node
  /-- The tag before ended in a tilde. -/
  dropBlank : Bool
  /-- The tag before stood alone on its line. -/
  dropLine : Bool

def Reading.start : Reading := ⟨[], [], false, false⟩

namespace Reading

def mapLastText (change : List Char → List Char) (r : Reading) : Reading :=
  match r.nodes with
  | .text s :: rest => { r with nodes := .text (change s) :: rest }
  | _ => r

def trimmedText (r : Reading) (text : List Char) : List Char :=
  if r.dropBlank then trimStart text
  else if r.dropLine then dropLineStart text
  else text

def push (r : Reading) (node : Node) : Reading := { r with nodes := node :: r.nodes }

/-- Adds what stands between two tags: `text` is `source` with escapes undone. Mere
    white space after a tilde is nothing. -/
def addText (r : Reading) (source text : List Char) : Reading :=
  if source.isEmpty || (source.all isTagSpace && r.dropBlank) then r
  else { r.push (.text (r.trimmedText text)) with dropLine := false }

def applyTildes (r : Reading) (t : Tildes) : Reading :=
  { (if t.before then r.mapLastText trimEnd else r) with dropBlank := t.after }

/-- Takes the line of a tag that stands alone; `keepIndent` leaves the blanks before
    it, which indent what the tag is replaced with. -/
def takeLine (r : Reading) (keepIndent : Bool) (before after : List Char) : Reading :=
  let alone := endsLine after && startsLine before
  let r := if alone && !keepIndent then
      r.mapLastText fun s => (s.reverse.dropWhile isLineSpace).reverse
    else r
  { r with dropLine := alone }

def openFrame (r : Reading) (kind : BlockKind) (call : Call) : Reading :=
  { r with frames := ⟨kind, call, none, r.nodes⟩ :: r.frames, nodes := [] }

def closeFrame (r : Reading) (name : String) : Except TemplateFault Reading :=
  match r.frames with
  | [] => .error .unreadable
  | f :: frames =>
    if f.closedBy name then
      .ok { r with frames, nodes := f.node r.nodes :: f.outer }
    else .error (.mismatchedClose f.call.name.text name)

/-- The `else` of the innermost block, which must be a helper's without one so far. -/
def splitFrame (r : Reading) : Except TemplateFault Reading :=
  match r.frames with
  | ⟨.helper, call, none, outer⟩ :: frames =>
    .ok { r with frames := ⟨.helper, call, some r.nodes.reverse, outer⟩ :: frames, nodes := [] }
  | _ => .error .unreadable

/-- Takes a tag in; `before` is the source before it, backwards, `after` the source
    after it. -/
def applyTag (r : Reading) (tag : Tag) (t : Tildes) (before after : List Char) :
    Except TemplateFault Reading :=
  match tag with
  | .comment => .ok ((r.takeLine false before after).push .comment)
  | .value call escaped => .ok ((r.applyTildes t).push (.value call escaped))
  | .otherwise => ((r.applyTildes t).takeLine false before after).splitFrame
  | .openBlock kind call => .ok (((r.applyTildes t).takeLine false before after).openFrame kind call)
  | .close name => ((r.applyTildes t).takeLine false before after).closeFrame name
  | .decorator call =>
    .ok (((r.applyTildes t).takeLine false before after).push (.decorator call none))
  | .partialUse call =>
    let indent := if t.before then [] else (before.takeWhile isLineSpace).reverse
    .ok (((r.applyTildes t).takeLine true before after).push (.partialUse call indent none))

end Reading

/-! ## Reading a source -/

/-- The source of a raw block after its opening tag: the text, what stands there in
    the source up to the closing tag, the closing tag, and the rest. White space
    right after the opening tag is no part of the text. -/
def rawBody? (s : List Char) : Option (List Char × List Char × String × Tildes × List Char) := do
  let inner := skipSpace s
  let (text, rest) := scanText (openBraces ++ openBraces).toList 0 inner
  let (name, tildes, after) ← rawClosing? rest
  return (text, s.take (s.length - rest.length), name, tildes, after)

/-- Reads on; `before` is the source read so far, backwards. Each tag takes a unit of
    `fuel`. -/
def readFrom : (fuel : Nat) → (before : List Char) → List Char → Reading → Except TemplateFault Reading
  | 0, _, _, _ => .error .unreadable
  | fuel + 1, before, s, r =>
    let (text, rest) := scanText openBraces.toList 0 s
    let source := s.take (s.length - rest.length)
    let r := r.addText source text
    let before := source.reverse ++ before
    if rest.isEmpty then .ok r
    else match rawOpening? rest with
      | some (call, opening, body) => do
        let (text, inside, name, closing, after) ←
          (rawBody? body).elim (.error .unreadable) .ok
        let r := ((r.applyTildes opening).takeLine false before body).openFrame .helper call
        let r := r.push (.text (r.trimmedText text))
        let beforeClosing := inside.reverse ++ (rest.take (rest.length - body.length)).reverse ++ before
        let r ← ((r.applyTildes closing).takeLine false beforeClosing after).closeFrame name
        readFrom fuel ((rest.take (rest.length - after.length)).reverse ++ before) after r
      | none =>
        match tag? rest with
        | some (tag, tildes, after) => do
          let r ← r.applyTag tag tildes before after
          readFrom fuel ((rest.take (rest.length - after.length)).reverse ++ before) after r
        | none => .error .unreadable

def read? (source : String) : Except TemplateFault (List Node) := do
  let s := source.toList
  let r ← readFrom (s.length + 1) [] s .start
  match r.frames with
  | [] => return r.nodes.reverse
  | f :: _ => .error (.unclosedBlock f.call.name.text)

end ComponentSite.Template
