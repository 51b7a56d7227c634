/-
  ComponentSite.Toml.Text — the parts of a TOML text that stand for text: white
  space, comments, strings and keys.

  Each reader answers with what it read and the text after it, or with nothing when
  the text cannot begin so. Control characters other than the tab stand nowhere
  outside line ends, and every line end in a string counts as a line feed.
-/
import ComponentSite.Text.Hex
import ComponentSite.Text.Search

namespace ComponentSite.Toml
open Text

/-! ## Between the parts -/

def isBlank (c : Char) : Bool := c == ' ' || c == '\t'

def skipBlanks (s : List Char) : List Char := s.dropWhile isBlank

def lineEnd? : List Char → Option (List Char)
  | '\n' :: r => some r
  | '\r' :: '\n' :: r => some r
  | _ => none

/-- What may stand in a comment, and unescaped in a string. -/
def isPlain (c : Char) : Bool := c == '\t' || (0x20 ≤ c.toNat && c.toNat != 0x7f)

def skipComment : List Char → List Char
  | '#' :: r => r.dropWhile isPlain
  | s => s

/-- The text after what may close a line: blanks, a comment, and the line end or the
    end of the text. -/
def closeLine? (s : List Char) : Option (List Char) :=
  match skipComment (skipBlanks s) with
  | [] => some []
  | s => lineEnd? s

/-- The text after blanks, line ends, and comments that end their line. `fuel` is at
    least the length of the text. -/
def skipLines : (fuel : Nat) → List Char → List Char
  | 0, s => s
  | fuel + 1, s =>
    let s := skipBlanks s
    match lineEnd? (skipComment s) with
    | some r => skipLines fuel r
    | none => s

/-! ## Strings -/

def escaped? : List Char → Option (Char × List Char)
  | 'b' :: r => some ('\x08', r)
  | 't' :: r => some ('\t', r)
  | 'n' :: r => some ('\n', r)
  | 'f' :: r => some ('\x0c', r)
  | 'r' :: r => some ('\r', r)
  | '"' :: r => some ('"', r)
  | '\\' :: r => some ('\\', r)
  | 'u' :: r => do
    let (n, r) ← hexField? 4 r
    return (← charOfCode? n, r)
  | 'U' :: r => do
    let (n, r) ← hexField? 8 r
    return (← charOfCode? n, r)
  | _ => none

/-- Which character closes a string; only one in double quotes has escapes. -/
inductive Quote
  | double
  | single
  deriving DecidableEq, Repr

def Quote.char : Quote → Char
  | double => '"'
  | single => '\''

def lineText? (q : Quote) : (fuel : Nat) → List Char → Option (List Char × List Char)
  | 0, _ => none
  | _ + 1, [] => none
  | fuel + 1, c :: r =>
    if c == q.char then some ([], r)
    else if c == '\\' && q == .double then do
      let (d, r) ← escaped? r
      let (t, r) ← lineText? q fuel r
      return (d :: t, r)
    else if isPlain c then do
      let (t, r) ← lineText? q fuel r
      return (c :: t, r)
    else none

/-- The text after an escaped line end: all white space is left out. -/
def joinedLine? (s : List Char) : Option (List Char) :=
  (lineEnd? (skipBlanks s)).map fun r => skipWhite r.length r
where
  skipWhite : (fuel : Nat) → List Char → List Char
    | 0, s => s
    | fuel + 1, s =>
      match lineEnd? (skipBlanks s) with
      | some r => skipWhite fuel r
      | none => skipBlanks s

/-- The rest of a string in three quotes. One or two quotes are text; of three and
    more the last three close the string, and at most two are text before them. -/
def blockText? (q : Quote) : (fuel : Nat) → List Char → Option (List Char × List Char)
  | 0, _ => none
  | _ + 1, [] => none
  | fuel + 1, c :: r =>
    let go (more : List Char) (r : List Char) : Option (List Char × List Char) :=
      (blockText? q fuel r).map fun (t, r) => (more ++ t, r)
    if c == q.char then
      let n := ((c :: r).takeWhile (· == c)).length
      if n < 3 then go (List.replicate n c) ((c :: r).drop n)
      else some (List.replicate (min (n - 3) 2) c, (c :: r).drop (min n 5))
    else if c == '\\' && q == .double then
      match joinedLine? r with
      | some r => go [] r
      | none => (escaped? r).bind fun (d, r) => go [d] r
    else match lineEnd? (c :: r) with
      | some r => go ['\n'] r
      | none => if isPlain c then go [c] r else none

def block? (q : Quote) (s : List Char) : Option (List Char × List Char) := do
  let s ← rest? (List.replicate 3 q.char) s
  let s := (lineEnd? s).getD s
  blockText? q s.length s

def line? (q : Quote) (s : List Char) : Option (List Char × List Char) := do
  let s ← rest? [q.char] s
  lineText? q s.length s

/-- A string. Three quotes always open a block. -/
def string? (s : List Char) : Option (String × List Char) := do
  let q := if s.head? == some '\'' then Quote.single else Quote.double
  let (t, r) ←
    if (rest? (List.replicate 3 q.char) s).isSome then block? q s else line? q s
  return (String.ofList t, r)

/-! ## Keys -/

def isBareKeyChar (c : Char) : Bool := c.isAlphanum || c == '_' || c == '-'

def keyPart? (s : List Char) : Option (String × List Char) :=
  match s with
  | '"' :: _ => (line? .double s).map fun (t, r) => (String.ofList t, r)
  | '\'' :: _ => (line? .single s).map fun (t, r) => (String.ofList t, r)
  | _ =>
    let w := s.takeWhile isBareKeyChar
    if w.isEmpty then none else some (String.ofList w, s.dropWhile isBareKeyChar)

def maxKeyParts : Nat := 79

/-- A key of at most so many parts with dots between them, given as the parts before
    the last one and the last one. Blanks may stand around every part. -/
def keyOf? : (parts : Nat) → List Char → Option ((List String × String) × List Char)
  | 0, _ => none
  | parts + 1, s => do
    let (part, s) ← keyPart? (skipBlanks s)
    match skipBlanks s with
    | '.' :: r =>
      let ((way, last), r) ← keyOf? parts r
      return ((part :: way, last), r)
    | s => return (([], part), s)

def key? (s : List Char) : Option ((List String × String) × List Char) := keyOf? maxKeyParts s

end ComponentSite.Toml
