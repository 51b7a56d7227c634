/-
  ComponentSite.Template.Json — data written as JSON.

  `Value.ofJson?` reads a text that holds one value and white space around it. The
  form is strict: no commas too many, no zeros before a number, no control characters
  in a text, and surrogates only as the two halves of a pair. Of two fields with one
  name the last one counts. Lists and objects may be nested in each other
  `maxNested` times.
-/
import ComponentSite.Template.Value
import ComponentSite.Text.Hex
import ComponentSite.Text.Search

namespace ComponentSite.Template.Json
open Text

def maxNested : Nat := 127

def skipBlank (s : List Char) : List Char :=
  s.dropWhile fun c => c == ' ' || c == '\t' || c == '\n' || c == '\r'

/-! ## Texts -/

def isHighSurrogate (n : Nat) : Bool := 0xD800 ≤ n && n < 0xDC00

def isLowSurrogate (n : Nat) : Bool := 0xDC00 ≤ n && n < 0xE000

/-- The character with the code that four digits write, or two times four after each
    other, and the text after them. -/
def codeEscape? (s : List Char) : Option (Char × List Char) := do
  let (high, r) ← hexField? 4 s
  if isHighSurrogate high then
    let r ← rest? ['\\', 'u'] r
    let (low, r) ← hexField? 4 r
    if isLowSurrogate low then
      (charOfCode? (0x10000 + (high - 0xD800) * 0x400 + (low - 0xDC00))).map fun c => (c, r)
    else none
  else (charOfCode? high).map fun c => (c, r)

def escape? : List Char → Option (Char × List Char)
  | '\x22' :: r => some ('\x22', r)
  | '\\' :: r => some ('\\', r)
  | '/' :: r => some ('/', r)
  | 'b' :: r => some ('\x08', r)
  | 'f' :: r => some ('\x0c', r)
  | 'n' :: r => some ('\n', r)
  | 'r' :: r => some ('\r', r)
  | 't' :: r => some ('\t', r)
  | 'u' :: r => codeEscape? r
  | _ => none

def quoted? : (fuel : Nat) → List Char → Option (List Char × List Char)
  | 0, _ => none
  | _ + 1, [] => none
  | fuel + 1, c :: r =>
    if c == '\x22' then some ([], r)
    else if c.toNat < 0x20 then none
    else do
      let (d, r) ← if c == '\\' then escape? r else some (c, r)
      let (t, r) ← quoted? fuel r
      return (d :: t, r)

def text? (s : List Char) : Option (String × List Char) := do
  let r ← rest? ['\x22'] s
  let (t, r) ← quoted? s.length r
  return (String.ofList t, r)

/-! ## Numbers -/

def digits? (s : List Char) : Option (List Char × List Char) :=
  let ds := s.takeWhile Char.isDigit
  if ds.isEmpty then none else some (ds, s.dropWhile Char.isDigit)

def numeral (digits : List Char) : Nat := digits.foldl (fun n c => 10 * n + Number.digitValue c) 0

def exponent? : List Char → Option (Int × List Char)
  | '-' :: r => (digits? r).map fun (ds, r) => (-(numeral ds : Int), r)
  | '+' :: r => (digits? r).map fun (ds, r) => ((numeral ds : Int), r)
  | r => (digits? r).map fun (ds, r) => ((numeral ds : Int), r)

def number? (s : List Char) : Option (Number × List Char) := do
  let (negative, s) := match s with
    | '-' :: r => (true, r)
    | _ => (false, s)
  let (whole, s) ← digits? s
  if whole.head? == some '0' && 1 < whole.length then none
  let (fraction, s) ← match s with
    | '.' :: r => (digits? r).map fun (ds, r) => (some ds, r)
    | _ => some (none, s)
  let (exponent, s) ← match s with
    | 'e' :: r => (exponent? r).map fun (e, r) => (some e, r)
    | 'E' :: r => (exponent? r).map fun (e, r) => (some e, r)
    | _ => some (none, s)
  let n ← Number.Written.value? ⟨negative, whole, fraction, exponent⟩
  return (n, s)

/-! ## Values -/

def constant? (s : List Char) : Option (Value × List Char) :=
  (rest? "null".toList s).map (fun r => (.null, r))
    <|> (rest? "true".toList s).map (fun r => (.bool true, r))
    <|> (rest? "false".toList s).map (fun r => (.bool false, r))

mutual

/-- The value that stands here, inside of which `depth` more may be nested. -/
def value? : (fuel depth : Nat) → List Char → Option (Value × List Char)
  | 0, _, _ => none
  | fuel + 1, depth, s =>
    match skipBlank s with
    | '[' :: r =>
      match depth, skipBlank r with
      | 0, _ => none
      | _ + 1, ']' :: r => some (.list [], r)
      | depth + 1, r => (items? fuel depth r).map fun (vs, r) => (.list vs, r)
    | '\x7b' :: r =>
      match depth, skipBlank r with
      | 0, _ => none
      | _ + 1, '\x7d' :: r => some (.object [], r)
      | depth + 1, r => (fields? fuel depth r).map fun (fs, r) => (.ofFields fs, r)
    | s =>
      (text? s).map (fun (t, r) => (.text t, r))
        <|> (number? s).map (fun (n, r) => (.number n, r))
        <|> constant? s

def items? : (fuel depth : Nat) → List Char → Option (List Value × List Char)
  | 0, _, _ => none
  | fuel + 1, depth, s => do
    let (v, r) ← value? fuel depth s
    match skipBlank r with
    | ',' :: r =>
      let (vs, r) ← items? fuel depth r
      return (v :: vs, r)
    | ']' :: r => return ([v], r)
    | _ => none

def fields? : (fuel depth : Nat) → List Char → Option (List (String × Value) × List Char)
  | 0, _, _ => none
  | fuel + 1, depth, s => do
    let (name, r) ← text? (skipBlank s)
    let r ← rest? [':'] (skipBlank r)
    let (v, r) ← value? fuel depth r
    match skipBlank r with
    | ',' :: r =>
      let (fs, r) ← fields? fuel depth r
      return ((name, v) :: fs, r)
    | '\x7d' :: r => return ([(name, v)], r)
    | _ => none

end

end Json

/-- The value that a text writes. A level of nesting takes a character and two units
    of fuel. -/
def Value.ofJson? (s : List Char) : Option Value :=
  match Json.value? (2 * s.length + 1) Json.maxNested s with
  | some (v, r) => if (Json.skipBlank r).isEmpty then some v else none
  | none => none

end ComponentSite.Template
