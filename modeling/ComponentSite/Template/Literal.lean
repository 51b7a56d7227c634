/-
  ComponentSite.Template.Literal — values written in a tag.

  First it is found where a literal ends (`literalEnd?`), and then what stands up to
  there is read as JSON (`literalValue?`). The first is more liberal than the second:
  it lets zeros stand before a number, a point after it, a comma before the first
  item, and texts in apostrophes. Of these only a text in apostrophes that is the
  whole literal has a value.
-/
import ComponentSite.Template.Json
import ComponentSite.Template.Name

namespace ComponentSite.Template
open Text

/-! ## Where a literal ends -/

def afterQuote? (quote : Char) : (fuel : Nat) → List Char → Option (List Char)
  | 0, _ => none
  | fuel + 1, s =>
    match s with
    | [] => none
    | '\\' :: 'u' :: r => (hexField? 4 r).bind fun (_, r) => afterQuote? quote fuel r
    | '\\' :: c :: r =>
      if c == quote || (c != '\x22' && c != '\x27' && (Json.escape? [c]).isSome) then afterQuote? quote fuel r
      else none
    | c :: r => if c == quote then some r else if c == '\\' then none else afterQuote? quote fuel r

def afterText? (s : List Char) : Option (List Char) :=
  match s with
  | c :: r => if c == '\x22' || c == '\x27' then afterQuote? c s.length r else none
  | [] => none

def skipDigits (s : List Char) : List Char := s.dropWhile Char.isDigit

def afterExponent (s : List Char) : List Char :=
  let digits := match s with
    | 'E' :: '-' :: r => r
    | 'E' :: r => r
    | _ => []
  if (digits.head?.map Char.isDigit).getD false then skipDigits digits else s

/-- The text after a number, on which no name follows. -/
def afterNumber? (s : List Char) : Option (List Char) := do
  let s := match s with
    | '-' :: r => r
    | _ => s
  let (_, s) ← word? Char.isDigit s
  let s := match s with
    | '.' :: r => r
    | _ => s
  let s := afterExponent (skipDigits s)
  if endsName s then some s else none

def afterConstant? (t : String) (s : List Char) : Option (List Char) :=
  (rest? t.toList s).bind fun r => if endsName r then some r else none

mutual

def afterLiteral? : (fuel : Nat) → List Char → Option (List Char)
  | 0, _ => none
  | fuel + 1, s =>
    match s with
    | '[' :: r => token? "]" (afterItems fuel true r)
    | '\x7b' :: r => token? "\x7d" (afterFields fuel true r)
    | _ =>
      afterText? s <|> afterNumber? s <|> afterConstant? "null" s <|> afterConstant? "true" s
        <|> afterConstant? "false" s

/-- The text after the items of a list; before the first one no comma is needed. -/
def afterItems : (fuel : Nat) → (first : Bool) → List Char → List Char
  | 0, _, s => s
  | fuel + 1, first, s =>
    match (if first then some s else token? "," s).bind fun r => afterLiteral? fuel (skipSpace r) with
    | some r => afterItems fuel false r
    | none => if first then afterItems fuel false s else s

def afterFields : (fuel : Nat) → (first : Bool) → List Char → List Char
  | 0, _, s => s
  | fuel + 1, first, s =>
    let field? (r : List Char) : Option (List Char) := do
      let r ← afterText? (skipSpace r)
      let r ← token? ":" r
      afterLiteral? fuel (skipSpace r)
    match (if first then some s else token? "," s).bind field? with
    | some r => afterFields fuel false r
    | none => if first then afterFields fuel false s else s

end

/-- The text after the literal that stands here. A level of nesting takes a character
    and three units of fuel. -/
def literalEnd? (s : List Char) : Option (List Char) := afterLiteral? (3 * s.length + 1) s

/-! ## What a literal stands for -/

/-- What stands between apostrophes as it stands between quotation marks. -/
def requoted : List Char → List Char
  | [] => []
  | '\\' :: '\x27' :: r => '\x27' :: requoted r
  | '\x22' :: r => '\\' :: '\x22' :: requoted r
  | c :: r => c :: requoted r

def literalValue? (written : List Char) : Option Value :=
  match written with
  | '\x27' :: r => Value.ofJson? ('\x22' :: requoted r.dropLast ++ ['\x22'])
  | _ => Value.ofJson? written

end ComponentSite.Template
