/-
  ComponentSite.Toml.Scalar — truth values, numbers, dates and times.

  All of them are words, which nothing but white space, a comma, a closing bracket
  or a comment can follow; so the longest word is read first and then judged. A date
  and a time with one space between them are one word.
-/
import ComponentSite.Number.Shortest
import ComponentSite.Text.Hex
import ComponentSite.Text.Search
import ComponentSite.Toml.Value

namespace ComponentSite.Toml
open Text

/-! ## Numbers -/

/-- Digits, between which single underscores may stand. -/
def isDigitRun (digit : Char → Bool) (s : List Char) : Bool :=
  (s.splitOn '_').all fun part => !part.isEmpty && part.all digit

def dropSign : List Char → List Char
  | '+' :: r => r
  | '-' :: r => r
  | s => s

def isWholeNumber (s : List Char) : Bool :=
  isDigitRun Char.isDigit s && (s.head? != some '0' || s.length == 1)

def valueIn (base : Nat) (s : List Char) : Nat :=
  s.foldl (fun n c => if c == '_' then n else n * base + (hexDigit? c).getD 0) 0

/-- Whole numbers have 64 bits: they reach from minus this one up to less than it. -/
def integerLimit : Nat := 0x8000000000000000

def isInteger (s : List Char) : Bool :=
  match s with
  | '0' :: 'x' :: r => isDigitRun (fun c => (hexDigit? c).isSome) r && valueIn 16 r < integerLimit
  | '0' :: 'o' :: r => isDigitRun (fun c => '0' ≤ c && c ≤ '7') r && valueIn 8 r < integerLimit
  | '0' :: 'b' :: r => isDigitRun (fun c => c == '0' || c == '1') r && valueIn 2 r < integerLimit
  | '-' :: r => isWholeNumber r && valueIn 10 r ≤ integerLimit
  | _ => isWholeNumber (dropSign s) && valueIn 10 (dropSign s) < integerLimit

def isExponent (s : List Char) : Bool := isDigitRun Char.isDigit (dropSign s)

def exponentOf (s : List Char) : Int :=
  let n : Int := valueIn 10 (dropSign s)
  if s.head? == some '-' then -n else n

def isDigitPart (c : Char) : Bool := c.isDigit || c == '_'

/-- What stands after the whole part of a decimal number: the digits after its point,
    and its exponent. One of them is there. -/
def fraction? (s : List Char) : Option (List Char × Int) :=
  let exponent? (s : List Char) : Option Int :=
    match s with
    | e :: r => if (e == 'e' || e == 'E') && isExponent r then some (exponentOf r) else none
    | [] => none
  match s with
  | '.' :: r =>
    let digits := r.takeWhile isDigitPart
    let rest := r.dropWhile isDigitPart
    if !isDigitRun Char.isDigit digits then none
    else if rest.isEmpty then some (digits, 0)
    else (exponent? rest).map fun e => (digits, e)
  | _ => (exponent? s).map fun e => ([], e)

def decimal? (s : List Char) : Option Number.Decimal := do
  let whole := s.takeWhile isDigitPart
  let (digits, exponent) ← fraction? (s.dropWhile isDigitPart)
  if !isWholeNumber whole then none
  else return ⟨valueIn 10 (whole ++ digits), exponent - (digits.filter Char.isDigit).length⟩

/-- A decimal number, which must not be too great for a double, though it may be too
    small; infinity; or no number. -/
def isFloat (s : List Char) : Bool :=
  let size := dropSign s
  if size == "inf".toList || size == "nan".toList then true
  else match decimal? size with
    | some d => s.head? == some '-' || d.isFinite
    | none => false

/-! ## Dates and times -/

def isPair (low high : Nat) : List Char → Bool
  | [a, b] =>
    a.isDigit && b.isDigit && low ≤ valueIn 10 [a, b] && valueIn 10 [a, b] ≤ high
  | _ => false

def daysIn (year month : Nat) : Nat :=
  if month == 2 then
    if year % 4 == 0 && (year % 100 != 0 || year % 400 == 0) then 29 else 28
  else if month == 4 || month == 6 || month == 9 || month == 11 then 30
  else 31

def isDate (s : List Char) : Bool :=
  match s.splitOn '-' with
  | [year, month, day] =>
    year.length == 4 && year.all Char.isDigit && isPair 1 12 month &&
      isPair 1 (daysIn (valueIn 10 year) (valueIn 10 month)) day
  | _ => false

def isTime (s : List Char) : Bool :=
  match s.splitOn ':' with
  | [hour, minute, second] =>
    isPair 0 23 hour && isPair 0 59 minute && isPair 0 60 (second.take 2) &&
      match second.drop 2 with
      | [] => true
      | '.' :: digits => !digits.isEmpty && digits.all Char.isDigit
      | _ => false
  | _ => false

def isOffset (s : List Char) : Bool :=
  match s with
  | ['Z'] => true
  | ['z'] => true
  | sign :: r =>
    (sign == '+' || sign == '-') &&
      match r.splitOn ':' with
      | [hour, minute] => isPair 0 23 hour && isPair 0 59 minute
      | _ => false
  | [] => false

def isDayTime (s : List Char) : Bool :=
  let isClock (c : Char) : Bool := c.isDigit || c == ':' || c == '.'
  let offset := s.dropWhile isClock
  isTime (s.takeWhile isClock) && (offset.isEmpty || isOffset offset)

def isMoment (s : List Char) : Bool :=
  if isDate (s.take 10) then
    match s.drop 10 with
    | [] => true
    | c :: r => (c == 'T' || c == 't' || c == ' ') && isDayTime r
  else isTime s

/-! ## Words -/

def isWordChar (c : Char) : Bool :=
  c.isAlphanum || c == '+' || c == '-' || c == '.' || c == ':' || c == '_'

/-- The longest word at the start, with a time after a date. -/
def takeWord (s : List Char) : List Char × List Char :=
  let first := s.takeWhile isWordChar
  let after := s.dropWhile isWordChar
  match after with
  | ' ' :: c :: r =>
    if isDate first && c.isDigit then
      (first ++ ' ' :: (c :: r).takeWhile isWordChar, (c :: r).dropWhile isWordChar)
    else (first, after)
  | _ => (first, after)

def wordValue? (w : List Char) : Option Value :=
  if w == "true".toList then some (.boolean true)
  else if w == "false".toList then some (.boolean false)
  else if isInteger w || isFloat w then some (.number (String.ofList w))
  else if isMoment w then some (.moment (String.ofList w))
  else none

def scalar? (s : List Char) : Option (Value × List Char) :=
  let (word, after) := takeWord s
  (wordValue? word).map fun v => (v, after)

end ComponentSite.Toml
