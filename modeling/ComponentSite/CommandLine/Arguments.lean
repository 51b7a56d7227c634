/-
  ComponentSite.CommandLine.Arguments — reading the words of a command line.

  A switch is written `--name`, or with its letter. A value follows as the next word,
  or after an equals sign, or directly after the letter; a next word that looks like a
  switch is no value. After `--` every word is plain. Each switch may be given once,
  and only so many plain words as there is room for. The first word at fault decides,
  unless a switch before it ends the reading.
-/
import ComponentSite.Text.Search

namespace ComponentSite.CommandLine
open Text

structure Switch where
  name : String
  letter : Option Char := none
  takesValue : Bool := true
  /-- Whether the value may be empty. -/
  mayBeEmpty : Bool := true
  /-- Whether nothing after it is read. -/
  ends : Bool := false
  deriving DecidableEq, Repr

inductive UsageFault
  | unknownSwitch (word : String)
  | missingValue (switch : String)
  | unwantedValue (switch : String)
  | emptyValue (switch : String)
  | emptyWord
  | repeatedSwitch (switch : String)
  | unwantedWord (word : String)
  | missingWord (what : String)
  | noCommand
  deriving DecidableEq, Repr

def UsageFault.message : UsageFault → String
  | unknownSwitch word => "there is no switch '" ++ word ++ "'"
  | missingValue switch => "switch '--" ++ switch ++ "' lacks its value"
  | unwantedValue switch => "switch '--" ++ switch ++ "' takes no value"
  | emptyValue switch => "the value of '--" ++ switch ++ "' must not be empty"
  | emptyWord => "a word must not be empty"
  | repeatedSwitch switch => "switch '--" ++ switch ++ "' is given twice"
  | unwantedWord word => "'" ++ word ++ "' is not expected here"
  | missingWord what => "'" ++ what ++ "' is missing"
  | noCommand => "a command is missing"

structure Given where
  switches : List (Switch × String) := []
  words : List String := []
  deriving Repr

namespace Given

def value? (g : Given) (name : String) : Option String :=
  (g.switches.find? (·.1.name == name)).map (·.2)

/-- Whether a switch was given after which nothing is read. -/
def ended (g : Given) : Bool := g.switches.any (·.1.ends)

def has (g : Given) (name : String) : Bool := (g.value? name).isSome

def addSwitch (g : Given) (s : Switch) (v : String) : Except UsageFault Given :=
  if g.has s.name then .error (.repeatedSwitch s.name)
  else if s.takesValue && v.isEmpty && !s.mayBeEmpty then .error (.emptyValue s.name)
  else .ok { g with switches := g.switches ++ [(s, v)] }

def addWord (room : Nat) (g : Given) (word : String) : Except UsageFault Given :=
  if room ≤ g.words.length then .error (.unwantedWord word)
  else if word.isEmpty then .error .emptyWord
  else .ok { g with words := g.words ++ [word] }

end Given

inductive Look
  | plain
  /-- Two hyphens alone. -/
  | divider
  | long (name : String) (value : Option String)
  | short (letters : List Char)

def lookOf (word : String) : Look :=
  match word.toList with
  | ['-', '-'] => .divider
  | '-' :: '-' :: r =>
    match breakOn ['='] r with
    | some (name, v) => .long (String.ofList name) (some (String.ofList v))
    | none => .long (String.ofList r) none
  | '-' :: c :: r => .short (c :: r)
  | _ => .plain

/-- Where reading stands after a word: the switch that waits for its value, if any. -/
abbrev Waiting := Option Switch

def takeSwitch (g : Given) (s : Switch) (v : Option String) : Except UsageFault (Given × Waiting) :=
  match s.takesValue, v with
  | true, some v => do return (← g.addSwitch s v, none)
  | true, none => .ok (g, some s)
  | false, none => do return (← g.addSwitch s "", none)
  | false, some _ => .error (.unwantedValue s.name)

/-- Adds the switches of some letters. The first that takes a value has the letters
    after it as its value, without an equals sign in front. -/
def takeLetters (switches : List Switch) (g : Given) : List Char → Except UsageFault (Given × Waiting)
  | [] => .ok (g, none)
  | c :: r =>
    match switches.find? (·.letter == some c) with
    | none => .error (.unknownSwitch (String.ofList ['-', c]))
    | some s =>
      if s.takesValue then
        let v := match r with
          | [] => none
          | '=' :: v => some (String.ofList v)
          | v => some (String.ofList v)
        takeSwitch g s v
      else if s.ends then do return (← g.addSwitch s "", none)
      else do takeLetters switches (← g.addSwitch s "") r

/-- Reads words up to the first one where `stops`, or to a switch that ends reading;
    the answer has the words from there on. -/
def readWords (switches : List Switch) (room : Nat) (stops : String → Bool) :
    Given → Waiting → List String → Except UsageFault (Given × List String)
  | g, none, [] => .ok (g, [])
  | _, some s, [] => .error (.missingValue s.name)
  | g, some s, word :: rest =>
    match lookOf word with
    | .plain => do readWords switches room stops (← g.addSwitch s word) none rest
    | _ => .error (.missingValue s.name)
  | g, none, word :: rest =>
    if stops word then .ok (g, word :: rest)
    else match lookOf word with
      | .plain => do readWords switches room stops (← g.addWord room word) none rest
      | .divider => do return (← rest.foldlM (Given.addWord room) g, [])
      | .long name v =>
        match switches.find? (·.name == name) with
        | some s => do
          let (g, waiting) ← takeSwitch g s v
          if g.ended then return (g, []) else readWords switches room stops g waiting rest
        | none => .error (.unknownSwitch word)
      | .short letters => do
        let (g, waiting) ← takeLetters switches g letters
        if g.ended then return (g, []) else readWords switches room stops g waiting rest

end ComponentSite.CommandLine
