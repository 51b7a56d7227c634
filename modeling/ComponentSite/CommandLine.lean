/-
  ComponentSite.CommandLine — the program `goo` on the command line.

  `goo routes` lists the routes of a site, `goo build PAGE` writes the template source
  of one page, and `goo serve` answers requests. The switches for the root folder, the
  configuration file and the log level may stand before the command and after it; the
  one after it counts.

  A run is a function of its words and the files; what it writes and its exit status
  are the outcome. No listener can be opened here, so `serve` always ends with a
  failure: the first one of configuration, structure and address, else the missing
  listener.
-/
import ComponentSite.CommandLine.Arguments
import ComponentSite.Site

namespace ComponentSite.CommandLine
open Text

inductive Command
  | serve (address : Option String) (noCache invalidateOnChange warm : Bool)
  | routes
  | build (page : Path)
  deriving DecidableEq, Repr

structure Invocation where
  command : Command
  root : Path := ⟨"."⟩
  config : Option Path := none
  logLevel : Option String := none
  deriving DecidableEq, Repr

inductive Request
  | run (invocation : Invocation)
  | help
  | version
  deriving DecidableEq, Repr

/-! ## Reading the command line -/

def helpSwitch : Switch := { name := "help", letter := some 'h', takesValue := false, ends := true }

def versionSwitch : Switch :=
  { name := "version", letter := some 'V', takesValue := false, ends := true }

/-- The switches that may stand before and after the command. -/
def commonSwitches : List Switch :=
  [{ name := "root", letter := some 'r', mayBeEmpty := false },
   { name := "config", letter := some 'c', mayBeEmpty := false },
   { name := "log-level" }, helpSwitch]

def serveSwitches : List Switch :=
  [{ name := "address", letter := some 'a' }, { name := "no-cache", takesValue := false },
   { name := "invalidate-on-change", takesValue := false }, { name := "warm", takesValue := false }]

structure Usage where
  /-- The switches beside the common ones. -/
  switches : List Switch := []
  /-- How many plain words. -/
  words : Nat := 0

def commands : List (String × Usage) :=
  [("serve", { switches := serveSwitches }), ("routes", {}), ("build", { words := 1 }), ("help", {})]

def commandOf (name : String) (g : Given) : Except UsageFault Command :=
  match name, g.words with
  | "serve", [] => .ok (.serve (g.value? "address") (g.has "no-cache") (g.has "invalidate-on-change")
      (g.has "warm"))
  | "routes", [] => .ok .routes
  | "build", [page] => .ok (.build ⟨page⟩)
  | "build", [] => .error (.missingWord "PAGE")
  | _, word :: _ => .error (.unwantedWord word)
  | _, [] => .error .noCommand

def common? (before after : Given) (name : String) : Option String :=
  (after.value? name).or (before.value? name)

def parse (words : List String) : Except UsageFault Request := do
  let isCommand (word : String) : Bool := commands.any (·.1 == word)
  let (before, rest) ← readWords (versionSwitch :: commonSwitches) 0 isCommand {} none words
  if before.has helpSwitch.name then return .help
  if before.has versionSwitch.name then return .version
  match rest with
  | [] => throw .noCommand
  | ["help"] => return .help
  | ["help", name] => if isCommand name then return .help else throw (.unwantedWord name)
  | "help" :: _ :: word :: _ => throw (.unwantedWord word)
  | name :: rest =>
    let own := ((commands.find? (·.1 == name)).map (·.2)).getD {}
    let (after, _) ← readWords (own.switches ++ commonSwitches) own.words (fun _ => false) {} none rest
    if after.has helpSwitch.name then return .help
    let command ← commandOf name after
    return .run {
      command
      root := ⟨(common? before after "root").getD "."⟩
      config := (common? before after "config").map Path.mk
      logLevel := common? before after "log-level" }

/-! ## Running -/

structure Outcome where
  exit : Nat
  stdout : String := ""
  stderr : String := ""
  deriving DecidableEq, Repr

def configOf (files : FileTree) (i : Invocation) : Except SiteError Config := do
  let config ← match i.config with
    | some path => Config.load files path
    | none => Config.discover files i.root
  let config := { config with logLevel := i.logLevel.getD config.logLevel }
  match i.command with
  | .serve address noCache invalidateOnChange _ =>
    return { config with
      address := address.getD config.address
      cache := config.cache && !noCache
      invalidateOnChange := config.invalidateOnChange || invalidateOnChange }
  | _ => return config

/-- A line of the route list: the path, filled up to 32 characters, and the source. -/
def routeLine (r : Route) : String :=
  r.path ++ String.ofList (List.replicate (32 - r.path.length) ' ') ++ " " ++ r.source.text ++ "\n"

/-- What follows the last colon of an address is a number below 65536, with an
    optional plus sign. -/
def isAddressNumber (s : List Char) : Bool :=
  let digits := (rest? ['+'] s).getD s
  !digits.isEmpty && digits.all Char.isDigit &&
    digits.foldl (fun n c => n * 10 + (c.toNat - '0'.toNat)) 0 < 65536

def addressFault (address : String) : ServeFault :=
  match breakOnLast [':'] address.toList with
  | none => .badAddress
  | some (_, number) => if isAddressNumber number then .noListener else .badNumber

def perform (files : FileTree) (config : Config) : Command → Except SiteError String
  | .routes => do
    let site ← Site.load files config
    return String.join (site.routes.map routeLine)
  | .build page => do
    let site ← Site.load files config
    let compiled ← (site.compilePage files (config.root.join page)).1
    return compiled.source ++ "\n"
  | .serve .. => do
    let _ ← Site.load files config
    throw (.serveFailed (addressFault config.address))

def usage : String :=
  "Usage: goo [--root FOLDER] [--config FILE] [--log-level LEVEL] COMMAND\n\nCommands:\n" ++
    "  serve [--address ADDRESS] [--no-cache] [--invalidate-on-change] [--warm]\n" ++
    "  routes\n  build PAGE\n  help\n"

def versionText : String := "goo 0.1.0\n"

/-- Runs a command line. A failure has status 1, a line that cannot be understood 2. -/
def run (files : FileTree) (words : List String) : Outcome :=
  match parse words with
  | .error fault => { exit := 2, stderr := "error: " ++ fault.message ++ "\n\n" ++ usage }
  | .ok .help => { exit := 0, stdout := usage }
  | .ok .version => { exit := 0, stdout := versionText }
  | .ok (.run i) =>
    match (configOf files i).bind fun config => perform files config i.command with
    | .ok text => { exit := 0, stdout := text }
    | .error e => { exit := 1, stderr := "error[" ++ e.code ++ "]: " ++ e.message ++ "\n" }

end ComponentSite.CommandLine
