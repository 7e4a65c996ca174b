import FleetControl.Config.Report
import FleetControl.Config.Toml

/-!
# The command line

`CommandLine.parse` reads the arguments of the program, and `CommandLine.act` says what they come
to: an exit with a code and a text, or a server to be started. Arguments are looked at from left
to right, so the first that is wrong decides, with one exception: a log format that stands before
the command, as an argument of its own, is looked at when the next option before the command is
met, or else after the command. So help on a command is given whatever that value is.
-/

namespace FleetControl.CommandLine

/-- How the log is written. -/
inductive LogFormat where
  | text
  | json
deriving DecidableEq, Inhabited

/-- What to do. -/
inductive Command where
  /-- Report on a configuration. -/
  | check (config : String)
  /-- Serve requests. -/
  | run (config : String) (port : UInt16) (reconcileInterval : Option UInt64)
deriving DecidableEq, Inhabited

/-- What the arguments ask for. -/
inductive Invocation where
  | help
  | command (log : LogFormat) (command : Command)
deriving DecidableEq, Inhabited

/-! ### Values -/

/-- The integer that a text writes, with a sign or without. -/
def integer? (s : String) : Option Int :=
  let digits (cs : List Char) : Option Nat :=
    if !cs.isEmpty && cs.all Char.isDigit then some (Text.decimal cs) else none
  match s.toList with
  | '+' :: cs => (digits cs).map Int.ofNat
  | '-' :: cs => (digits cs).map fun n => -Int.ofNat n
  | cs => (digits cs).map Int.ofNat

/-- A port number. -/
def port? (s : String) : Option UInt16 := do
  let i ← integer? s
  if 0 ≤ i && i < UInt16.size then some i.toNat.toUInt16 else none

/-- A number of seconds; a minus sign is refused even before zero. -/
def seconds? (s : String) : Option UInt64 := do
  if s.toList.head? = some '-' then none
  let i ← integer? s
  if i < UInt64.size then some i.toNat.toUInt64 else none

/-- A log format. -/
def logFormat? : String → Option LogFormat
  | "text" => some .text
  | "json" => some .json
  | _ => none

/-! ### Options -/

/-- The options of a command that were given. -/
structure Options where
  log : Option LogFormat := none
  config : Option String := none
  port : Option UInt16 := none
  reconcileInterval : Option UInt64 := none

/-- The value unless there is one already. -/
def once {α : Type} (old new : Option α) : Option (Option α) :=
  if old.isSome || new.isNone then none else some new

/-- Give an option its value; refused if the option is unknown, given before, or the value is not
right. -/
def Options.set (o : Options) (name value : String) : Option Options :=
  match name with
  | "--log-format" => (once o.log (logFormat? value)).map fun log => { o with log }
  | "--config" =>
    (once o.config (if value.isEmpty then none else some value)).map fun config => { o with config }
  | "--port" => (once o.port (port? value)).map fun port => { o with port }
  | "--reconcile-interval" =>
    (once o.reconcileInterval (seconds? value)).map fun reconcileInterval =>
      { o with reconcileInterval }
  | _ => none

/-- The name and the value of an option that are joined by an equals sign. -/
def splitOption (arg : String) : Option (String × String) :=
  match arg.toList.span (· != '=') with
  | (name, _ :: value) => some (String.ofList name, String.ofList value)
  | (_, []) => none

/-- An argument can be the value of the option before it. -/
def isValue (arg : String) : Bool := arg == "-" || arg.toList.head? != some '-'

/-- An argument that asks for help. -/
def asksHelp (arg : String) : Bool := arg == "--help" || "-h".toList.isPrefixOf arg.toList

/-- What the options of a command come to. -/
inductive Scan where
  | help
  | options (o : Options)

/-- Read the options of a command that knows those with the given names. -/
def scan (names : List String) : Options → List String → Option Scan
  | o, [] => some (.options o)
  | o, ["--"] => some (.options o)
  | o, arg :: rest =>
    if asksHelp arg then some .help
    else match splitOption arg with
      | some (name, value) =>
        if names.contains name then (o.set name value).bind fun o => scan names o rest else none
      | none =>
        match rest with
        | [] => none
        | value :: rest =>
          if names.contains arg && isValue value then
            (o.set arg value).bind fun o => scan names o rest
          else none

/-! ### Commands -/

/-- The configuration file that is read if none is named. -/
def defaultConfig : String := "fleet.toml"

/-- The port that is listened on if none is named. -/
def defaultPort : UInt16 := 8443

/-- The log format asked for before the command. -/
structure LogChoice where
  /-- The format that was read. -/
  format : Option LogFormat := none
  /-- The value of a further option, not looked at yet. -/
  waiting : Option String := none

/-- Look at the value that waits; refused if it is not right or the format was given before. -/
def LogChoice.settle (choice : LogChoice) : Option (Option LogFormat) :=
  match choice.waiting with
  | none => some choice.format
  | some value => once choice.format (logFormat? value)

/-- Read a command by its name, with its options. A log format given there goes before the one
given earlier, which is looked at only if no help is asked for. -/
def parseCommand (choice : LogChoice) (name : String) (rest : List String) :
    Option Invocation := do
  let names ← match name with
    | "check" => some ["--log-format", "--config"]
    | "run" => some ["--log-format", "--config", "--port", "--reconcile-interval"]
    | _ => none
  match ← scan names {} rest with
  | .help => return .help
  | .options o =>
    let log ← choice.settle
    let config := o.config.getD defaultConfig
    let command := match name with
      | "check" => Command.check config
      | _ => .run config (o.port.getD defaultPort) o.reconcileInterval
    return .command ((o.log <|> log).getD .text) command

/-- The names that help can be asked for. -/
def helpTopics : List String := ["run", "check", "help"]

/-- Read arguments, with the log format asked for so far. -/
def parseFrom : LogChoice → List String → Option Invocation
  | _, [] => none
  | choice, arg :: rest =>
    if asksHelp arg then choice.settle.map fun _ => .help
    else if arg = "help" then
      match rest with
      | [] => some .help
      | [topic] => if helpTopics.contains topic then some .help else none
      | _ => none
    else match splitOption arg with
      | some (name, value) =>
        if name = "--log-format" then
          choice.settle.bind fun log =>
            (once log (logFormat? value)).bind fun format => parseFrom { format } rest
        else none
      | none =>
        if arg = "--log-format" then
          match rest with
          | value :: rest =>
            if isValue value then
              choice.settle.bind fun format => parseFrom { format, waiting := some value } rest
            else none
          | [] => none
        else parseCommand choice arg rest

/-- Read the arguments of the program; none if they make no sense. -/
def parse (args : List String) : Option Invocation := parseFrom {} args

/-! ### Actions -/

/-- What the program does. -/
inductive Action where
  /-- Print a text and exit with a code. -/
  | exit (code : Nat) (output : String)
  /-- Serve requests on a port. -/
  | serve (config : Config) (port : UInt16)

/-- How to use the program. -/
def usage : String :=
  "Usage: fleetcontrol [--log-format text|json] <command>\n\n" ++
  "  check [--config FILE]   validate a configuration and print its region tree\n" ++
  "  run [--config FILE] [--port PORT] [--reconcile-interval SECS]\n" ++
  "                          reconcile deployments and answer requests\n"

/-- Read and validate a configuration file. -/
def load (readFile : String → Option String) (path : String) : Option Config :=
  (readFile path).bind fun text => (Config.ofToml text).toOption

/-- What a command comes to. -/
def Command.act (readFile : String → Option String) : Command → Action
  | .check path =>
    match (load readFile path).map Config.report with
    | some (.ok report) => .exit 0 report
    | _ => .exit 1 ""
  | .run path port reconcileInterval =>
    match load readFile path with
    | none => .exit 1 ""
    | some c =>
      let c := match reconcileInterval with
        | some secs => { c with reconcile := { c.reconcile with intervalSecs := secs } }
        | none => c
      if c.reconcile.intervalSecs = 0 || c.regionTree.toOption.isNone then .exit 1 ""
      else .serve c port

/-- What the arguments of the program come to. Arguments that make no sense give code 2, a
configuration that cannot be used gives code 1. -/
def act (readFile : String → Option String) (args : List String) : Action :=
  match parse args with
  | none => .exit 2 ""
  | some .help => .exit 0 usage
  | some (.command _ command) => command.act readFile

end FleetControl.CommandLine
