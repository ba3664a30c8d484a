import Homoicon.Interactive.Dialogue
import Homoicon.Settings

/-!
# The command line

Arguments say what to run: a text of code, a file, the standard input or a dialogue.  A run reads
its surroundings (the files of the working directory and the standard input) and comes to a report:
what it writes and its exit code.
-/

namespace Homoicon.CommandLine

def usageLines : List String :=
  [ "reval v0.2.0",
    "",
    "USAGE:",
    "    reval [OPTIONS] [INPUT]",
    "",
    "OPTIONS:",
    "    -h, --help             Print this help message",
    "    -v, --version          Print version information",
    "    -e, --eval <CODE>      Evaluate CODE and print the result",
    "    -c, --config <FILE>    Read settings from FILE (default: ./reval.toml)",
    "    --trace                Log every evaluation step (needs RUST_LOG=trace)",
    "    --repl                 Start interactive REPL",
    "",
    "ARGUMENTS:",
    "    <INPUT>                Source file to evaluate (use '-' for stdin)",
    "",
    "EXAMPLES:",
    "    reval script.r",
    "    reval -e \"1 + 2 * 3\"",
    "    RUST_LOG=reval=debug reval --repl" ]

def usage : String := String.join (usageLines.map fun line => line ++ "\n")

structure Options where
  input : Option String := none
  code : Option String := none
  config : Option String := none
  trace : Bool := false
  dialogue : Bool := false
  deriving DecidableEq, Inhabited

inductive Request where
  | help
  | version
  | run (o : Options)
  deriving DecidableEq, Inhabited

inductive UsageError where
  | missingCode
  | missingConfig
  | unknownOption (argument : String)
  | manyInputs
  deriving DecidableEq, Inhabited

def UsageError.message : UsageError → String
  | .missingCode => "Missing code after --eval"
  | .missingConfig => "Missing file after --config"
  | .unknownOption argument => "Unknown option: " ++ argument
  | .manyInputs => "Multiple input files specified"

/-- Whether an argument is an option; a lone dash stands for the standard input. -/
def isOption (argument : String) : Bool :=
  match argument.toList with
  | '-' :: _ :: _ => true
  | _ => false

/-- Reads arguments from left to right; help and version end the reading. -/
def readArguments (o : Options) : List String → Except UsageError Request
  | [] => .ok (.run o)
  | "-h" :: _ | "--help" :: _ => .ok .help
  | "-v" :: _ | "--version" :: _ => .ok .version
  | ["-e"] | ["--eval"] => .error .missingCode
  | "-e" :: code :: rest | "--eval" :: code :: rest =>
    readArguments { o with code := some code } rest
  | ["-c"] | ["--config"] => .error .missingConfig
  | "-c" :: file :: rest | "--config" :: file :: rest =>
    readArguments { o with config := some file } rest
  | "--trace" :: rest => readArguments { o with trace := true } rest
  | "--repl" :: rest => readArguments { o with dialogue := true } rest
  | argument :: rest =>
    if isOption argument then .error (.unknownOption argument)
    else if o.input.isSome then .error .manyInputs
    else readArguments { o with input := some argument } rest

def Request.ofArguments (arguments : List String) : Except UsageError Request :=
  readArguments {} arguments

/-- Whether options ask for a dialogue: on purpose, or because they name nothing to run. -/
def Options.startsDialogue (o : Options) : Bool :=
  o.dialogue || (o.input.isNone && o.code.isNone)

/-- The name of the settings file that counts if no other is named. -/
def settingsFile : String := "reval.toml"

structure Surroundings where
  /-- The contents of a file, if it exists. -/
  file? : String → Option String
  input : String

def staysPut (step : String) : Bool := step = "" || step = "."

/-- A path from the working directory to a file, without the steps that lead nowhere. -/
def plainPath? (path : String) : Option String :=
  let steps := path.splitOn "/"
  let leaves : Bool := 1 < steps.length && steps.head? = some ""
  if leaves || steps.getLast?.all staysPut then none
  else some ("/".intercalate (steps.filter fun step => !staysPut step))

/-- Surroundings with the given files in the working directory. -/
def Surroundings.ofFiles (files : List (String × String)) (input : String) : Surroundings :=
  { file? := fun path => (plainPath? path).bind fun name => files.lookup name, input }

structure Report where
  code : Nat := 0
  shown : Interactive.Shown := {}
  deriving DecidableEq, Inhabited

def Report.failed (message : String) (output : String) : Report :=
  { code := 1, shown := { output, errors := "Error: " ++ message ++ "\n" } }

/-- The report of arguments that make no sense: the error, then the help text. -/
def Report.badUsage (e : UsageError) : Report :=
  { code := 1, shown := { errors := "Error: " ++ e.message ++ "\n\n" ++ usage } }

def readSettings (o : Options) (file? : String → Option String) : Except String Config := do
  let config ←
    match o.config with
    | some path =>
      match file? path with
      | some contents => (Settings.read contents).mapError SettingsError.message
      | none => .error ("cannot read " ++ path ++ ": No such file or directory (os error 2)")
    | none =>
      match file? settingsFile with
      | some contents => (Settings.read contents).mapError SettingsError.message
      | none => .ok {}
  return if o.trace then { config with traceSteps := true } else config

/-- The source that options name: code before a file, and a lone dash for the standard input.  The
error is the text to report. -/
def readSource (o : Options) (s : Surroundings) : Except String String :=
  match o.code, o.input with
  | some code, _ => .ok code
  | none, some "-" => .ok s.input
  | none, some path =>
    match s.file? path with
    | some contents => .ok contents
    | none => .error ("Input file not found: " ++ path)
  | none, none => .ok ""

/-- The report of an evaluation.  A value is shown only for code on the command line. -/
def reportResult (result : HostResult) (showsValue : Bool) (printed : String) : Report :=
  match result, renderResult result with
  | .error _, some text => .failed (String.ofList (text.toList.drop "** ".length)) printed
  | .ok _, some text =>
    { shown := { output := printed ++ (if showsValue then text ++ "\n" else "") } }
  | _, none => { shown := { output := printed } }

def runSource (o : Options) (session : Session) (s : Surroundings) : Report :=
  match readSource o s with
  | .error message => .failed message ""
  | .ok source =>
    let (result, session) := session.evalText source
    reportResult result o.code.isSome session.takePrinted.1

def runDialogue (session : Session) (s : Surroundings) : Report :=
  let dialogue : Interactive.Dialogue := { session }
  { shown := { output := Interactive.greeting }
      ++ (dialogue.takeLines (Interactive.linesOf s.input)).1 }

def startSession (o : Options) (file? : String → Option String) : Except String Session := do
  let config ← readSettings o file?
  (Session.withRegistry config Registry.standard false).mapError HostError.message

def run (arguments : List String) (s : Surroundings) : Report :=
  match Request.ofArguments arguments with
  | .error e => .badUsage e
  | .ok .help => { shown := { errors := usage } }
  | .ok .version => { shown := { output := Interactive.title ++ "\n" } }
  | .ok (.run o) =>
    match startSession o s.file? with
    | .error message => .failed message ""
    | .ok session =>
      if o.startsDialogue then runDialogue session s else runSource o session s

end Homoicon.CommandLine
