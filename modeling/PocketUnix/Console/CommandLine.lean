import PocketUnix.Console.Basic

/-!
# The command line

Options, the order in which a run can fail, and what a whole run prints.
-/

namespace PocketUnix

structure Invocation where
  config : Option String := none
  script : Option String := none
  dumpTranscript : Bool := false
  noBanner : Bool := false
  deriving DecidableEq, Repr

inductive Request where
  | help
  | run (invocation : Invocation)
  deriving DecidableEq, Repr

inductive UsageFault where
  | unexpected (argument : String)
  | valueMissing (option : String)
  | valueRefused (option value : String)
  | repeated (option : String)
  deriving DecidableEq, Repr

def UsageFault.message : UsageFault → String
  | .unexpected argument => s!"unexpected argument '{argument}' found"
  | .valueMissing option =>
    s!"a value is required for '{option}' but none was supplied"
  | .valueRefused option value =>
    s!"unexpected value '{value}' for '{option}' found; no more were expected"
  | .repeated option => s!"the argument '{option}' cannot be used multiple times"

namespace Invocation

inductive ValueOption where
  | config | script
  deriving DecidableEq, Repr

inductive Flag where
  | dumpTranscript | noBanner
  deriving DecidableEq, Repr

def ValueOption.title : ValueOption → String
  | .config => "--config <CONFIG>"
  | .script => "--script <SCRIPT>"

def Flag.title : Flag → String
  | .dumpTranscript => "--dump-transcript"
  | .noBanner => "--no-banner"

/-- Gives an option its value, which may not be empty. -/
def withValue (option : ValueOption) (value : String) (i : Invocation) :
    Except UsageFault Invocation :=
  if value = "" then .error (.valueMissing option.title)
  else
    match option with
    | .config =>
      if i.config.isSome then .error (.repeated option.title) else .ok { i with config := value }
    | .script =>
      if i.script.isSome then .error (.repeated option.title) else .ok { i with script := value }

def withFlag (flag : Flag) (i : Invocation) : Except UsageFault Invocation :=
  match flag with
  | .dumpTranscript =>
    if i.dumpTranscript then .error (.repeated flag.title)
    else .ok { i with dumpTranscript := true }
  | .noBanner =>
    if i.noBanner then .error (.repeated flag.title) else .ok { i with noBanner := true }

/-- A single argument: an option that takes its value from the next argument or brings its own,
or a flag. -/
inductive Argument where
  | awaiting (option : ValueOption)
  | valued (option : ValueOption) (value : String)
  | flag (flag : Flag)
  | help
  | separator
  | faulty (fault : UsageFault)
  deriving DecidableEq, Repr

def longOption (name : String) (value : Option String) : Argument :=
  let ofOption (option : ValueOption) : Argument :=
    match value with
    | some text => .valued option text
    | none => .awaiting option
  let ofFlag (argument : Argument) : Argument :=
    match value with
    | some text => .faulty (.valueRefused ("--" ++ name) text)
    | none => argument
  match name with
  | "config" => ofOption .config
  | "script" => ofOption .script
  | "dump-transcript" => ofFlag (.flag .dumpTranscript)
  | "no-banner" => ofFlag (.flag .noBanner)
  | "help" => ofFlag .help
  | _ => .faulty (.unexpected ("--" ++ name))

/-- A short option; what is attached to it is its value, with or without an equals sign. -/
def shortOption (letter : Char) (attached : List Char) : Argument :=
  let ofOption (option : ValueOption) : Argument :=
    match attached with
    | [] => .awaiting option
    | '=' :: value => .valued option (.ofList value)
    | value => .valued option (.ofList value)
  match letter with
  | 'c' => ofOption .config
  | 's' => ofOption .script
  | 'h' => .help
  | _ => .faulty (.unexpected (.ofList ['-', letter]))

def argument (text : String) : Argument :=
  match text.toList with
  | ['-', '-'] => .separator
  | '-' :: '-' :: body =>
    match Chars.cutWhere? (· == '=') body with
    | some (name, value) => longOption (.ofList name) (some (.ofList value))
    | none => longOption (.ofList body) none
  | '-' :: letter :: attached => shortOption letter attached
  | _ => .faulty (.unexpected text)

/-- An argument that can be the value of the option before it. -/
def canBeValue (text : String) : Bool := text = "-" || !Text.startsWith text "-"

/-- Reads arguments from the left; nothing may follow a separator. -/
def read (i : Invocation) : List String → Except UsageFault Request
  | [] => .ok (.run i)
  | text :: rest =>
    match argument text with
    | .faulty fault => .error fault
    | .help => .ok .help
    | .separator =>
      match rest with
      | [] => .ok (.run i)
      | extra :: _ => .error (.unexpected extra)
    | .flag flag => (i.withFlag flag).bind fun i => i.read rest
    | .valued option value => (i.withValue option value).bind fun i => i.read rest
    | .awaiting option =>
      match rest with
      | [] => .error (.valueMissing option.title)
      | value :: rest =>
        if canBeValue value then (i.withValue option value).bind fun i => i.read rest
        else .error (.valueMissing option.title)

end Invocation

/-- A step of a run that failed, with the messages of its causes from the outside in. -/
structure RunFault where
  step : String
  causes : List String
  deriving DecidableEq, Repr

namespace RunFault

/-- A text whose later lines are indented. -/
def hang (margin : String) (text : String) : String :=
  ("\n" ++ margin).intercalate (Text.splitOn text '\n')

/-- One cause stands alone; several are numbered. -/
def causeRows : List String → List String
  | [cause] => ["    " ++ hang "    " cause]
  | causes => causes.zipIdx.map fun (cause, k) =>
    Text.padLeft 5 (toString k) ++ ": " ++ hang "       " cause

def message (f : RunFault) : String :=
  Text.joinLines (("Error: " ++ f.step) :: "" :: "Caused by:" :: causeRows f.causes)

end RunFault

/-- What a run leaves: its exit code and the lines that it printed. -/
structure RunReport where
  code : Nat
  output : List String
  errors : List String
  deriving DecidableEq, Repr

namespace RunReport

/-- Lines with a newline after each of them. -/
def terminated (rows : List String) : String := String.join (rows.map (· ++ "\n"))

def outputText (r : RunReport) : String := terminated r.output

def errorText (r : RunReport) : String := terminated r.errors

end RunReport

namespace CommandLine

def usage : String := "Usage: terminus-sh [OPTIONS]"

def help : List String := [
  "In-memory Unix-like terminal sandbox",
  "",
  usage,
  "",
  "Options:",
  "  -c, --config <CONFIG>  TOML config file (falls back to TERMINUS_CONFIG)",
  "  -s, --script <SCRIPT>  Read input lines from a file instead of stdin",
  "      --dump-transcript  Print the final transcript as JSON on exit",
  "      --no-banner        Skip the welcome banner",
  "  -h, --help             Print help"]

def usageReport (fault : UsageFault) : RunReport :=
  ⟨2, [], ["error: " ++ fault.message, "", usage, "", "For more information, try '--help'."]⟩

/-- A run that ends early, after these lines. -/
def failed (output : List String) (fault : RunFault) : RunReport := ⟨1, output, [fault.message]⟩

/-- The time at the start where no setting fixes it: the fifth of January 2024, 14:03. -/
def usualStart : DateTime := ⟨⟨2024, 1, 5⟩, 14 * 3600 + 3 * 60, 0⟩

/-- The session of an invocation. -/
def startSession (i : Invocation) (e : Config.Environment) : Except RunFault Session :=
  match Config.load e i.config with
  | .error fault => .error ⟨"loading configuration", fault.chain⟩
  | .ok config =>
    let config := if i.noBanner then { config with showBanner := false } else config
    (Session.new config usualStart).mapError fun fault => ⟨"starting session", fault.chain⟩

/-- The text to feed: that of the script, or else the standard input. -/
def inputText (i : Invocation) (e : Config.Environment) (standardInput : String) :
    Except FileFault String :=
  match i.script with
  | none => .ok standardInput
  | some path => e.file path

/-- Feeds all lines; a dump of the transcript comes last. -/
def replay (i : Invocation) (s : Session) (text : String) : List String :=
  let (opened, console) := Console.opening false s
  let (shown, console) := console.feedAll (Text.lines text)
  opened ++ shown ++ if i.dumpTranscript then [console.transcriptText] else []

/-- A script is opened before the banner is printed and read after it. -/
def runInvocation (i : Invocation) (e : Config.Environment) (standardInput : String) :
    RunReport :=
  match startSession i e with
  | .error fault => failed [] fault
  | .ok session =>
    match inputText i e standardInput with
    | .ok text => ⟨0, replay i session text, []⟩
    | .error fault =>
      if fault.onOpening then failed [] ⟨"opening " ++ i.script.getD "", [fault.message]⟩
      else failed (Console.opening false session).1 ⟨"reading input", [fault.message]⟩

/-- A run away from a terminal, from its arguments to its exit code. -/
def run (arguments : List String) (e : Config.Environment) (standardInput : String) : RunReport :=
  match Invocation.read {} arguments with
  | .error fault => usageReport fault
  | .ok .help => ⟨0, help, []⟩
  | .ok (.run invocation) => runInvocation invocation e standardInput

end CommandLine

end PocketUnix
