import PocketUnix.Console.CommandLine

/-!
# The program

Reads the arguments, the environment and the files that they name, and prints what the run prints.
On a terminal, lines are taken one by one behind a prompt.
-/

namespace PocketUnix.Main

def variableNames : List String :=
  ["TERMINUS_CONFIG", "TERMINUS_HOSTNAME", "TERMINUS_USER", "TERMINUS_CHORD_TIMEOUT_MS"]

def readVariables : IO (List (String × String)) := do
  let read ← variableNames.mapM fun name => do
    return (← IO.getEnv name).map fun value => (name, value)
  return read.filterMap id

def readFile (path : String) : IO (Except FileFault String) := do
  try
    return .ok (← IO.FS.readFile path)
  catch
    | .noFileOrDirectory .. => return .error .missing
    | .permissionDenied .. => return .error .denied
    | .userError _ => return .error .notText
    | _ => return .error .directory

/-- The environment of a run, with the files that can matter to it. -/
def environment (i : Invocation) : IO Config.Environment := do
  let values ← readVariables
  let named : Config.Environment := ⟨fun _ => .error .missing, (List.lookup · values)⟩
  let paths := (Config.source? named i.config).toList ++ i.script.toList
  let files ← paths.mapM fun path => return (path, ← readFile path)
  return { named with file := fun path => (List.lookup path files).getD (.error .missing) }

/-- Takes lines until the input ends. The clock runs with that of the computer unless the settings
fix the time. -/
partial def converse (input : IO.FS.Stream) (last : Nat) (console : Console) : IO Console := do
  IO.print console.prompt
  (← IO.getStdout).flush
  let line ← input.getLine
  if line.isEmpty then return console
  let now ← IO.monoMsNow
  let elapsed := if console.session.config.fixedTime.isSome then 0 else now - last
  let console := { console with session := console.session.advance elapsed }
  let (shown, console) := console.feed ("\n".intercalate (Text.lines line))
  IO.print (RunReport.terminated shown)
  converse input now console

def report (r : RunReport) : IO UInt32 := do
  IO.print r.outputText
  IO.eprint r.errorText
  return r.code.toUInt32

def runOnTerminal (i : Invocation) (e : Config.Environment) (input : IO.FS.Stream) : IO UInt32 :=
  match CommandLine.startSession i e with
  | .error fault => report (CommandLine.failed [] fault)
  | .ok session => do
    let (opened, console) := Console.opening true session
    IO.print (RunReport.terminated opened)
    let console ← converse input (← IO.monoMsNow) console
    if i.dumpTranscript then IO.println console.transcriptText
    return 0

def runWith (arguments : List String) : IO UInt32 := do
  let input ← IO.getStdin
  match Invocation.read {} arguments with
  | .ok (.run i) =>
    let e ← environment i
    if i.script.isNone && (← input.isTty) then runOnTerminal i e input
    else
      let text ← if i.script.isNone then input.readToEnd else pure ""
      report (CommandLine.runInvocation i e text)
  | .ok .help => report ⟨0, CommandLine.help, []⟩
  | .error fault => report (CommandLine.usageReport fault)

end PocketUnix.Main

def main (arguments : List String) : IO UInt32 := PocketUnix.Main.runWith arguments
