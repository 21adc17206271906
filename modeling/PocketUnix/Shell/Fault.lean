import PocketUnix.Json.Reader
import PocketUnix.Tree.Store

/-!
# Why commands fail

The causes of failure by kind: what a command needs is absent, what it is asked to do makes no
sense, its name is unknown, the sandbox forbids it, or its arguments are malformed. `message` gives
the error line of each.
-/

namespace PocketUnix

inductive LinkKind where
  | symbolic | hard
  deriving DecidableEq, Repr

def LinkKind.name : LinkKind → String
  | .symbolic => "symbolic"
  | .hard => "hard"

namespace Fault

/-- Nodes, users and processes that are not there. -/
inductive Absence where
  | listed (operand : String)
  | entered (operand : String)
  | placed (command : String)
  | removed (operand : String)
  | transferred (command operand : String)
  | destination (command : String)
  | linkPlace (kind : LinkKind) (link : String)
  | linkTarget (target : String)
  | described (operand : String)
  | searched (start : String)
  | drawn (start : String)
  | accessed (command operand : String)
  | shredded (operand : String)
  | read (command operand : String)
  | used (command operand : String)
  | unpacked (archive : String)
  | extracted (archive : String)
  | packed (command source : String)
  | loginUser (name : String)
  | user (command name : String)
  | group (command name : String)
  | knownUser (command name : String)
  | homeParent (home : Path)
  | pid (n : Nat)
  | process (name : String)
  deriving DecidableEq, Repr

def Absence.message : Absence → String
  | .listed operand => s!"ls: cannot access '{operand}': No such file"
  | .entered operand => s!"cd: {operand}: No such directory"
  | .placed command => s!"{command}: path not found"
  | .removed operand => s!"rm: cannot remove '{operand}': No such file"
  | .transferred command operand => s!"{command}: cannot stat '{operand}'"
  | .destination command => s!"{command}: dest not found"
  | .linkPlace kind link =>
    s!"ln: failed to create {kind.name} link '{link}': No such file or directory"
  | .linkTarget target => s!"ln: failed to access '{target}': No such file or directory"
  | .described operand => s!"stat: cannot statx '{operand}': No such file or directory"
  | .searched start => s!"find: '{start}': No such file or directory"
  | .drawn start => s!"{start} [error opening dir]"
  | .accessed command operand =>
    s!"{command}: cannot access '{operand}': No such file or directory"
  | .shredded operand =>
    s!"shred: {operand}: failed to open for writing: No such file or directory"
  | .read command operand => s!"{command}: {operand}: No such file"
  | .used command operand => s!"{command}: {operand}: No such file or directory"
  | .unpacked archive =>
    s!"unzip:  cannot find or open {archive}, {archive}.zip or {archive}.ZIP."
  | .extracted archive => s!"tar: {archive}: Cannot open: No such file or directory"
  | .packed command source => s!"{command}: {source}: Cannot stat: No such file or directory"
  | .loginUser name => s!"su: user {name} does not exist"
  | .user command name => s!"{command}: user '{name}' does not exist"
  | .group command name => s!"{command}: group '{name}' does not exist"
  | .knownUser command name => s!"{command}: '{name}': no such user"
  | .homeParent home => s!"useradd: cannot create directory {home.display}"
  | .pid n => s!"kill: ({n}) - No such process"
  | .process name => s!"{name}: no process found"

/-- Actions that do not fit what is there. -/
inductive Misuse where
  | directoryExists
  | removesRoot
  | removesDirectory (name : String)
  | targetNotDirectory (command target : String)
  | transfersRoot (command : String)
  | sameFile (command operand target : String)
  | intoItself (command operand : String)
  | overwritesDirectory (command : String) (target : Path)
  | repeated (command operand : String)
  | overlaps (command operand earlier : String)
  | overwritesCreated (command : String) (target : Path) (operand : String)
  | omitsDirectory (operand : String)
  | linkExists (kind : LinkKind) (link : String)
  | linksDirectory (target : String)
  | invalidUser (command spec : String)
  | invalidGroup (command spec : String)
  | isDirectory (command operand : String)
  | treeFault (command operand : String) (fault : TreeFault)
  | unreadableJson (error : Json.ReadError)
  | mountsUnprivileged (command : String)
  | notJob (target : String)
  | renamesHostUnprivileged
  | userExists (name : String)
  | homeFault (fault : TreeFault)
  | userInUse (name : String)
  | groupExists (name : String)
  | passwordOf (name : String)
  | compressesDirectory (command operand : String)
  | unknownSuffix (command operand : String)
  | hasSuffix (command operand suffix : String)
  | editsDirectory (operand : String)
  deriving DecidableEq, Repr

def Misuse.message : Misuse → String
  | .directoryExists => "mkdir: exists"
  | .removesRoot => "rm: it is dangerous to operate recursively on '/'"
  | .removesDirectory name => s!"rm: cannot remove '{name}': Is a directory"
  | .targetNotDirectory command target => s!"{command}: target '{target}' is not a directory"
  | .transfersRoot command => s!"{command}: cannot operate on '/'"
  | .sameFile command operand target =>
    s!"{command}: '{operand}' and '{target}' are the same file"
  | .intoItself command operand => s!"{command}: cannot copy a directory, '{operand}', into itself"
  | .overwritesDirectory command target =>
    s!"{command}: cannot overwrite directory '{target.display}'"
  | .repeated command operand => s!"{command}: '{operand}' specified more than once"
  | .overlaps command operand earlier => s!"{command}: '{operand}' overlaps '{earlier}'"
  | .overwritesCreated command target operand =>
    s!"{command}: will not overwrite just-created '{target.display}' with '{operand}'"
  | .omitsDirectory operand => s!"cp: -r not specified; omitting directory '{operand}'"
  | .linkExists kind link => s!"ln: failed to create {kind.name} link '{link}': File exists"
  | .linksDirectory target => s!"ln: {target}: hard link not allowed for directory"
  | .invalidUser command spec => s!"{command}: invalid user: '{spec}'"
  | .invalidGroup command spec => s!"{command}: invalid group: '{spec}'"
  | .isDirectory command operand => s!"{command}: {operand}: Is a directory"
  | .treeFault command operand fault => s!"{command}: '{operand}': {fault.message}"
  | .unreadableJson error =>
    s!"jq: error (at <stdin>:{error.position.line}): Cannot parse input: {error.message}"
  | .mountsUnprivileged command => s!"{command}: only root can do that"
  | .notJob target => s!"kill: {target}: arguments must be process or job IDs"
  | .renamesHostUnprivileged => "hostname: you must be root to change the host name"
  | .userExists name => s!"useradd: user '{name}' already exists"
  | .homeFault fault => s!"useradd: {fault.message}"
  | .userInUse name => s!"userdel: user {name} is currently used by process 1001"
  | .groupExists name => s!"groupadd: group '{name}' already exists"
  | .passwordOf name =>
    s!"passwd: You may not view or modify password information for {name}."
  | .compressesDirectory command operand => s!"{command}: {operand} is a directory -- ignored"
  | .unknownSuffix command operand => s!"{command}: {operand}: unknown suffix -- ignored"
  | .hasSuffix command operand suffix =>
    s!"{command}: {operand} already has {suffix} suffix -- unchanged"
  | .editsDirectory operand => s!"\"{operand}\" is a directory"

/-- What the sandbox forbids. -/
inductive Restriction where
  | packageLock
  | remoteLogin (host : String)
  deriving DecidableEq, Repr

def Restriction.message : Restriction → String
  | .packageLock =>
    "E: Could not open lock file /var/lib/dpkg/lock-frontend - open (13: Permission denied)"
  | .remoteLogin host =>
    s!"ssh: connect to host {host} port 22: Connection refused (Sandbox restriction)"

/-- Missing operands and malformed options. -/
inductive BadUsage where
  | emptyStage
  | redirectToNowhere
  | missing (command what : String)
  | missingAfter (command what operand : String)
  | synopsis (text : String)
  | findArgument (predicate : String)
  | findType
  | findDepth
  | findPredicate (predicate : String)
  | findPath (path : String)
  | noPattern
  | invalidMode (mode : String)
  | unterminatedSubstitution (length : Nat)
  | noInputFiles
  | awkSyntax (program : String)
  | invalidLineCount (command count : String)
  | invalidFields (list : String)
  | invalidPositions (list : String)
  | unsupportedFilter (filter : String)
  | noTarMode
  | noDestination
  | noAddress (command : String)
  | killUsage
  | noCriteria (command : String)
  | noCrontabFile
  | invalidDateFormat (format : String)
  deriving DecidableEq, Repr

def BadUsage.message : BadUsage → String
  | .emptyStage => "syntax error near unexpected token '|'"
  | .redirectToNowhere => "syntax error near unexpected token \x60newline'"
  | .missing command what => s!"{command}: missing {what}"
  | .missingAfter command what operand => s!"{command}: missing {what} after '{operand}'"
  | .synopsis text => text
  | .findArgument predicate => s!"find: missing argument to \x60{predicate}'"
  | .findType => "find: Unknown argument to -type"
  | .findDepth => "find: Expected a positive decimal integer argument to -maxdepth"
  | .findPredicate predicate => s!"find: unknown predicate \x60{predicate}'"
  | .findPath path => s!"find: paths must precede expression: \x60{path}'"
  | .noPattern => "locate: no pattern to search for specified"
  | .invalidMode mode => s!"chmod: invalid mode: '{mode}'"
  | .unterminatedSubstitution length =>
    s!"sed: -e expression #1, char {length}: unterminated \x60s' command"
  | .noInputFiles => "sed: no input files"
  | .awkSyntax program => s!"awk: syntax error at source line 1: {program}"
  | .invalidLineCount command count => s!"{command}: invalid number of lines: '{count}'"
  | .invalidFields list => s!"cut: invalid field value '{list}'"
  | .invalidPositions list => s!"cut: invalid byte/character position '{list}'"
  | .unsupportedFilter filter => s!"jq: error: {filter} is not a supported filter"
  | .noTarMode =>
    "tar: You must specify one of the '-Acdtrux', '--delete' or '--test-label' options"
  | .noDestination => "ping: usage error: Destination address required"
  | .noAddress command =>
    if command = "wget" then "wget: missing URL"
    else "curl: try 'curl --help' for more information"
  | .killUsage => "kill: usage: kill [-s sigspec | -n signum | -sigspec] pid | jobspec ... " ++
      "or kill -l [sigspec]"
  | .noCriteria command => s!"{command}: no matching criteria specified"
  | .noCrontabFile => "crontab: usage error: file name must be specified for replace"
  | .invalidDateFormat format => s!"date: invalid format '+{format}'"

end Fault

inductive Fault where
  | notFound (cause : Fault.Absence)
  | invalid (cause : Fault.Misuse)
  | unsupported (name : String)
  | restricted (cause : Fault.Restriction)
  | usage (cause : Fault.BadUsage)
  deriving DecidableEq, Repr

def Fault.message : Fault → String
  | .notFound cause => cause.message
  | .invalid cause => cause.message
  | .unsupported name => s!"{name}: command not found"
  | .restricted cause => cause.message
  | .usage cause => cause.message

/-- What a failure in the tree is to a command that was given an operand. -/
def Fault.ofTree (command operand : String) : TreeFault → Fault
  | .missing => .notFound (.accessed command operand)
  | .parentMissing => .notFound (.accessed command operand)
  | fault => .invalid (.treeFault command operand fault)

end PocketUnix
