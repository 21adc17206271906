import PocketUnix.Calendar.Reader
import PocketUnix.Text.Basic
import PocketUnix.Toml.Reader

/-!
# Settings

How a session starts: a settings file, then the environment, then a check of all values.
-/

namespace PocketUnix

structure Config where
  hostname : String := "terminus-os"
  user : String := "user"
  /-- Start in the user's home instead of the root. -/
  homeOnStart : Bool := true
  /-- The milliseconds that the second key of a chord may take. -/
  chordTimeout : Nat := 1000
  showBanner : Bool := true
  /-- The time at which the clock stands. -/
  fixedTime : Option String := none
  deriving DecidableEq, Repr

/-- Why a file outside the machine cannot be read. -/
inductive FileFault where
  | missing | denied | directory
  /-- The bytes are not UTF-8. -/
  | notText
  deriving DecidableEq, Repr

def FileFault.message : FileFault → String
  | .missing => "No such file or directory (os error 2)"
  | .denied => "Permission denied (os error 13)"
  | .directory => "Is a directory (os error 21)"
  | .notText => "stream did not contain valid UTF-8"

/-- A directory, and a file that is no text, can be opened and fail at the first read. -/
def FileFault.onOpening : FileFault → Bool
  | .missing => true
  | .denied => true
  | .directory => false
  | .notText => false

inductive ConfigFault where
  | unreadable (fault : FileFault)
  | malformed
  | emptyHostname
  | zeroChordTimeout
  | notNumber (text : String)
  | badFixedTime (text : String)
  | unknownUser (name : String)
  deriving DecidableEq, Repr

namespace ConfigFault

/-- The setting with a bad value and what is wrong with it. -/
def badValue? : ConfigFault → Option (String × String)
  | .unreadable _ => none
  | .malformed => none
  | .emptyHostname => some ("hostname", "must not be empty")
  | .zeroChordTimeout => some ("chord_timeout_ms", "must be positive")
  | .notNumber text => some ("chord_timeout_ms", "not a number: " ++ text)
  | .badFixedTime text => some ("fixed_time", "expected YYYY-MM-DDTHH:MM:SS, got " ++ text)
  | .unknownUser name => some ("user", s!"su: user {name} does not exist")

def message (f : ConfigFault) : String :=
  match f.badValue?, f with
  | some (setting, reason), _ => s!"Invalid value for {setting}: {reason}"
  | none, .unreadable fault => "IO error: " ++ fault.message
  | none, _ => "Invalid TOML"

/-- The message, and behind it that of the failure that led to it. -/
def chain (f : ConfigFault) : List String :=
  match f with
  | .unreadable fault => [f.message, fault.message]
  | _ => [f.message]

end ConfigFault

namespace Config

def stringEntry (entries : Toml.Entries) (name : String) (default : String) : Option String :=
  match Table.get? name entries with
  | none => some default
  | some (.string s) => some s
  | some _ => none

def booleanEntry (entries : Toml.Entries) (name : String) (default : Bool) : Option Bool :=
  match Table.get? name entries with
  | none => some default
  | some (.boolean b) => some b
  | some _ => none

/-- A number that a word holds. -/
def wordEntry (entries : Toml.Entries) (name : String) (default : Nat) : Option Nat :=
  match Table.get? name entries with
  | none => some default
  | some (.integer n) => if 0 ≤ n ∧ n ≤ Number.wordLimit then some n.toNat else none
  | some _ => none

def optionalEntry (entries : Toml.Entries) (name : String) : Option (Option String) :=
  match Table.get? name entries with
  | none => some none
  | some (.string s) => some (some s)
  | some _ => none

/-- Entries that are no settings are passed over; a setting of the wrong type is a fault. -/
def ofEntries? (entries : Toml.Entries) : Option Config := do
  let base : Config := {}
  some {
    hostname := ← stringEntry entries "hostname" base.hostname
    user := ← stringEntry entries "user" base.user
    homeOnStart := ← booleanEntry entries "home_on_start" base.homeOnStart
    chordTimeout := ← wordEntry entries "chord_timeout_ms" base.chordTimeout
    showBanner := ← booleanEntry entries "show_banner" base.showBanner
    fixedTime := ← optionalEntry entries "fixed_time" }

def ofToml (text : String) : Except ConfigFault Config :=
  match (Toml.read? text).bind ofEntries? with
  | some config => .ok config
  | none => .error .malformed

/-- The time at which the clock stands, if it stands. -/
def fixedMoment (c : Config) : Except ConfigFault (Option DateTime) :=
  match c.fixedTime with
  | none => .ok none
  | some text =>
    match DateTime.read? text with
    | some moment => .ok (some moment)
    | none => .error (.badFixedTime text)

def validate (c : Config) : Except ConfigFault Unit :=
  if Text.isBlank c.hostname then .error .emptyHostname
  else if c.chordTimeout = 0 then .error .zeroChordTimeout
  else c.fixedMoment.map fun _ => ()

/-- The files outside the machine and the variables that are set. -/
structure Environment where
  file : String → Except FileFault String
  lookup : String → Option String

/-- A variable that holds more than blanks, without blanks around it. -/
def Environment.value? (e : Environment) (name : String) : Option String :=
  (e.lookup name).bind fun text =>
    if Text.isBlank text then none else some (Text.trim text)

def ofFile (e : Environment) (path : String) : Except ConfigFault Config :=
  match e.file path with
  | .ok text => ofToml text
  | .error fault => .error (.unreadable fault)

/-- The settings file to read: the given one, or else the one that the environment names. -/
def source? (e : Environment) (path : Option String) : Option String :=
  path.or (e.value? "TERMINUS_CONFIG")

def override (e : Environment) (c : Config) : Except ConfigFault Config := do
  let c := { c with
    hostname := (e.value? "TERMINUS_HOSTNAME").getD c.hostname
    user := (e.value? "TERMINUS_USER").getD c.user }
  match e.value? "TERMINUS_CHORD_TIMEOUT_MS" with
  | none => .ok c
  | some text =>
    match Number.read? Number.wordLimit text with
    | some chordTimeout => .ok { c with chordTimeout }
    | none => .error (.notNumber text)

def load (e : Environment) (path : Option String) : Except ConfigFault Config := do
  let base ← match source? e path with
    | some path => ofFile e path
    | none => .ok {}
  let config ← override e base
  config.validate
  .ok config

end Config

end PocketUnix
