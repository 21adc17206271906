import PocketUnix.Command.Name
import PocketUnix.Command.Writing
import PocketUnix.Filter.Awk
import PocketUnix.Filter.CharMap
import PocketUnix.Filter.Columns
import PocketUnix.Filter.Diff
import PocketUnix.Filter.Select
import PocketUnix.Filter.Sort
import PocketUnix.Json.Filter
import PocketUnix.Json.Printer

/-!
# Commands on text

The commands that read files or the input and print what they make of it.
-/

namespace PocketUnix.Reading

/-- Reads the first operand or the input and prints what a function makes of the text. -/
def filtered (c : Call) (m : Machine) (operand : Option String) (f : String → String) : Answer :=
  (c.readInput m operand).map fun text => .output (f text)

def numbered (k : Nat) (line : String) : String := Text.padLeft 6 s!"{k}" ++ "\t" ++ line

def cat (c : Call) (m : Machine) : Answer := do
  let o := c.options ""
  let text ←
    if o.operands.isEmpty then pure c.stdin
    else do
      let parts ← o.operands.mapM fun operand => c.readInput m (some operand)
      pure (Text.joinLines parts)
  if o.has 'n' then
    .ok (.lines (((Text.lines text).zipIdx 1).map fun (line, k) => numbered k line))
  else .ok (.output text)

/-- Some text to search, with the label of its file. -/
structure Source where
  label : Option String
  text : String
  deriving DecidableEq, Repr

/-- The files that an operand names; with recursion, all files below a directory. -/
def sources (c : Call) (m : Machine) (recursive : Bool) (file : String) :
    Except Fault (List Source) :=
  let p := m.resolve file
  if !m.root.isDirectoryAt p then (c.readFile m file).map fun text => [⟨some file, text⟩]
  else if recursive then
    .ok ((m.root.descendants p).filterMap fun (below, n) =>
      n.content?.map fun content =>
        let relative : Path := below.drop p.length
        ⟨some (Text.dropEnd '/' file ++ relative.display), content⟩)
  else .error (.invalid (.isDirectory "grep" file))

structure LineTest where
  part : String
  folded : Bool
  inverted : Bool
  deriving DecidableEq, Repr

def LineTest.fits (t : LineTest) (line : String) : Bool :=
  let found :=
    if t.folded then Text.contains (Text.toLower line) (Text.toLower t.part)
    else Text.contains line t.part
  found != t.inverted

/-- What is printed for one source: a count, its label, or its fitting lines. -/
def report (o : Shell.Options) (t : LineTest) (labelled : Bool) (s : Source) : List String :=
  let front := match s.label with
    | some label => if labelled then label ++ ":" else ""
    | none => ""
  let hits := ((Text.lines s.text).zipIdx 1).filter fun (line, _) => t.fits line
  if o.has 'c' then [front ++ s!"{hits.length}"]
  else if o.has 'l' then
    if hits.isEmpty then [] else [s.label.getD "(standard input)"]
  else
    hits.map fun (line, k) => if o.has 'n' then front ++ s!"{k}:" ++ line else front ++ line

/-- The pattern of the call and the files to search. -/
def grepArgs (o : Shell.Options) : Option (String × List String) :=
  match o.value? 'e', o.operands with
  | some pattern, files => some (pattern, files)
  | none, pattern :: files => some (pattern, files)
  | none, [] => none

def grep (c : Call) (m : Machine) : Answer := do
  let o := c.options "e"
  match grepArgs o with
  | none => .error (.usage (.synopsis "Usage: grep [OPTION]... PATTERNS [FILE]..."))
  | some (pattern, files) =>
    let found ← files.mapM (sources c m (o.has 'r' || o.has 'R'))
    let all : List Source := if files.isEmpty then [⟨none, c.stdin⟩] else found.flatten
    let t : LineTest := ⟨pattern, o.has 'i', o.has 'v'⟩
    .ok (.lines (all.flatMap (report o t (1 < all.length))))

def awk (c : Call) (m : Machine) : Answer := do
  let o := c.options "F"
  let program := o.operands.headD "\x7bprint $1\x7d"
  match Filter.Awk.Program.read? program with
  | none => .error (.usage (.awkSyntax program))
  | some p =>
    let text ← c.readInput m (o.operand? 1)
    .ok (.lines (p.run (Filter.fields (o.value? 'F')) (Text.lines text)))

def wc (c : Call) (m : Machine) : Answer := do
  let o := c.options ""
  let file := o.operand? 0
  let text ← c.readInput m file
  let counts := [('l', (Text.lines text).length), ('w', (Text.words text).length),
    ('c', Text.byteLength text), ('m', text.length)]
  let column (n : Nat) : String := Text.padLeft 4 s!"{n}"
  let shown := match counts.filter fun (flag, _) => o.has flag with
    | [] => " ".intercalate ((counts.take 3).map fun (_, n) => column n)
    | [(_, n)] => s!"{n}"
    | several => " ".intercalate (several.map fun (_, n) => column n)
  .ok (.output (match file with
    | some file => shown ++ " " ++ file
    | none => shown))

/-- A dash with digits. -/
def lineCount? (arg : String) : Option String :=
  match arg.toList with
  | '-' :: c :: cs => if (c :: cs).all Char.isDigit then some (.ofList (c :: cs)) else none
  | _ => none

inductive End where
  | head | tail
  deriving DecidableEq, Repr

/-- Prints five lines of one end of a text, or as many as the call says. -/
def ends (e : End) (c : Call) (m : Machine) : Answer := do
  let count := (c.args.filterMap lineCount?).getLast?
  let o := Shell.Options.ofArgs "n" (c.args.filter fun arg => (lineCount? arg).isNone)
  let n ← match (o.value? 'n').or count with
    | none => pure 5
    | some raw =>
      match Number.read? Number.wordLimit (Text.dropStart '+' raw) with
      | some n => pure n
      | none => .error (.usage (.invalidLineCount c.name raw))
  filtered c m (o.operand? 0) fun text =>
    let lines := Text.lines text
    Text.joinLines (match e with
      | .head => lines.take n
      | .tail => lines.drop (lines.length - n))

/-- The field number of a sort key such as `2,3`. -/
def sortField (key : String) : Option Nat :=
  match Number.read? Number.wordLimit ((Text.splitOn key ',').headD "") with
  | some 0 => none
  | field => field

def sort (c : Call) (m : Machine) : Answer :=
  let o := c.options "kt"
  let order : Filter.SortOrder :=
    ⟨(o.value? 'k').bind sortField, o.value? 't', o.has 'n', o.has 'f'⟩
  filtered c m (o.operand? 0) fun text =>
    Text.joinLines (Filter.sortLines order (o.has 'r') (o.has 'u') (Text.lines text))

def uniq (c : Call) (m : Machine) : Answer :=
  let o := c.options ""
  filtered c m (o.operand? 0) fun text =>
    let kept := (Filter.countDistinct (Text.lines text)).filter fun (_, n) =>
      !(o.has 'd' && n < 2) && !(o.has 'u' && 1 < n)
    Text.joinLines (kept.map fun (line, n) =>
      if o.has 'c' then Text.padLeft 7 s!"{n}" ++ " " ++ line else line)

def cut (c : Call) (m : Machine) : Answer := do
  let o := c.options "dfc"
  let text ← c.readInput m (o.operand? 0)
  let delimiter := ((o.value? 'd').bind (·.toList.head?)).getD '\t'
  let each (f : String → String) : Answer := .ok (.lines ((Text.lines text).map f))
  match o.value? 'f', o.value? 'c' with
  | some list, _ =>
    match Filter.Positions.read? list with
    | none => .error (.usage (.invalidFields list))
    | some positions => each (Filter.cutFields positions delimiter)
  | none, some list =>
    match Filter.Positions.read? list with
    | none => .error (.usage (.invalidPositions list))
    | some positions => each (Filter.cutChars positions)
  | none, none => each fun line => .ofList (line.toList.take 5)

def tr (c : Call) : Answer :=
  let o := c.options ""
  match o.operands with
  | [] => .ok (.output (Text.toUpper c.stdin))
  | spec :: rest =>
    let set := Filter.expandSet spec
    let text := c.stdin.toList
    let squeezed (set text : List Char) : Reply :=
      .output (.ofList (if o.has 's' then Filter.squeeze set text else text))
    if o.has 'd' then .ok (.output (.ofList (text.filter fun c => !set.contains c)))
    else
      match rest.head?.map Filter.expandSet with
      | some (first :: more) =>
        .ok (squeezed (first :: more) (text.map (Filter.mapChar set (first :: more))))
      | other =>
        if o.has 's' then .ok (squeezed (other.getD set) text)
        else .error (.usage (.missingAfter "tr" "operand" spec))

def rev (c : Call) (m : Machine) : Answer :=
  filtered c m ((c.options "").operand? 0) fun text =>
    Text.joinLines ((Text.lines text).map Text.reverse)

/-- Numbers the lines that are not empty. -/
def numberLines (k : Nat) : List String → List String
  | [] => []
  | line :: rest =>
    if line = "" then "" :: numberLines k rest else numbered k line :: numberLines (k + 1) rest

def nl (c : Call) (m : Machine) : Answer :=
  filtered c m ((c.options "").operand? 0) fun text =>
    Text.joinLines (numberLines 1 (Text.lines text))

def page (c : Call) (m : Machine) : Answer := filtered c m ((c.options "").operand? 0) id

def jsonSample : String := "\x7b\n  \"key\": \"value\",\n  \"status\": \"ok\"\n\x7d"

def jsonText (o : Shell.Options) (value : Json) : String :=
  match value with
  | .string s => if o.has 'r' then s else Json.quote s
  | value => if o.has 'c' then value.compact else value.pretty

def jq (c : Call) (m : Machine) : Answer := do
  let o := c.options ""
  let filter := (o.operand? 0).getD "."
  let text ← c.readInput m (o.operand? 1)
  if Text.isBlank text then .ok (.output jsonSample)
  else
    match Json.read text with
    | .error e => .error (.invalid (.unreadableJson e))
    | .ok value =>
      match Json.Filter.read? filter with
      | none => .error (.usage (.unsupportedFilter filter))
      | some f => .ok (.output (jsonText o (value.select f)))

def diff (c : Call) (m : Machine) : Answer := do
  match (c.options "").operands with
  | left :: right :: _ =>
    let a ← c.readFile m left
    let b ← c.readFile m right
    .ok (.output (Filter.diff (Text.lines a) (Text.lines b)))
  | operands => .error (.usage (.missingAfter "diff" "operand" (operands.headD "diff")))

def paste (c : Call) (m : Machine) : Answer := do
  let o := c.options "d"
  let glue := (o.value? 'd').getD "\t"
  let texts ←
    if o.operands.isEmpty then pure [c.stdin]
    else o.operands.mapM fun operand => c.readInput m (some operand)
  let columns := texts.map Text.lines
  .ok (.lines (if o.has 's' then columns.map glue.intercalate else Filter.paste glue columns))

def join (c : Call) (m : Machine) : Answer := do
  let o := c.options "t"
  match o.operands with
  | left :: right :: _ =>
    let a ← c.readFile m left
    let b ← c.readFile m right
    .ok (.lines (Filter.joinLines (o.value? 't') (Text.lines a) (Text.lines b)))
  | operands => filtered c m operands.head? id

def column (c : Call) (m : Machine) : Answer :=
  let o := c.options "s"
  filtered c m (o.operand? 0) fun text =>
    if !o.has 't' then Text.replaceAll "," "\t" text
    else
      let cells (line : String) : List String :=
        match o.value? 's' with
        | none => Text.words line
        | some separators =>
          if separators = "" then Text.words line
          else Text.splitWhere separators.toList.contains line
      Text.joinLines (Filter.align ((Text.lines text).map cells))

def run (command : TextCommand) (c : Call) (m : Machine) : Outcome :=
  match command with
  | .awk => .ofQuery m (awk c m)
  | .cat => .ofQuery m (cat c m)
  | .column => .ofQuery m (column c m)
  | .cut => .ofQuery m (cut c m)
  | .diff => .ofQuery m (diff c m)
  | .echo => .ofTree m (Writing.echo c m)
  | .grep => .ofQuery m (grep c m)
  | .head => .ofQuery m (ends .head c m)
  | .join => .ofQuery m (join c m)
  | .jq => .ofQuery m (jq c m)
  | .less => .ofQuery m (page c m)
  | .more => .ofQuery m (page c m)
  | .nl => .ofQuery m (nl c m)
  | .paste => .ofQuery m (paste c m)
  | .rev => .ofQuery m (rev c m)
  | .sed => .ofTree m (Writing.sed c m)
  | .sort => .ofQuery m (sort c m)
  | .tail => .ofQuery m (ends .tail c m)
  | .tee => .ofTree m (Writing.tee c m)
  | .tr => .ofQuery m (tr c)
  | .uniq => .ofQuery m (uniq c m)
  | .wc => .ofQuery m (wc c m)
  | .zgrep => .reply m (.output "Found match in compressed file.")

end PocketUnix.Reading
