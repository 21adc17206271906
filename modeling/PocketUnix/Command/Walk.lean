import PocketUnix.Command.Listing
import PocketUnix.Glob
import PocketUnix.Text.Case

/-!
# Walking the tree

`find`, `tree`, `du` and `locate`.
-/

namespace PocketUnix.Walk

inductive Kind where
  | file | directory | link
  deriving DecidableEq, Repr

def Kind.ofLetter? : Char → Option Kind
  | 'f' => some .file
  | 'd' => some .directory
  | 'l' => some .link
  | _ => none

def Kind.fits (k : Kind) (n : Node) : Bool :=
  match k with
  | .file => n.isFile
  | .directory => n.isDirectory
  | .link => n.isLink

structure NamePattern where
  pattern : String
  folded : Bool
  deriving DecidableEq, Repr

def NamePattern.fits (p : NamePattern) (name : String) : Bool :=
  if p.folded then Glob.accepts (Text.toLower p.pattern) (Text.toLower name)
  else Glob.accepts p.pattern name

structure Search where
  start : Option String := none
  name : Option NamePattern := none
  kind : Option Kind := none
  maxDepth : Option Nat := none
  deriving DecidableEq, Repr

/-- Reads the arguments of a search; a later test takes the place of an earlier one of its sort. -/
def Search.read (s : Search) : List String → Except Fault Search
  | [] => .ok s
  | arg :: rest =>
    if arg = "-name" ∨ arg = "-iname" then
      match rest with
      | [] => .error (.usage (.findArgument arg))
      | pattern :: rest => read { s with name := some ⟨pattern, arg == "-iname"⟩ } rest
    else if arg = "-type" then
      match rest with
      | [] => .error (.usage .findType)
      | value :: rest =>
        match value.toList.head?.bind Kind.ofLetter? with
        | none => .error (.usage .findType)
        | some kind => read { s with kind := some kind } rest
    else if arg = "-maxdepth" then
      match rest with
      | [] => .error (.usage .findDepth)
      | value :: rest =>
        match Number.read? Number.wordLimit value with
        | none => .error (.usage .findDepth)
        | some depth => read { s with maxDepth := some depth } rest
    else if Text.startsWith arg "-" then .error (.usage (.findPredicate arg))
    else
      match s.start with
      | none => read { s with start := some arg } rest
      | some _ => .error (.usage (.findPath arg))

def Search.keeps (s : Search) (name : String) (n : Node) : Bool :=
  s.name.all (·.fits name) && s.kind.all (·.fits n)

def Search.reaches (s : Search) (depth : Nat) : Bool := s.maxDepth.all (depth ≤ ·)

/-- What stands in front of the paths below a start that is written so. -/
def base (label : String) : String :=
  if Text.endsWith label "/" && 1 < Text.byteLength label then Text.dropEnd '/' label else label

def shownBelow (label : String) (relative : Path) : String :=
  let front := base label
  if front = "/" then relative.display else front ++ relative.display

def Search.run (s : Search) (m : Machine) : Answer :=
  let label := s.start.getD "."
  let start := m.resolve label
  match m.root.get? start with
  | none => .error (.notFound (.searched label))
  | some n =>
    let first := if s.keeps (start.name?.getD "/") n then [label] else []
    let found := (m.root.descendants start).filterMap fun (p, n) =>
      let relative : Path := p.drop start.length
      if s.reaches relative.length && s.keeps n.name n then
        some (shownBelow label relative)
      else none
    .ok (.lines (first ++ found))

def find (c : Call) (m : Machine) : Answer := do
  let search ← Search.read {} c.args
  search.run m

structure DrawOptions where
  all : Bool
  directoriesOnly : Bool
  maxLevel : Option Nat
  deriving DecidableEq, Repr

def DrawOptions.shows (o : DrawOptions) (n : Node) : Bool :=
  (o.all || !Listing.isHidden n.name) && (!o.directoriesOnly || n.isDirectory)

structure Drawing where
  lines : List String
  directories : Nat
  files : Nat

def Drawing.empty : Drawing := ⟨[], 0, 0⟩

def Drawing.above (a b : Drawing) : Drawing :=
  ⟨a.lines ++ b.lines, a.directories + b.directories, a.files + b.files⟩

mutual

/-- What is drawn below a node whose entries are at a level. -/
def draw (o : DrawOptions) (level : Nat) (indent : String) : Node → Drawing
  | .directory _ entries =>
    if o.maxLevel.all (level ≤ ·) then drawEntries o level indent entries else .empty
  | _ => .empty

/-- The last entry that is shown has a branch that ends. -/
def drawEntries (o : DrawOptions) (level : Nat) (indent : String) :
    List (String × Node) → Drawing
  | [] => .empty
  | (_, n) :: rest =>
    let others := drawEntries o level indent rest
    if !o.shows n then others
    else
      let (branch, deeper) :=
        if rest.any fun entry => o.shows entry.2 then ("├── ", "│   ") else ("└── ", "    ")
      let here : Drawing := ⟨[indent ++ branch ++ n.name ++ Listing.arrow n],
        if n.isDirectory then 1 else 0, if n.isDirectory then 0 else 1⟩
      (here.above (draw o (level + 1) (indent ++ deeper) n)).above others

end

def plural (n : Nat) (one many : String) : String :=
  if n = 1 then s!"{n} {one}" else s!"{n} {many}"

def tree (c : Call) (m : Machine) : Answer :=
  let o := c.options "L"
  let label := (o.operand? 0).getD "."
  match m.node? label with
  | some (.directory a entries) =>
    let options : DrawOptions :=
      ⟨o.has 'a', o.has 'd', (o.value? 'L').bind (Number.read? Number.wordLimit)⟩
    let drawing := draw options 1 "" (.directory a entries)
    let directories := plural drawing.directories "directory" "directories"
    let summary :=
      if o.has 'd' then directories
      else directories ++ ", " ++ plural drawing.files "file" "files"
    .ok (.lines (label :: drawing.lines ++ ["", summary]))
  | _ => .error (.notFound (.drawn label))

/-- Kibibytes of a file, in blocks of four. -/
def fileUsage (content : String) : Nat := (Text.byteLength content + 4095) / 4096 * 4

mutual

/-- The kibibytes of a node, and a row for each directory, the inner ones first. -/
def usage (label : String) : Node → Nat × List (Nat × String)
  | .file _ content => (fileUsage content, [])
  | .link .. => (0, [])
  | .directory _ entries =>
    let (inside, rows) := entriesUsage label entries
    (4 + inside, rows ++ [(4 + inside, if label = "" then "/" else label)])

def entriesUsage (label : String) : List (String × Node) → Nat × List (Nat × String)
  | [] => (0, [])
  | (_, n) :: rest =>
    let (here, rows) := usage (label ++ "/" ++ n.name) n
    let (others, otherRows) := entriesUsage label rest
    (here + others, rows ++ otherRows)

end

def sizeText (human : Bool) (kb : Nat) : String :=
  if !human then s!"{kb}"
  else if kb < 1024 then s!"{kb}K"
  else Number.fixed 1 kb 1024 ++ "M"

def usageRow (human : Bool) (row : Nat × String) : String :=
  sizeText human row.1 ++ "\t" ++ row.2

def du (c : Call) (m : Machine) : Answer := do
  let o := c.options "d"
  let operands := if o.operands.isEmpty then ["."] else o.operands
  let rows ← operands.mapM fun label =>
    match m.node? label with
    | none => .error (.notFound (.accessed "du" label))
    | some n =>
      let (total, rows) := usage (Text.dropEnd '/' label) n
      .ok (if o.has 's' || !n.isDirectory then [(total, label)] else rows)
  .ok (.lines (rows.flatten.map (usageRow (o.has 'h'))))

def locate (c : Call) (m : Machine) : Answer :=
  let o := c.options ""
  match o.operand? 0 with
  | none => .error (.usage .noPattern)
  | some raw =>
    let fold (s : String) : String := if o.has 'i' then Text.toLower s else s
    let part := fold (.ofList (raw.toList.filter (· != '*')))
    let shown := (m.root.descendants []).map fun (p, _) => p.display
    .ok (.lines (shown.filter fun s => Text.contains (fold s) part))

end PocketUnix.Walk
