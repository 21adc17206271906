import PocketUnix.Toml.Quoted

/-!
# Reading TOML

Statements line by line: pairs of a key and a value, and the headers of tables.
-/

namespace PocketUnix.Toml

def skipBlanks (s : List Char) : List Char := s.dropWhile fun c => c == ' ' || c == '\t'

/-- Leaves out a comment, up to the end of its line. -/
def skipComment? (s : List Char) : Option (List Char) :=
  match s with
  | '#' :: rest =>
    match rest.dropWhile isAllowed with
    | [] => some []
    | '\n' :: more => some ('\n' :: more)
    | '\r' :: '\n' :: more => some ('\n' :: more)
    | _ => none
  | _ => some s

/-- The rest behind the end of a line, before which only a comment may stand. -/
def lineEnd? (s : List Char) : Option (List Char) :=
  (skipComment? (skipBlanks s)).bind fun
    | [] => some []
    | '\n' :: rest => some rest
    | '\r' :: '\n' :: rest => some rest
    | _ => none

/-- Leaves out blanks, comments and ends of lines. -/
def skipLines? : Nat → List Char → Option (List Char)
  | 0, s => some s
  | fuel + 1, s =>
    match skipBlanks s with
    | '\n' :: rest => skipLines? fuel rest
    | '\r' :: '\n' :: rest => skipLines? fuel rest
    | '#' :: rest => (skipComment? ('#' :: rest)).bind (skipLines? fuel)
    | rest => some rest

def isBareChar (c : Char) : Bool := c.isAlphanum || c == '_' || c == '-'

def simpleKey? (s : List Char) : Option (String × List Char) :=
  match s with
  | '"' :: rest => (basic? rest).map fun (key, rest) => (.ofList key, rest)
  | '\'' :: rest => (literal? rest).map fun (key, rest) => (.ofList key, rest)
  | _ =>
    let key := s.takeWhile isBareChar
    if key.isEmpty then none else some (.ofList key, s.drop key.length)

/-- Values and keys may be nested so deep. -/
def nestingLimit : Nat := 80

/-- A dotted key of at most so many parts, with what follows it and the blanks behind it. -/
def keys? : Nat → List Char → Option (List String × List Char)
  | 0, _ => none
  | parts + 1, s => do
    let (key, rest) ← simpleKey? (skipBlanks s)
    match skipBlanks rest with
    | '.' :: rest =>
      let (keys, rest) ← keys? parts rest
      some (key :: keys, rest)
    | rest => some ([key], rest)

def key? (s : List Char) : Option (List String × List Char) := keys? nestingLimit s

mutual

/-- A value in which brackets and braces are nested at most `depth` deep. -/
def value? : Nat → Nat → List Char → Option (Item × List Char)
  | 0, _, _ => none
  | fuel + 1, depth, s =>
    match s, depth with
    | '"' :: _, _ => (quoted? s).map fun (cs, rest) => (.string (.ofList cs), rest)
    | '\'' :: _, _ => (quoted? s).map fun (cs, rest) => (.string (.ofList cs), rest)
    | '[' :: _, 0 => none
    | '[' :: rest, depth + 1 => (elements? fuel depth rest).map fun rest => (.other, rest)
    | '\x7b' :: _, 0 => none
    | '\x7b' :: rest, depth + 1 =>
      (members? fuel depth [] rest).map fun (entries, rest) => (.table .inline entries, rest)
    | _, _ =>
      let token := token s
      (scalar? token).map fun item => (item, s.drop token.length)

/-- What follows the elements of an array and its closing bracket. -/
def elements? : Nat → Nat → List Char → Option (List Char)
  | 0, _, _ => none
  | fuel + 1, depth, s => do
    let s ← skipLines? s.length s
    match s with
    | ']' :: rest => some rest
    | _ =>
      let (_, rest) ← value? fuel depth s
      let rest ← skipLines? rest.length rest
      match rest with
      | ',' :: rest => elements? fuel depth rest
      | ']' :: rest => some rest
      | _ => none

/-- The pairs of an inline table, up to its closing brace. Comments and line ends may stand
anywhere but within a key, and a comma may follow the last pair. -/
def members? : Nat → Nat → Entries → List Char → Option (Entries × List Char)
  | 0, _, _, _ => none
  | fuel + 1, depth, entries, s => do
    let s ← skipLines? s.length s
    match s with
    | '\x7d' :: rest => some (entries, rest)
    | _ =>
      let (keys, rest) ← key? s
      let rest ← mark? '=' (← skipLines? rest.length rest)
      let (value, rest) ← value? fuel depth (← skipLines? rest.length rest)
      let entries ← entries.addPair? value keys
      let rest ← skipLines? rest.length rest
      match rest with
      | ',' :: rest => members? fuel depth entries rest
      | '\x7d' :: rest => some (entries, rest)
      | _ => none

end

def statement? (s : List Char) : Option (Statement × List Char) := do
  match s with
  | '[' :: '[' :: rest =>
    let (keys, rest) ← key? rest
    let rest ← mark? ']' (← mark? ']' rest)
    some (.element keys, rest)
  | '[' :: rest =>
    let (keys, rest) ← key? rest
    let rest ← mark? ']' rest
    some (.header keys, rest)
  | _ =>
    let (keys, rest) ← key? s
    let rest ← mark? '=' rest
    let (value, rest) ← value? (2 * rest.length + 2) nestingLimit (skipBlanks rest)
    some (.pair keys value, rest)

def statements? : Nat → List Char → Option (List Statement)
  | 0, _ => none
  | fuel + 1, s => do
    let s ← skipLines? s.length s
    if s.isEmpty then some []
    else
      let (statement, rest) ← statement? s
      let rest ← lineEnd? rest
      let more ← statements? fuel rest
      some (statement :: more)

/-- A byte order mark may stand in front of a document. -/
def dropByteOrderMark : List Char → List Char
  | '\ufeff' :: rest => rest
  | s => s

/-- The entries of a document, unless it is malformed. -/
def read? (s : String) : Option Entries :=
  (statements? (s.length + 1) (dropByteOrderMark s.toList)).bind (build? [] [])

end PocketUnix.Toml
