import PocketUnix.Text.Basic

/-!
# Paths

A path is the list of names on the way from the root. Reading one from text is relative to a
working directory and to a user, whose home a tilde stands for. No file tree is looked at.
-/

namespace PocketUnix

abbrev Path := List String

namespace Path

def home (user : String) : Path := ["home", user]

def parent? (p : Path) : Option Path := if p.isEmpty then none else some p.dropLast

def name? (p : Path) : Option String := p.getLast?

def child (p : Path) (name : String) : Path := p ++ [name]

@[simp] theorem parent?_child (p : Path) (name : String) : (p.child name).parent? = some p := by
  simp [parent?, child]

@[simp] theorem name?_child (p : Path) (name : String) : (p.child name).name? = some name := by
  simp [name?, child]

/-- Is `p` the path `base` or a path below it? -/
def isWithin (p base : Path) : Bool := base.isPrefixOf p

/-- One step along a written path. -/
def step (p : Path) (part : String) : Path :=
  if part = "" ∨ part = "." then p
  else if part = ".." then p.dropLast
  else p.child part

def walk (p : Path) (text : String) : Path := (Text.splitOn text '/').foldl step p

/-- The path that a text names for a user in a working directory. -/
def resolve (cwd : Path) (user text : String) : Path :=
  if Text.isBlank text then cwd
  else if text = "~" then home user
  else
    match text.toList with
    | '~' :: '/' :: rest => walk (home user) (.ofList rest)
    | '/' :: _ => walk [] text
    | _ => walk cwd text

def display (p : Path) : String := "/" ++ "/".intercalate p

/-- The path with the user's home shown as a tilde. -/
def displayFor (user : String) (p : Path) : String :=
  match (home user).isPrefixOf? p with
  | none => p.display
  | some [] => "~"
  | some rest => "~/" ++ "/".intercalate rest

end Path

end PocketUnix
