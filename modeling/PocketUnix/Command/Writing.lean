import PocketUnix.Command.Call
import PocketUnix.Filter.Substitution

/-!
# Writing text

`echo` with redirection, `tee`, `sed`, and the downloads of `curl` and `wget`.
-/

namespace PocketUnix.Writing

structure Redirection where
  appending : Bool
  file : String
  deriving DecidableEq, Repr

/-- The mark of a redirection at the start of a word, with what is glued to it. -/
def mark? (word : String) : Option (Bool × String) :=
  match word.toList with
  | '>' :: '>' :: rest => some (true, .ofList rest)
  | '>' :: rest => some (false, .ofList rest)
  | _ => none

/-- The words to print, and the first redirection among them. Words behind it are printed, too. -/
def redirected : List String → Except Fault (List String × Option Redirection)
  | [] => .ok ([], none)
  | word :: rest =>
    match mark? word with
    | none => do
      let (words, redirection) ← redirected rest
      .ok (word :: words, redirection)
    | some (appending, glued) =>
      if glued != "" then .ok (rest, some ⟨appending, glued⟩)
      else
        match rest with
        | [] => .error (.usage .redirectToNowhere)
        | file :: rest => .ok (rest, some ⟨appending, file⟩)

/-- One leading option is passed over. -/
def echoWords : List String → List String
  | [] => []
  | word :: rest => if word = "-n" ∨ word = "-e" then rest else word :: rest

def echo (c : Call) (m : Machine) : TreeAction := do
  let (words, redirection) ← .ofExcept (redirected (echoWords c.args))
  let text := " ".intercalate words
  match redirection with
  | none => return .output text
  | some r =>
    c.writeFile m r.file text r.appending
    return .empty

def checkTee (m : Machine) (operand : String) : Except Fault Unit :=
  let p := m.resolve operand
  if m.root.isDirectoryAt p then .error (.invalid (.isDirectory "tee" operand))
  else
    match m.root.parentDirectory p with
    | .ok _ => .ok ()
    | .error _ => .error (.notFound (.used "tee" operand))

def tee (c : Call) (m : Machine) : TreeAction := do
  let o := c.options ""
  .ofExcept (o.operands.forM (checkTee m))
  o.operands.forM fun operand => c.writeFile m operand c.stdin (o.has 'a')
  return .output c.stdin

/-- The expression of the call and the file that it is for. -/
def sedArgs (o : Shell.Options) : Option (String × Option String) :=
  match o.value? 'e', o.operands with
  | some expression, operands => some (expression, operands.head?)
  | none, expression :: rest => some (expression, rest.head?)
  | none, [] => none

/-- The substituted text, and the file to write it to if that is asked for. -/
def planSed (c : Call) (m : Machine) : Except Fault (String × Option String) :=
  let o := c.options "e"
  match sedArgs o with
  | none =>
    .error (.usage (.synopsis
      "Usage: sed [OPTION]... \x7bscript-only-if-no-other-script\x7d [input-file]..."))
  | some (expression, file) =>
    match Filter.Substitution.read? expression with
    | none => .error (.usage (.unterminatedSubstitution expression.length))
    | some substitution => do
      let text ← c.readInput m file
      let result := Text.joinLines ((Text.lines text).map substitution.apply)
      if !o.has 'i' then .ok (result, none)
      else
        match file with
        | none => .error (.usage .noInputFiles)
        | some file => .ok (result, some file)

def sed (c : Call) (m : Machine) : TreeAction := do
  let (result, file) ← .ofExcept (planSed c m)
  match file with
  | none => return .output result
  | some file =>
    c.writeFile m file result false
    return .empty

def downloadName : String := "downloaded_file.html"

def downloadBody : String := "<html><body>Simulated Download</body></html>"

/-- Stores a page under the name that the options give. -/
def download (c : Call) (m : Machine) : TreeAction :=
  let o := c.options "oO"
  if o.operands.isEmpty then .fail (.usage (.noAddress c.name))
  else do
    let target := ((o.value? 'o').or (o.value? 'O')).getD downloadName
    c.writeFile m target downloadBody false
    return .output s!"{c.name}: saved to '{target}'"

end PocketUnix.Writing
