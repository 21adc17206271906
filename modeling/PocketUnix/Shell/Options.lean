/-!
# Options

An argument with a leading dash is a cluster of option letters. A letter that takes a value takes
the rest of its cluster, or the next argument if nothing is left. Two dashes end the options, a
lone dash is an operand, and long options are passed over.
-/

namespace PocketUnix.Shell

structure Options where
  flags : List Char := []
  /-- Values by letter; the first one counts. -/
  values : List (Char × String) := []
  operands : List String := []
  deriving DecidableEq, Repr

namespace Options

/-- The plain letters of a cluster, and the letter that takes a value with what is glued to it. -/
def cluster (valued : List Char) : List Char → List Char × Option (Char × List Char)
  | [] => ([], none)
  | c :: cs =>
    if valued.contains c then ([], some (c, cs))
    else
      let (flags, value) := cluster valued cs
      (c :: flags, value)

/-- A value counts only if no later argument gives another one. -/
def withCluster (flags : List Char) (value : Option (Char × String)) (later : Options) :
    Options :=
  { later with flags := flags ++ later.flags, values := later.values ++ value.toList }

def read (valued : List Char) : List String → Options
  | [] => {}
  | arg :: rest =>
    match arg.toList with
    | ['-', '-'] => { operands := rest }
    | '-' :: '-' :: _ => read valued rest
    | '-' :: c :: cs =>
      match cluster valued (c :: cs) with
      | (flags, none) => withCluster flags none (read valued rest)
      | (flags, some (letter, [])) =>
        match rest with
        | [] => withCluster flags (some (letter, "")) {}
        | value :: rest => withCluster flags (some (letter, value)) (read valued rest)
      | (flags, some (letter, glued)) =>
        withCluster flags (some (letter, .ofList glued)) (read valued rest)
    | _ =>
      let later := read valued rest
      { later with operands := arg :: later.operands }

/-- Reads arguments; the letters of the text take values. -/
def ofArgs (valued : String) (args : List String) : Options := read valued.toList args

def has (o : Options) (flag : Char) : Bool := o.flags.contains flag

def value? (o : Options) (letter : Char) : Option String := o.values.lookup letter

def operand? (o : Options) (k : Nat) : Option String := o.operands[k]?

end Options

end PocketUnix.Shell
