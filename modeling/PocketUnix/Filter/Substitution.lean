import PocketUnix.Text.Basic

/-!
# Substitutions

`s/old/new/` with any character as the divider and with literal texts. The flag `g` asks for every
occurrence in a line instead of the first.
-/

namespace PocketUnix.Filter

structure Substitution where
  old : String
  new : String
  everywhere : Bool
  deriving DecidableEq, Repr

namespace Substitution

def read? (s : String) : Option Substitution :=
  match s.toList with
  | 's' :: divider :: rest =>
    match rest.splitOn divider with
    | [old, new, flags] =>
      if old.isEmpty then none else some ⟨.ofList old, .ofList new, flags.contains 'g'⟩
    | _ => none
  | _ => none

def apply (s : Substitution) (line : String) : String :=
  if s.everywhere then Text.replaceAll s.old s.new line
  else Text.replaceFirst s.old s.new line

end Substitution

end PocketUnix.Filter
