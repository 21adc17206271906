import PocketUnix.Text.Chars

/-!
# Keys

A key script writes characters as themselves and other keys by their names in angle brackets.
Brackets around anything else are typed.
-/

namespace PocketUnix

inductive Key where
  | char (c : Char)
  | enter | escape | backspace | delete | tab
  | left | right | up | down | home | finish
  | interrupt
  deriving DecidableEq, Repr

namespace Key

def ofName? (name : List Char) : Option Key :=
  match String.ofList (name.map Char.toLower) with
  | "esc" | "escape" => some .escape
  | "enter" | "cr" | "return" => some .enter
  | "bs" | "backspace" => some .backspace
  | "del" | "delete" => some .delete
  | "tab" => some .tab
  | "left" => some .left
  | "right" => some .right
  | "up" => some .up
  | "down" => some .down
  | "home" => some .home
  | "end" => some .finish
  | "c-c" => some .interrupt
  | "lt" => some (.char '<')
  | _ => none

/-- The key of a character by itself. -/
def ofChar (c : Char) : Key :=
  if c = '\n' ∨ c = '\r' then .enter else if c = '\t' then .tab else .char c

/-- The key whose name starts a text, with what follows the name. -/
def named? : List Char → Option (Key × List Char)
  | '<' :: rest =>
    match Chars.cutWhere? (· == '>') rest with
    | some (name, after) => (ofName? name).map fun key => (key, after)
    | none => none
  | _ => none

/-- The keys of a script, after leaving out the first `skip` characters, which named a key. -/
def scan (skip : Nat) : List Char → List Key
  | [] => []
  | c :: cs =>
    match skip with
    | skip + 1 => scan skip cs
    | 0 =>
      match named? (c :: cs) with
      | some (key, after) => key :: scan (cs.length - after.length) cs
      | none => ofChar c :: scan 0 cs

def ofScript (script : String) : List Key := scan 0 script.toList

end Key

end PocketUnix
