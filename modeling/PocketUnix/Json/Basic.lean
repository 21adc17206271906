import PocketUnix.Number.Binary64
import PocketUnix.Table

/-!
# JSON values

Whole numbers that fit into 64 bits, signed or not, are kept exactly; all others are binary
floating-point numbers. Members of an object are sorted by name.
-/

namespace PocketUnix

inductive Json where
  | null
  | bool (value : Bool)
  | integer (value : Int)
  | float (value : Binary64)
  | string (value : String)
  | array (items : List Json)
  | object (members : List (String × Json))

namespace Json

/-- The member of an object; null where there is none. -/
def member (name : String) : Json → Json
  | .object members => (Table.get? name members).getD null
  | _ => null

/-- The item of an array; null where there is none. -/
def item (index : Nat) : Json → Json
  | .array items => items.getD index null
  | _ => null

end Json

end PocketUnix
