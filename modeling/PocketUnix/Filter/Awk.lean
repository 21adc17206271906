import PocketUnix.Number.Digits
import PocketUnix.Text.Basic

/-!
# Printing programs

Programs of the form `/needle/ {print items}`, where both parts may be missing.
-/

namespace PocketUnix.Filter.Awk

inductive Item where
  /-- A field by number; number 0 is the whole line. -/
  | field (k : Nat)
  | lastField
  | literal (s : String)
  | gap
  | recordNumber
  | fieldCount
  deriving DecidableEq, Repr

structure Program where
  needle : Option String
  items : List Item
  deriving DecidableEq, Repr

/-- What a dollar sign and a name refer to. The largest word stands for the last field. -/
def reference? (name : List Char) : Option Item :=
  if name = ['N', 'F'] then some .lastField
  else
    (Number.readChars? Number.wordLimit name).map fun k =>
      if k = Number.wordLimit then .lastField else .field k

def itemNamed? (name : List Char) : Option Item :=
  if name = ['N', 'R'] then some .recordNumber
  else if name = ['N', 'F'] then some .fieldCount
  else none

/-- The items of a print statement. Each takes a character, so that the length of the text is
enough fuel. -/
def readItems? : Nat → List Char → Option (List Item)
  | _, [] => some []
  | 0, _ => none
  | fuel + 1, c :: cs =>
    if Chars.isBlank c then readItems? fuel cs
    else if c = ',' then (readItems? fuel cs).map (.gap :: ·)
    else if c = '"' then do
      let (inner, rest) ← Chars.cutWhere? (· == '"') cs
      let items ← readItems? fuel rest
      some (.literal (.ofList inner) :: items)
    else if c = '$' then do
      let item ← reference? (cs.takeWhile Char.isAlphanum)
      let items ← readItems? fuel (cs.dropWhile Char.isAlphanum)
      some (item :: items)
    else do
      let item ← itemNamed? ((c :: cs).takeWhile Char.isAlpha)
      let items ← readItems? fuel ((c :: cs).dropWhile Char.isAlpha)
      some (item :: items)

/-- The items between braces; without any, the whole line is printed. -/
def readAction? (s : List Char) : Option (List Item) :=
  if s.isEmpty then some [.field 0]
  else do
    let inner ← Chars.stripEnd? ['}'] (← ['{'].isPrefixOf? s)
    let args := Chars.trim (← "print".toList.isPrefixOf? (Chars.trim inner))
    if args.isEmpty then some [.field 0] else readItems? args.length args

def Program.read? (s : String) : Option Program :=
  match Chars.trim s.toList with
  | '/' :: rest => do
    let (needle, action) ← Chars.cutWhere? (· == '/') rest
    let items ← readAction? (Chars.trim action)
    some ⟨some (.ofList needle), items⟩
  | action => (readAction? action).map fun items => ⟨none, items⟩

def itemText (line : String) (fields : List String) (record : Nat) : Item → String
  | .field 0 => line
  | .field (k + 1) => fields.getD k ""
  | .lastField => fields.getLast?.getD ""
  | .literal s => s
  | .gap => " "
  | .recordNumber => s!"{record}"
  | .fieldCount => s!"{fields.length}"

def Program.selects (p : Program) (line : String) : Bool :=
  match p.needle with
  | none => true
  | some needle => Text.contains line needle

def Program.render (p : Program) (line : String) (fields : List String) (record : Nat) : String :=
  String.join (p.items.map (itemText line fields record))

/-- What the program prints for each line that it selects. Lines are numbered from 1. -/
def Program.run (p : Program) (fieldsOf : String → List String) (lines : List String) :
    List String :=
  (lines.zipIdx 1).filterMap fun (line, record) =>
    if p.selects line then some (p.render line (fieldsOf line) record) else none

end PocketUnix.Filter.Awk
