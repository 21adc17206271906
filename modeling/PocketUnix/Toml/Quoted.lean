import PocketUnix.Toml.Scalar

/-!
# Strings

Basic strings with escapes and literal strings without, each on one line or as a block of lines.
-/

namespace PocketUnix.Toml

/-- Control characters other than a tab cannot stand for themselves. -/
def isAllowed (c : Char) : Bool := c == '\t' || (0x20 ≤ c.toNat && c.toNat != 0x7F)

def simpleEscape? : Char → Option Char
  | 'b' => some '\x08'
  | 'e' => some '\x1b'
  | 't' => some '\t'
  | 'n' => some '\n'
  | 'f' => some '\x0c'
  | 'r' => some '\r'
  | '"' => some '"'
  | '\\' => some '\\'
  | _ => none

/-- The character with a number in hexadecimal digits. -/
def hexChar? (digits : List Char) : Option Char :=
  let n := natInBase 16 digits
  if digits.all isHexDigit && n.isValidChar then some (Char.ofNat n) else none

def consTo (c : Char) : Option (List Char × List Char) → Option (List Char × List Char) :=
  Option.map fun (cs, rest) => (c :: cs, rest)

/-- What stands before the closing quote, and what follows it. -/
def basic? : List Char → Option (List Char × List Char)
  | [] => none
  | '"' :: rest => some ([], rest)
  | '\\' :: 'x' :: a :: b :: rest => (hexChar? [a, b]).bind fun x => consTo x (basic? rest)
  | '\\' :: 'u' :: a :: b :: c :: d :: rest =>
    (hexChar? [a, b, c, d]).bind fun x => consTo x (basic? rest)
  | '\\' :: 'U' :: a :: b :: c :: d :: e :: f :: g :: h :: rest =>
    (hexChar? [a, b, c, d, e, f, g, h]).bind fun x => consTo x (basic? rest)
  | '\\' :: c :: rest => (simpleEscape? c).bind fun x => consTo x (basic? rest)
  | c :: rest => if isAllowed c && c != '\\' then consTo c (basic? rest) else none

def literal? : List Char → Option (List Char × List Char)
  | [] => none
  | '\'' :: rest => some ([], rest)
  | c :: rest => if isAllowed c then consTo c (literal? rest) else none

/-- A block ends at three quotes, but up to two more quotes in front of those belong to it. -/
def blockEnd? (quote : Char) (s : List Char) : Option (List Char × List Char) :=
  let run := s.takeWhile (· == quote)
  if run.length < 3 then none
  else
    let extra := min (run.length - 3) 2
    some (List.replicate extra quote, s.drop (3 + extra))

def isSpaceOrBreak (c : Char) : Bool := c == ' ' || c == '\t' || c == '\n'

/-- Only blanks up to the end of the line? -/
def breaksLine (s : List Char) : Bool :=
  match s.dropWhile fun c => c == ' ' || c == '\t' with
  | '\n' :: _ => true
  | '\r' :: '\n' :: _ => true
  | _ => false

/-- The content of a block with escapes, and with its line breaks as they are written. Blanks and
line breaks are skipped behind a backslash at the end of a line. -/
def basicBlock? (skipping : Bool) : List Char → Option (List Char × List Char)
  | [] => none
  | '\r' :: '\n' :: rest =>
    if skipping then basicBlock? true rest
    else consTo '\r' (consTo '\n' (basicBlock? false rest))
  | '\\' :: 'x' :: a :: b :: rest =>
    (hexChar? [a, b]).bind fun x => consTo x (basicBlock? false rest)
  | '\\' :: 'u' :: a :: b :: c :: d :: rest =>
    (hexChar? [a, b, c, d]).bind fun x => consTo x (basicBlock? false rest)
  | '\\' :: 'U' :: a :: b :: c :: d :: e :: f :: g :: h :: rest =>
    (hexChar? [a, b, c, d, e, f, g, h]).bind fun x => consTo x (basicBlock? false rest)
  | c :: rest =>
    if skipping && isSpaceOrBreak c then basicBlock? true rest
    else
      match blockEnd? '"' (c :: rest) with
      | some ending => some ending
      | none =>
        if c = '\\' then
          if breaksLine rest then basicBlock? true rest
          else
            match rest with
            | [] => none
            | d :: rest => (simpleEscape? d).bind fun x => consTo x (basicBlock? false rest)
        else if c = '\n' || isAllowed c then consTo c (basicBlock? false rest)
        else none

def literalBlock? : List Char → Option (List Char × List Char)
  | [] => none
  | '\r' :: '\n' :: rest => consTo '\r' (consTo '\n' (literalBlock? rest))
  | c :: rest =>
    match blockEnd? '\'' (c :: rest) with
    | some ending => some ending
    | none => if c = '\n' || isAllowed c then consTo c (literalBlock? rest) else none

/-- A line break right behind the opening quotes does not belong to a block. -/
def dropBreak : List Char → List Char
  | '\n' :: rest => rest
  | '\r' :: '\n' :: rest => rest
  | s => s

/-- A string of any kind, with what follows it. -/
def quoted? (s : List Char) : Option (List Char × List Char) :=
  match s with
  | '"' :: '"' :: '"' :: rest => basicBlock? false (dropBreak rest)
  | '\'' :: '\'' :: '\'' :: rest => literalBlock? (dropBreak rest)
  | '"' :: rest => basic? rest
  | '\'' :: rest => literal? rest
  | _ => none

end PocketUnix.Toml
