import PocketUnix.Json.Basic
import PocketUnix.Text.Offset

/-!
# Reading JSON

A reader with the position of each error, counted in lines and in bytes within the line. Brackets
nest at most 127 deep. A number with more digits than a word holds keeps the digits that fit and
scales them once, with rounding, by a power of ten.
-/

namespace PocketUnix.Json

inductive Trouble where
  | endInList | endInObject | endInString | endInValue
  | expectedColon | expectedListEnd | expectedObjectEnd | expectedIdent | expectedValue
  | invalidEscape | invalidNumber | numberOutOfRange | controlCharacter | keyNotString
  | loneSurrogate | trailingComma | trailingCharacters | endOfEscape | tooDeep
  deriving DecidableEq, Repr

def Trouble.message : Trouble → String
  | .endInList => "EOF while parsing a list"
  | .endInObject => "EOF while parsing an object"
  | .endInString => "EOF while parsing a string"
  | .endInValue => "EOF while parsing a value"
  | .expectedColon => "expected `:`"
  | .expectedListEnd => "expected `,` or `]`"
  | .expectedObjectEnd => "expected `,` or `\x7d`"
  | .expectedIdent => "expected ident"
  | .expectedValue => "expected value"
  | .invalidEscape => "invalid escape"
  | .invalidNumber => "invalid number"
  | .numberOutOfRange => "number out of range"
  | .controlCharacter => "control character (\\u0000-\\u001F) found while parsing a string"
  | .keyNotString => "key must be a string"
  | .loneSurrogate => "lone leading surrogate in hex escape"
  | .trailingComma => "trailing comma"
  | .trailingCharacters => "trailing characters"
  | .endOfEscape => "unexpected end of hex escape"
  | .tooDeep => "recursion limit exceeded"

/-- Trouble so many bytes into the rest of the text. -/
structure Failure where
  trouble : Trouble
  rest : List Char
  ahead : Nat

/-- Fails at the next byte, or at the end of the text if there is none. -/
def failAhead {α : Type} (trouble : Trouble) (rest : List Char) : Except Failure α :=
  .error ⟨trouble, rest, 1⟩

def failHere {α : Type} (trouble : Trouble) (rest : List Char) : Except Failure α :=
  .error ⟨trouble, rest, 0⟩

def isSpace (c : Char) : Bool := c = ' ' || c = '\n' || c = '\t' || c = '\r'

def skipSpace (s : List Char) : List Char := s.dropWhile isSpace

/-- The rest of a word such as `true`, after its first letter. -/
def readIdent {α : Type} (value : α) : List Char → List Char → Except Failure (α × List Char)
  | [], s => .ok (value, s)
  | _ :: _, [] => failAhead .endInValue []
  | w :: ws, c :: cs => if c = w then readIdent value ws cs else failAhead .expectedIdent (c :: cs)

/-- Reads digits onto a significand as long as a word holds them; what follows is the rest. -/
def readSignificand (n : Nat) : List Char → Nat × List Char
  | [] => (n, [])
  | c :: cs =>
    let next := 10 * n + (c.toNat - '0'.toNat)
    if c.isDigit && next ≤ Number.wordLimit then readSignificand next cs else (n, c :: cs)

/-- The largest power of ten that a number can have. -/
def tenTo (e : Nat) : Binary64 := .ofDecimal false 1 e

/-- `significand * 10 ^ e`, each factor and each result rounded. -/
def scaled? (significand : Nat) (e : Int) : Option Binary64 :=
  let f := Binary64.ofRatio false significand 1
  if significand = 0 then some f
  else if 308 < e then none
  else if 0 ≤ e then
    let x := f.mul (tenTo e.toNat)
    if x.isInfinite then none else some x
  else if -308 ≤ e then some (f.div (tenTo (-e).toNat))
  else if -616 ≤ e then some ((f.div (tenTo 308)).div (tenTo (-e - 308).toNat))
  else some .zero

def signed (negative : Bool) (x : Binary64) : Json := .float { x with negative }

def finishFloat (negative : Bool) (significand : Nat) (e : Int) (s : List Char) :
    Except Failure (Json × List Char) :=
  match scaled? significand e with
  | some x => .ok (signed negative x, s)
  | none => failHere .numberOutOfRange s

/-- The largest exponent that is read. -/
def exponentLimit : Nat := Nat.pow 2 31 - 1

/-- The digits of an exponent; none if they exceed the limit, with the digit that does so. -/
def readExponentDigits (n : Nat) : List Char → Option Nat × List Char
  | [] => (some n, [])
  | c :: cs =>
    if c.isDigit then
      let next := 10 * n + (c.toNat - '0'.toNat)
      if next ≤ exponentLimit then readExponentDigits next cs else (none, c :: cs)
    else (some n, c :: cs)

def clampExponent (e : Int) : Int := max (-(exponentLimit : Int) - 1) (min exponentLimit e)

/-- The exponent, after its letter. -/
def readExponent (negative : Bool) (significand : Nat) (start : Int) (s : List Char) :
    Except Failure (Json × List Char) :=
  let (below, s) := match s with
    | '+' :: rest => (false, rest)
    | '-' :: rest => (true, rest)
    | _ => (false, s)
  match s with
  | [] => failAhead .endInValue []
  | c :: _ =>
    if !c.isDigit then failAhead .invalidNumber s
    else
      match readExponentDigits 0 s with
      | (some e, rest) =>
        finishFloat negative significand (clampExponent (if below then start - e else start + e))
          rest
      | (none, rest) =>
        if significand != 0 && !below then failAhead .numberOutOfRange rest
        else .ok (signed negative .zero, rest.dropWhile Char.isDigit)

def readTail (negative : Bool) (significand : Nat) (e : Int) (s : List Char) :
    Except Failure (Json × List Char) :=
  match s with
  | c :: rest =>
    if c = 'e' || c = 'E' then readExponent negative significand e rest
    else finishFloat negative significand e s
  | [] => finishFloat negative significand e s

/-- The places behind the point. -/
def readPlaces (negative : Bool) (significand : Nat) (before : Nat) (s : List Char) :
    Except Failure (Json × List Char) :=
  match s with
  | [] => failAhead .endInValue []
  | c :: _ =>
    if !c.isDigit then failAhead .invalidNumber s
    else
      let (significand, rest) := readSignificand significand s
      let after := s.length - rest.length
      readTail negative significand (before - after) (rest.dropWhile Char.isDigit)

def smallestInteger : Int := -(Nat.pow 2 63 : Nat)

/-- Whole numbers within 64 bits; a negative zero is a floating-point number. -/
def ofWhole (negative : Bool) (n : Nat) : Json :=
  if !negative then .integer n
  else if n = 0 || -(n : Int) < smallestInteger then signed true (.ofRatio false n 1)
  else .integer (-(n : Int))

/-- A number, after its sign. -/
def readNumber (negative : Bool) (s : List Char) : Except Failure (Json × List Char) :=
  let (n, rest) := match s with
    | '0' :: rest => (0, rest)
    | _ => readSignificand 0 s
  let dropped := (rest.takeWhile Char.isDigit).length
  match s, rest with
  | [], _ => failAhead .endInValue []
  | c :: _, rest =>
    if !c.isDigit then failAhead .invalidNumber s
    else if c = '0' && dropped != 0 then failAhead .invalidNumber rest
    else
      match rest.drop dropped with
      | '.' :: tail => readPlaces negative n dropped tail
      | 'e' :: tail => readExponent negative n dropped tail
      | 'E' :: tail => readExponent negative n dropped tail
      | tail =>
        if dropped = 0 then .ok (ofWhole negative n, tail)
        else finishFloat negative n dropped tail

def hexValue? (c : Char) : Option Nat :=
  if c.isDigit then some (c.toNat - '0'.toNat)
  else if 'a' ≤ c ∧ c ≤ 'f' then some (c.toNat - 'a'.toNat + 10)
  else if 'A' ≤ c ∧ c ≤ 'F' then some (c.toNat - 'A'.toNat + 10)
  else none

/-- Four hexadecimal digits. -/
def readHex (s : List Char) : Except Failure (Nat × List Char) :=
  if Chars.byteLength s < 4 then failHere .endInString []
  else
    match (s.take 4).mapM hexValue? with
    | some [a, b, c, d] => .ok (((a * 16 + b) * 16 + c) * 16 + d, s.drop 4)
    | _ => .error ⟨.invalidEscape, s, 4⟩

def expectChar (c : Char) (s : List Char) : Except Failure (List Char) :=
  match s with
  | [] => failHere .endInString []
  | d :: rest => if d = c then .ok rest else failAhead .endOfEscape s

/-- The character of an escape, after its `u`. A character beyond four digits takes two escapes. -/
def readUnicode (s : List Char) : Except Failure (Char × List Char) := do
  let (n, rest) ← readHex s
  if 0xDC00 ≤ n && n ≤ 0xDFFF then failHere .loneSurrogate rest
  else if 0xD800 ≤ n && n ≤ 0xDBFF then
    let rest ← expectChar '\\' rest
    let rest ← expectChar 'u' rest
    let (low, rest) ← readHex rest
    if 0xDC00 ≤ low && low ≤ 0xDFFF then
      .ok (Char.ofNat (0x10000 + (n - 0xD800) * 0x400 + (low - 0xDC00)), rest)
    else failHere .loneSurrogate rest
  else .ok (Char.ofNat n, rest)

def readEscape (s : List Char) : Except Failure (Char × List Char) :=
  match s with
  | [] => failHere .endInString []
  | '"' :: rest => .ok ('"', rest)
  | '\\' :: rest => .ok ('\\', rest)
  | '/' :: rest => .ok ('/', rest)
  | 'b' :: rest => .ok ('\x08', rest)
  | 'f' :: rest => .ok ('\x0c', rest)
  | 'n' :: rest => .ok ('\n', rest)
  | 'r' :: rest => .ok ('\r', rest)
  | 't' :: rest => .ok ('\t', rest)
  | 'u' :: rest => readUnicode rest
  | _ => failAhead .invalidEscape s

/-- The characters of a string, after its opening quote. Each step takes a character. -/
def readString : Nat → List Char → Except Failure (List Char × List Char)
  | 0, s => failHere .endInString s
  | _, [] => failHere .endInString []
  | _, '"' :: rest => .ok ([], rest)
  | fuel + 1, '\\' :: rest => do
    let (c, rest) ← readEscape rest
    let (cs, rest) ← readString fuel rest
    .ok (c :: cs, rest)
  | fuel + 1, c :: rest =>
    if c.toNat < 0x20 then failAhead .controlCharacter (c :: rest)
    else do
      let (cs, rest) ← readString fuel rest
      .ok (c :: cs, rest)

def depthLimit : Nat := 127

mutual

/-- A value inside so many open brackets. -/
def readValue : Nat → Nat → List Char → Except Failure (Json × List Char)
  | 0, _, s => failHere .tooDeep s
  | fuel + 1, depth, s =>
    match skipSpace s with
    | [] => failAhead .endInValue []
    | 'n' :: rest => readIdent .null "ull".toList rest
    | 't' :: rest => readIdent (.bool true) "rue".toList rest
    | 'f' :: rest => readIdent (.bool false) "alse".toList rest
    | '-' :: rest => readNumber true rest
    | '"' :: rest => do
      let (cs, rest) ← readString (rest.length + 1) rest
      .ok (.string (.ofList cs), rest)
    | '[' :: rest =>
      if depth = depthLimit then failAhead .tooDeep ('[' :: rest)
      else do
        let (items, rest) ← readItems fuel (depth + 1) true rest
        .ok (.array items, rest)
    | '\x7b' :: rest =>
      if depth = depthLimit then failAhead .tooDeep ('\x7b' :: rest)
      else do
        let (members, rest) ← readMembers fuel (depth + 1) true rest
        .ok (.object (Table.ofList members), rest)
    | c :: rest =>
      if c.isDigit then readNumber false (c :: rest) else failAhead .expectedValue (c :: rest)

/-- The items up to the closing bracket. -/
def readItems : Nat → Nat → Bool → List Char → Except Failure (List Json × List Char)
  | 0, _, _, s => failHere .tooDeep s
  | fuel + 1, depth, first, s =>
    let next (s : List Char) : Except Failure (List Json × List Char) := do
      let (value, rest) ← readValue fuel depth s
      let (values, rest) ← readItems fuel depth false rest
      .ok (value :: values, rest)
    match skipSpace s with
    | [] => failAhead .endInList []
    | ']' :: rest => .ok ([], rest)
    | c :: rest =>
      if first then next (c :: rest)
      else if c = ',' then
        match skipSpace rest with
        | [] => failAhead .endInValue []
        | ']' :: tail => failAhead .trailingComma (']' :: tail)
        | tail => next tail
      else failAhead .expectedListEnd (c :: rest)

/-- The members up to the closing brace. -/
def readMembers : Nat → Nat → Bool → List Char → Except Failure (List (String × Json) × List Char)
  | 0, _, _, s => failHere .tooDeep s
  | fuel + 1, depth, first, s =>
    let next (s : List Char) : Except Failure (List (String × Json) × List Char) := do
      let (name, rest) ← readString (s.length + 1) s
      let rest ← match skipSpace rest with
        | [] => failAhead .endInObject []
        | ':' :: rest => .ok rest
        | rest => failAhead .expectedColon rest
      let (value, rest) ← readValue fuel depth rest
      let (members, rest) ← readMembers fuel depth false rest
      .ok ((.ofList name, value) :: members, rest)
    match skipSpace s with
    | [] => failAhead .endInObject []
    | '\x7d' :: rest => .ok ([], rest)
    | c :: rest =>
      if first then
        if c = '"' then next rest else failAhead .keyNotString (c :: rest)
      else if c = ',' then
        match skipSpace rest with
        | [] => failAhead .endInValue []
        | '"' :: tail => next tail
        | '\x7d' :: tail => failAhead .trailingComma ('\x7d' :: tail)
        | tail => failAhead .keyNotString tail
      else failAhead .expectedObjectEnd (c :: rest)

end

/-- A value between blanks. Each bracket, item and member takes at most three calls. -/
def readWhole (s : List Char) : Except Failure Json := do
  let (value, rest) ← readValue (3 * s.length + 3) 0 s
  match skipSpace rest with
  | [] => .ok value
  | rest => failAhead .trailingCharacters rest

structure Position where
  line : Nat
  column : Nat
  deriving DecidableEq, Repr

/-- The position so many bytes further on. -/
def Position.advance (p : Position) : Nat → List Char → Position
  | _, [] => p
  | bytes, c :: cs =>
    if bytes < c.utf8Size then { p with column := p.column + bytes }
    else if c = '\n' then advance ⟨p.line + 1, 0⟩ (bytes - 1) cs
    else advance { p with column := p.column + c.utf8Size } (bytes - c.utf8Size) cs

structure ReadError where
  trouble : Trouble
  position : Position
  deriving DecidableEq, Repr

def ReadError.message (e : ReadError) : String :=
  e.trouble.message ++ " at line " ++ .ofList (Number.digits e.position.line) ++ " column " ++
    .ofList (Number.digits e.position.column)

def read (s : String) : Except ReadError Json :=
  match readWhole s.toList with
  | .ok value => .ok value
  | .error failure =>
    let bytes := Chars.byteLength s.toList - Chars.byteLength failure.rest + failure.ahead
    .error ⟨failure.trouble, Position.advance ⟨1, 0⟩ bytes s.toList⟩

end PocketUnix.Json
