import PocketUnix.Proofs.Filter.Hunks
import PocketUnix.Proofs.Numbers
import PocketUnix.Proofs.Plan
import PocketUnix.Proofs.Text.Pieces

/-!
# The normal format

A reader of the normal format that knows nothing of hunks: a header line names lines of both sides
by their numbers, and what follows it up to the next header is marked with its side. The lines that
are printed for hunks are read back, number by number and block by block.
-/

namespace PocketUnix.Filter

namespace NormalFormat

/-- The numbers of the first and the last of some lines, counted from one. -/
structure Range where
  first : Nat
  last : Nat
  deriving DecidableEq, Repr

inductive Kind where
  | append
  | change
  | delete
  deriving DecidableEq, Repr

structure Header where
  left : Range
  kind : Kind
  right : Range
  deriving DecidableEq, Repr

/-- A header with the lines that stand behind it, without their marks. -/
structure Change extends Header where
  deleted : List String
  inserted : List String
  deriving DecidableEq, Repr

/-- The number in front, and what follows it. -/
def readNumber? (s : List Char) : Option (Nat × List Char) :=
  let digits := s.takeWhile Char.isDigit
  if digits.isEmpty then none else some (Number.ofDigits digits, s.dropWhile Char.isDigit)

/-- The range in front, one number or two with a comma, and what follows it. -/
def readRange? (s : List Char) : Option (Range × List Char) :=
  match readNumber? s with
  | none => none
  | some (first, ',' :: rest) =>
    (readNumber? rest).map fun (last, rest) => (⟨first, last⟩, rest)
  | some (first, rest) => some (⟨first, first⟩, rest)

def Kind.letter : Kind → Char
  | .append => 'a'
  | .change => 'c'
  | .delete => 'd'

def readKind? : List Char → Option (Kind × List Char)
  | 'a' :: rest => some (.append, rest)
  | 'c' :: rest => some (.change, rest)
  | 'd' :: rest => some (.delete, rest)
  | _ => none

def readHeader? (line : String) : Option Header := do
  let (left, rest) ← readRange? line.toList
  let (kind, rest) ← readKind? rest
  let (right, rest) ← readRange? rest
  if rest.isEmpty then return ⟨left, kind, right⟩ else none

/-- The lines without their marks. -/
def unmark? (mark : String) (lines : List String) : Option (List String) :=
  lines.mapM (Text.stripStart? mark)

/-- The lines behind a header, all of them marked as its kind has them. -/
def readBody? (kind : Kind) (body : List String) : Option (List String × List String) :=
  match kind with
  | .append => (unmark? "> " body).map fun inserted => ([], inserted)
  | .delete => (unmark? "< " body).map fun deleted => (deleted, [])
  | .change =>
    match body.dropWhile (· != "---") with
    | [] => none
    | _ :: right => do
      let deleted ← unmark? "< " (body.takeWhile (· != "---"))
      let inserted ← unmark? "> " right
      return (deleted, inserted)

/-- The lines in front of the first header, and the change at each header. A header takes what has
gathered behind it. -/
def readLines? : List String → Option (List String × List Change)
  | [] => some ([], [])
  | line :: rest => do
    let (front, changes) ← readLines? rest
    match readHeader? line with
    | none => return (line :: front, changes)
    | some header =>
      let (deleted, inserted) ← readBody? header.kind front
      return ([], ⟨header, deleted, inserted⟩ :: changes)

def read? (text : String) : Option (List Change) :=
  if text = "" then some []
  else do
    let (front, changes) ← readLines? (Text.splitOn text '\n')
    if front.isEmpty then return changes else none

end NormalFormat

open NormalFormat

/-- The lines on one side of a hunk, or else the last one in front of it. -/
def rangeOf (before : Nat) (lines : List String) : Range :=
  if lines.isEmpty then ⟨before, before⟩ else ⟨before + 1, before + lines.length⟩

def Hunk.kind (h : Hunk) : Kind :=
  if h.deleted.isEmpty then .append else if h.inserted.isEmpty then .delete else .change

def Hunk.change (h : Hunk) : Change where
  left := rangeOf h.leftBefore h.deleted
  kind := h.kind
  right := rangeOf h.rightBefore h.inserted
  deleted := h.deleted
  inserted := h.inserted

/-- What is printed of one side in a header. -/
def rangeTextOf (before : Nat) (lines : List String) : String :=
  if lines.isEmpty then s!"{before}" else rangeText before lines.length

/-- A range ends in front of these characters. -/
def EndsRange (rest : List Char) : Prop := ∀ c ∈ rest.head?, c.isDigit = false ∧ c ≠ ','

theorem endsRange_nil : EndsRange [] := by
  intro c hc
  cases hc

theorem endsRange_letter (kind : Kind) (rest : List Char) : EndsRange (kind.letter :: rest) := by
  rintro c ⟨⟩
  cases kind <;> decide

/-- A number is read back up to the first letter that is no digit. -/
theorem readNumber?_toDigits (n : Nat) {rest : List Char}
    (hrest : rest.takeWhile Char.isDigit = []) :
    readNumber? (Nat.toDigits 10 n ++ rest) = some (n, rest) := by
  have hdigits : ∀ c ∈ Nat.toDigits 10 n, c.isDigit = true := (Number.decimal_digits n).isDigit
  have hdrop : rest.dropWhile Char.isDigit = rest := by
    have hcut := List.takeWhile_append_dropWhile (p := Char.isDigit) (l := rest)
    rwa [hrest, List.nil_append] at hcut
  have hread : Number.ofDigits (Nat.toDigits 10 n) = n := (Number.decimal_digits n).value
  simp [readNumber?, List.takeWhile_append_of_pos hdigits, List.dropWhile_append_of_pos hdigits,
    hrest, hdrop, hread]

theorem EndsRange.takeWhile {rest : List Char} (h : EndsRange rest) :
    rest.takeWhile Char.isDigit = [] := by
  cases rest with
  | nil => rfl
  | cons c rest => simp [(h c rfl).1]

/-- A number without a comma behind it is a range of one line. -/
theorem readRange?_one (n : Nat) {rest : List Char} (h : EndsRange rest) :
    readRange? (Nat.toDigits 10 n ++ rest) = some (⟨n, n⟩, rest) := by
  unfold readRange?
  rw [readNumber?_toDigits n h.takeWhile]
  cases rest with
  | nil => rfl
  | cons c rest =>
    have hcomma : c ≠ ',' := (h c rfl).2
    simp [hcomma]

theorem readRange?_two (n m : Nat) {rest : List Char} (h : EndsRange rest) :
    readRange? (Nat.toDigits 10 n ++ ',' :: (Nat.toDigits 10 m ++ rest)) = some (⟨n, m⟩, rest) := by
  unfold readRange?
  rw [readNumber?_toDigits n rfl]
  simp [readNumber?_toDigits m h.takeWhile]

/-- The range of a block is read back, whether it is one line, several, or none. -/
theorem readRange?_rangeTextOf (before : Nat) (lines : List String) {rest : List Char}
    (h : EndsRange rest) :
    readRange? ((rangeTextOf before lines).toList ++ rest) = some (rangeOf before lines, rest) := by
  unfold rangeTextOf rangeOf
  split
  · have htext : (s!"{before}").toList = Nat.toDigits 10 before := by simp
    rw [htext]
    exact readRange?_one before h
  · unfold rangeText
    split
    · next hone =>
      have htext : (s!"{before + 1}").toList = Nat.toDigits 10 (before + 1) := by simp
      rw [htext, hone]
      exact readRange?_one (before + 1) h
    · simpa [toString] using readRange?_two (before + 1) (before + lines.length) h

theorem readKind?_letter (kind : Kind) (rest : List Char) :
    readKind? (kind.letter :: rest) = some (kind, rest) := by
  cases kind <;> rfl

/-- What is printed in front of a hunk is the range on the left, its kind, and the range on the
right. -/
theorem Hunk.toList_header {h : Hunk} (hproper : h.Proper) :
    h.header.toList = (rangeTextOf h.leftBefore h.deleted).toList ++
      h.kind.letter :: (rangeTextOf h.rightBefore h.inserted).toList := by
  obtain ⟨left, right, deleted, inserted⟩ := h
  cases deleted with
  | nil =>
    cases inserted with
    | nil => cases hproper <;> contradiction
    | cons y inserted => simp [Hunk.header, Hunk.kind, rangeTextOf, Kind.letter, toString]
  | cons x deleted =>
    cases inserted with
    | nil => simp [Hunk.header, Hunk.kind, rangeTextOf, Kind.letter, toString]
    | cons y inserted => simp [Hunk.header, Hunk.kind, rangeTextOf, Kind.letter]

/-- Every header is read back. -/
theorem readHeader?_header {h : Hunk} (hproper : h.Proper) :
    readHeader? h.header = some h.change.toHeader := by
  have hleft := readRange?_rangeTextOf h.leftBefore h.deleted
    (endsRange_letter h.kind (rangeTextOf h.rightBefore h.inserted).toList)
  have hright := readRange?_rangeTextOf h.rightBefore h.inserted endsRange_nil
  rw [List.append_nil] at hright
  simp [readHeader?, Hunk.toList_header hproper, hleft, readKind?_letter, hright]
  rfl

/-- What is printed behind the header. -/
def Hunk.body (h : Hunk) : List String :=
  h.deleted.map ("< " ++ ·) ++ (if h.deleted.isEmpty || h.inserted.isEmpty then [] else ["---"]) ++
    h.inserted.map ("> " ++ ·)

theorem Hunk.lines_eq (h : Hunk) : h.lines = h.header :: h.body := by
  simp [Hunk.lines, Hunk.body]

theorem stripStart?_append (mark line : String) :
    Text.stripStart? mark (mark ++ line) = some line := by
  have hchars (front rest : List Char) : front.isPrefixOf? (front ++ rest) = some rest :=
    List.isPrefixOf?_eq_some_iff_append_eq.mpr rfl
  simp [Text.stripStart?, hchars]

theorem unmark?_map (mark : String) (lines : List String) :
    unmark? mark (lines.map (mark ++ ·)) = some lines := by
  have hread := Plan.mapM_eq_some_map (l := lines) fun line _ => stripStart?_append mark line
  rw [List.map_id'] at hread
  rw [unmark?, List.mapM_map]
  exact hread

theorem deleted_ne_separator (line : String) : "< " ++ line ≠ "---" := by
  intro heq
  have hchars := congrArg String.toList heq
  simp at hchars

/-- The blocks are read back, each by its mark and, if there are two, up to the line between them.
-/
theorem readBody?_body (h : Hunk) :
    readBody? h.kind h.body = some (h.deleted, h.inserted) := by
  obtain ⟨left, right, deleted, inserted⟩ := h
  by_cases hdeleted : deleted = []
  · simp [Hunk.kind, Hunk.body, readBody?, hdeleted, unmark?_map]
  · by_cases hinserted : inserted = []
    · simp [Hunk.kind, Hunk.body, readBody?, hdeleted, hinserted, unmark?_map]
    · have hmarked : ∀ line ∈ deleted.map ("< " ++ ·), (line != "---") = true := by
        intro line hline
        obtain ⟨text, -, rfl⟩ := List.mem_map.mp hline
        exact bne_iff_ne.mpr (deleted_ne_separator text)
      have htake (rest : List String) :
          (deleted.map ("< " ++ ·) ++ rest).takeWhile (· != "---") =
            deleted.map ("< " ++ ·) ++ rest.takeWhile (· != "---") :=
        List.takeWhile_append_of_pos hmarked
      have hdrop (rest : List String) :
          (deleted.map ("< " ++ ·) ++ rest).dropWhile (· != "---") = rest.dropWhile (· != "---") :=
        List.dropWhile_append_of_pos hmarked
      simp [Hunk.kind, Hunk.body, readBody?, hdeleted, hinserted, htake, hdrop, unmark?_map]

/-- What begins with no digit is no header. -/
theorem readHeader?_eq_none {line : String} (h : line.toList.takeWhile Char.isDigit = []) :
    readHeader? line = none := by
  simp [readHeader?, readRange?, readNumber?, h]

/-- No line behind a header is taken for one, since marks are no digits. -/
theorem Hunk.readHeader?_of_mem_body {h : Hunk} {line : String} (hline : line ∈ h.body) :
    readHeader? line = none := by
  simp only [Hunk.body, List.mem_append, List.mem_map] at hline
  apply readHeader?_eq_none
  rcases hline with (⟨text, -, rfl⟩ | hseparator) | ⟨text, -, rfl⟩
  · simp
  · split at hseparator
    · cases hseparator
    · rw [List.mem_singleton.mp hseparator]
      rfl
  · simp

theorem readLines?_body {body rest : List String} {changes : List Change}
    (hbody : ∀ line ∈ body, readHeader? line = none)
    (hrest : readLines? rest = some ([], changes)) :
    readLines? (body ++ rest) = some (body, changes) := by
  induction body with
  | nil => exact hrest
  | cons line body ih =>
    obtain ⟨hline, hbody⟩ := List.forall_mem_cons.mp hbody
    simp [readLines?, ih hbody, hline]

/-- All hunks are read back, each with the lines up to the next header. -/
theorem readLines?_hunks {hs : List Hunk} (h : ∀ hunk ∈ hs, hunk.Proper) :
    readLines? (hs.flatMap Hunk.lines) = some ([], hs.map Hunk.change) := by
  induction hs with
  | nil => rfl
  | cons hunk hs ih =>
    obtain ⟨hproper, hrest⟩ := List.forall_mem_cons.mp h
    have hbody := readLines?_body (fun _ => hunk.readHeader?_of_mem_body) (ih hrest)
    have hread : readBody? hunk.change.kind hunk.body = some (hunk.deleted, hunk.inserted) :=
      readBody?_body hunk
    rw [List.flatMap_cons, Hunk.lines_eq, List.cons_append]
    simp only [readLines?, hbody, readHeader?_header hproper, hread, Option.bind_eq_bind,
      Option.bind_some]
    rfl

/-- No line holds a newline. -/
def Plain (lines : List String) : Prop := ∀ line ∈ lines, '\n' ∉ line.toList

instance (lines : List String) : Decidable (Plain lines) :=
  inferInstanceAs (Decidable (∀ line ∈ lines, '\n' ∉ line.toList))

theorem splitOn_joinLines {lines : List String} (h : Plain lines) (hne : lines ≠ []) :
    Text.splitOn (Text.joinLines lines) '\n' = lines :=
  Text.splitOn_intercalate h hne

theorem newline_not_mem_toDigits (n : Nat) : '\n' ∉ Nat.toDigits 10 n :=
  (Number.decimal_digits n).not_mem rfl

theorem newline_not_mem_rangeTextOf (before : Nat) (lines : List String) :
    '\n' ∉ (rangeTextOf before lines).toList := by
  unfold rangeTextOf
  split
  · simp [newline_not_mem_toDigits]
  · unfold rangeText
    split <;> simp [newline_not_mem_toDigits, toString]

theorem newline_not_mem_header {h : Hunk} (hproper : h.Proper) : '\n' ∉ h.header.toList := by
  have hletter : '\n' ≠ h.kind.letter := by
    cases h.kind <;> decide
  simp [Hunk.toList_header hproper, newline_not_mem_rangeTextOf, hletter]

/-- What is printed for the hunk can be read. -/
structure Hunk.Readable (h : Hunk) : Prop where
  proper : h.Proper
  deleted : Plain h.deleted
  inserted : Plain h.inserted

/-- Headers are made of digits and letters, so that no line that is printed holds a newline if no
line of the blocks does. -/
theorem Hunk.Readable.plain_lines {h : Hunk} (hread : h.Readable) : Plain h.lines := by
  rw [Hunk.lines_eq]
  intro line hline
  rcases List.mem_cons.mp hline with rfl | hline
  · exact newline_not_mem_header hread.proper
  · simp only [Hunk.body, List.mem_append, List.mem_map] at hline
    rcases hline with (⟨text, htext, rfl⟩ | hseparator) | ⟨text, htext, rfl⟩
    · simpa using hread.deleted text htext
    · split at hseparator
      · cases hseparator
      · rw [List.mem_singleton.mp hseparator]
        decide
    · simpa using hread.inserted text htext

theorem plain_flatMap_lines {hs : List Hunk} (h : ∀ hunk ∈ hs, hunk.Readable) :
    Plain (hs.flatMap Hunk.lines) := by
  intro line hline
  obtain ⟨hunk, hmem, hline⟩ := List.mem_flatMap.mp hline
  exact (h hunk hmem).plain_lines line hline

/-- The text of hunks is read back. -/
theorem read?_hunks {hs : List Hunk} (h : ∀ hunk ∈ hs, hunk.Readable) :
    read? (Text.joinLines (hs.flatMap Hunk.lines)) = some (hs.map Hunk.change) := by
  have hread := readLines?_hunks fun hunk hmem => (h hunk hmem).proper
  cases hs with
  | nil => rfl
  | cons hunk hs =>
    have hne : (hunk :: hs).flatMap Hunk.lines ≠ [] := by simp [Hunk.lines_eq]
    have hsplit := splitOn_joinLines (plain_flatMap_lines h) hne
    -- The empty text has the empty line, which no header is.
    have htext : Text.joinLines ((hunk :: hs).flatMap Hunk.lines) ≠ "" := by
      intro hempty
      rw [hempty] at hsplit
      rw [← hsplit] at hread
      cases hread
    rw [read?, if_neg htext, hsplit, hread]
    rfl

end PocketUnix.Filter
