import PocketUnix.Proofs.Filter.ProgramAccess
import PocketUnix.Proofs.Numbers

/-!
# Programs that are written down

Items are written with a blank between any two, so that no name or number runs on into the next
one, and between braces behind the needle. Reading takes them back one by one.
-/

namespace PocketUnix.Filter.Awk

variable {item : Item} {items : List Item} {rest : List Char} {fuel : Nat}

/-- An item as it is written. -/
def Item.letters : Item → List Char
  | .field k => '$' :: Number.digits k
  | .lastField => ['$', 'N', 'F']
  | .literal s => '"' :: (s.toList ++ ['"'])
  | .gap => [',']
  | .recordNumber => ['N', 'R']
  | .fieldCount => ['N', 'F']

/-- The largest word is not a field by number, and a literal ends at a double quote. -/
def Item.Writable : Item → Prop
  | .field k => k < Number.wordLimit
  | .literal s => '"' ∉ s.toList
  | _ => True

def itemLetters (items : List Item) : List Char := [' '].intercalate (items.map Item.letters)

/-- What is printed, in braces. -/
def actionLetters (items : List Item) : List Char :=
  '{' :: ("print".toList ++ ([' '] ++ itemLetters items) ++ ['}'])

/-- A program as it is written. -/
def Program.written (p : Program) : String :=
  match p.needle with
  | none => .ofList (actionLetters p.items)
  | some needle => .ofList ('/' :: (needle.toList ++ ['/']) ++ ([' '] ++ actionLetters p.items))

/-- A needle ends at a slash, and something is to be printed. -/
structure Program.Writable (p : Program) : Prop where
  needle : ∀ needle ∈ p.needle, '/' ∉ needle.toList
  items : p.items ≠ []
  item : ∀ item ∈ p.items, item.Writable

theorem reference?_digits {k : Nat} (h : k < Number.wordLimit) :
    reference? (Number.digits k) = some (.field k) := by
  have hname : Number.digits k ≠ ['N', 'F'] := by
    intro hname
    exact (Number.decimal_digits k).not_mem (c := 'N') rfl (by rw [hname]; simp)
  rw [reference?, if_neg hname, Number.readChars?_digits (Nat.le_of_lt h), Option.map_some,
    if_neg (Nat.ne_of_lt h)]

theorem next?_quote (cs : List Char) :
    next? '"' cs = (Chars.cutWhere? (· == '"') cs).map fun parts =>
      ([.literal (.ofList parts.1)], parts.2) := rfl

theorem next?_dollar (cs : List Char) :
    next? '$' cs = (reference? (cs.takeWhile Char.isAlphanum)).map fun item =>
      ([item], cs.dropWhile Char.isAlphanum) := rfl

theorem next?_name (cs : List Char) :
    next? 'N' cs = (itemNamed? (('N' :: cs).takeWhile Char.isAlpha)).map fun item =>
      ([item], ('N' :: cs).dropWhile Char.isAlpha) := rfl

/-- An item is read back if it does not run on into what follows: behind a dollar sign and in a
name, letters are taken as far as they go. -/
theorem readItems?_item (h : item.Writable) (hrest : ∀ c ∈ rest.head?, c.isAlphanum = false) :
    readItems? (fuel + 1) (item.letters ++ rest) = (readItems? fuel rest).map (item :: ·) := by
  have hread : ∀ {c cs}, item.letters = c :: cs → next? c (cs ++ rest) = some ([item], rest) →
      readItems? (fuel + 1) (item.letters ++ rest) = (readItems? fuel rest).map (item :: ·) := by
    intro c cs hletters hnext
    rw [hletters, List.cons_append, readItems?_cons, hnext]
    rfl
  have halpha : ∀ c ∈ rest.head?, c.isAlpha = false := by
    intro c hc
    have hboth := hrest c hc
    rw [Char.isAlphanum, Bool.or_eq_false_iff] at hboth
    exact hboth.1
  have hdollar : ∀ {name}, (∀ c ∈ name, c.isAlphanum = true) → reference? name = some item →
      next? '$' (name ++ rest) = some ([item], rest) := by
    intro name hname hitem
    rw [next?_dollar, Chars.takeWhile_run hname hrest, Chars.dropWhile_run hname hrest, hitem]
    rfl
  have hnamed : ∀ {name}, (∀ c ∈ 'N' :: name, c.isAlpha = true) →
      itemNamed? ('N' :: name) = some item → next? 'N' (name ++ rest) = some ([item], rest) := by
    intro name hname hitem
    rw [next?_name, ← List.cons_append, Chars.takeWhile_run hname halpha,
      Chars.dropWhile_run hname halpha, hitem]
    rfl
  cases item with
  | field k =>
    refine hread rfl (hdollar (fun c hc => ?_) (reference?_digits h))
    rw [Char.isAlphanum, (Number.decimal_digits k).isDigit c hc, Bool.or_true]
  | lastField => exact hread rfl (hdollar (List.all_eq_true.mp rfl) rfl)
  | literal s =>
    refine hread rfl ?_
    rw [List.append_assoc, List.singleton_append, next?_quote, Chars.cutWhere?_letter h,
      Option.map_some, String.ofList_toList]
  | gap => exact hread rfl rfl
  | recordNumber => exact hread rfl (hnamed (List.all_eq_true.mp rfl) rfl)
  | fieldCount => exact hread rfl (hnamed (List.all_eq_true.mp rfl) rfl)

/-- No item begins or ends with a blank, so that none is lost when braces are trimmed. -/
theorem isTrimmed_letters (item : Item) : Chars.IsTrimmed item.letters := by
  cases item with
  | field k =>
    have hne := (Number.decimal_digits k).ne_nil
    have hlast := (Number.decimal_digits k).isDigit _ (List.getLast_mem hne)
    refine ⟨⟨'$', rfl, rfl⟩, (Number.digits k).getLast hne, ?_, Chars.isBlank_of_isDigit hlast⟩
    rw [Item.letters, List.getLast?_cons_of_ne_nil hne]
    exact List.getLast?_eq_some_getLast hne
  | lastField => exact ⟨⟨'$', rfl, rfl⟩, 'F', rfl, rfl⟩
  | literal s => exact ⟨⟨'"', rfl, rfl⟩, '"', List.getLast?_concat (l := '"' :: s.toList), rfl⟩
  | gap => exact ⟨⟨',', rfl, rfl⟩, ',', rfl, rfl⟩
  | recordNumber => exact ⟨⟨'N', rfl, rfl⟩, 'R', rfl, rfl⟩
  | fieldCount => exact ⟨⟨'N', rfl, rfl⟩, 'F', rfl, rfl⟩

theorem isTrimmed_itemLetters (h : items ≠ []) : Chars.IsTrimmed (itemLetters items) := by
  refine Chars.IsTrimmed.intercalate (by simpa using h) fun part hpart => ?_
  obtain ⟨item, -, rfl⟩ := List.mem_map.mp hpart
  exact isTrimmed_letters item

theorem readItems?_nil (fuel : Nat) : readItems? fuel [] = some [] := by
  cases fuel <;> rfl

/-- The blank between two items takes a turn of its own. -/
theorem readItems?_blank (fuel : Nat) (cs : List Char) :
    readItems? (fuel + 1) (' ' :: cs) = readItems? fuel cs := rfl

/-- Items are read back one after the other, with a blank between any two. -/
theorem readItems?_itemLetters (h : ∀ item ∈ items, item.Writable)
    (hfuel : (itemLetters items).length ≤ fuel) :
    readItems? fuel (itemLetters items) = some items := by
  induction items generalizing fuel with
  | nil => exact readItems?_nil fuel
  | cons item others ih =>
    obtain ⟨hitem, hothers⟩ := List.forall_mem_cons.mp h
    have hletter : 0 < item.letters.length :=
      List.length_pos_of_ne_nil (isTrimmed_letters item).ne_nil
    cases others with
    | nil =>
      have htext : itemLetters [item] = item.letters ++ [] := by simp [itemLetters]
      rw [htext, List.append_nil] at hfuel
      obtain ⟨fuel, rfl⟩ : ∃ k, fuel = k + 1 := ⟨fuel - 1, by omega⟩
      rw [htext, readItems?_item hitem (by simp), readItems?_nil]
      rfl
    | cons next others =>
      have htext : itemLetters (item :: next :: others) =
          item.letters ++ ' ' :: itemLetters (next :: others) := by
        rw [itemLetters, List.map_cons, List.map_cons, List.intercalate_cons_cons,
          List.append_assoc]
        rfl
      rw [htext, List.length_append, List.length_cons] at hfuel
      obtain ⟨fuel, rfl⟩ : ∃ k, fuel = k + 2 := ⟨fuel - 2, by omega⟩
      rw [htext, readItems?_item hitem (by rintro c ⟨⟩; rfl), readItems?_blank,
        ih hothers (by omega)]
      rfl

theorem isTrimmed_actionLetters (items : List Item) : Chars.IsTrimmed (actionLetters items) :=
  ⟨⟨'{', rfl, rfl⟩, '}', List.getLast?_concat (l := '{' :: _), rfl⟩

/-- Braces are taken off again, with the blanks in them. -/
theorem readAction?_actionLetters (hne : items ≠ []) (h : ∀ item ∈ items, item.Writable) :
    readAction? (actionLetters items) = some items := by
  have hargs := isTrimmed_itemLetters hne
  have hprint : Chars.IsTrimmed "print".toList := ⟨⟨'p', rfl, rfl⟩, 't', rfl, rfl⟩
  have hinner := hprint.append hargs [' ']
  have hbody : printed? (actionLetters items) = some (itemLetters items) := by
    have hopen : ['{'].isPrefixOf? (actionLetters items) =
        some ("print".toList ++ ([' '] ++ itemLetters items) ++ ['}']) := rfl
    have hverb : "print".toList.isPrefixOf? ("print".toList ++ ([' '] ++ itemLetters items)) =
        some (' ' :: itemLetters items) := List.isPrefixOf?_eq_some_iff_append_eq.mpr rfl
    simp only [printed?, hopen, Chars.stripEnd?_append, hinner.trim_eq, hverb,
      Chars.trim_cons (c := ' ') rfl, hargs.trim_eq, Option.bind_eq_bind, Option.bind_some]
  have hempty : (actionLetters items).isEmpty = false := rfl
  have hitems : (itemLetters items).isEmpty = false := List.isEmpty_eq_false_iff.mpr hargs.ne_nil
  rw [readAction?_eq, hempty, hbody, if_neg Bool.false_ne_true, Option.bind_some, hitems,
    if_neg Bool.false_ne_true]
  exact readItems?_itemLetters h (Nat.le_refl _)

/-- A program is read back, with its needle or without one, for its braces do not begin with a
slash. -/
theorem Program.Writable.read {p : Program} (h : p.Writable) : read? p.written = some p := by
  obtain ⟨needle, items⟩ := p
  have hitems := readAction?_actionLetters h.items h.item
  have haction := isTrimmed_actionLetters items
  cases needle with
  | none =>
    rw [read?, written, String.toList_ofList, haction.trim_eq]
    change (readAction? (actionLetters items)).map (Program.mk none) = some ⟨none, items⟩
    rw [hitems]
    rfl
  | some needle =>
    have hquoted : Chars.IsTrimmed ('/' :: (needle.toList ++ ['/'])) :=
      ⟨⟨'/', rfl, rfl⟩, '/', List.getLast?_concat (l := '/' :: needle.toList), rfl⟩
    have hcut : Chars.cutWhere? (· == '/')
        (needle.toList ++ ['/'] ++ ([' '] ++ actionLetters items)) =
          some (needle.toList, ' ' :: actionLetters items) := by
      rw [List.append_assoc]
      exact Chars.cutWhere?_letter (h.needle needle rfl) _
    have htrim := (hquoted.append haction [' ']).trim_eq
    rw [read?, written, String.toList_ofList, htrim, List.cons_append]
    simp only [hcut, Option.bind_eq_bind, Option.bind_some, Chars.trim_cons (c := ' ') rfl,
      haction.trim_eq, hitems, String.ofList_toList]

/-- A program that has been written is read back, whatever its needle and its literals hold. And
any text at all is read to its end, without a look behind it. -/
theorem Program.read_written :
    (∀ p : Program, p.Writable → read? p.written = some p) ∧
      ∀ s : String, Checked.read s = some (read? s) :=
  ⟨fun _ h => h.read, Checked.read_eq⟩

/-- Braces, slashes, dollar signs and blanks in a needle or a literal are letters like others. -/
theorem Program.read_written_braces :
    written ⟨some " \x7b$", [.literal "\x7d / ", .gap, .field 2, .lastField, .fieldCount]⟩ =
        "/ \x7b$/ \x7bprint \"\x7d / \" , $2 $NF NF\x7d" ∧
      read? "/ \x7b$/ \x7bprint \"\x7d / \" , $2 $NF NF\x7d" =
        some ⟨some " \x7b$", [.literal "\x7d / ", .gap, .field 2, .lastField, .fieldCount]⟩ := by
  have hwritten : written
      ⟨some " \x7b$", [.literal "\x7d / ", .gap, .field 2, .lastField, .fieldCount]⟩ =
        "/ \x7b$/ \x7bprint \"\x7d / \" , $2 $NF NF\x7d" := by decide
  refine ⟨hwritten, ?_⟩
  rw [← hwritten]
  exact read_written.1 _ ⟨by simp, by simp, by simp [Item.Writable, Number.wordLimit]⟩

end PocketUnix.Filter.Awk
