import PocketUnix.Command.Reading
import PocketUnix.Proofs.Numbers
import PocketUnix.Proofs.Plan
import PocketUnix.Proofs.Sample
import PocketUnix.Proofs.Text.Ends
import PocketUnix.Proofs.Text.Pieces

/-!
# Ways into a value

A filter is read in segments with a dot in front of each: a key, if there is one, and indexes in
brackets. What is read leads from a value to one inside it, and to null where there is none.
-/

namespace PocketUnix.Json

/-- What a filter makes of a value, if it is one. -/
def at? (value : Json) (filter : String) : Option Json := (Filter.read? filter).map value.select

/-- What a value holds at a step: an object a member and an array an item. -/
inductive Holds : Json → Step → Json → Prop
  | member {members : List (String × Json)} {name : String} {inner : Json}
    (h : Table.get? name members = some inner) : Holds (.object members) (.member name) inner
  | item {items : List Json} {index : Nat} {inner : Json} (h : items[index]? = some inner) :
    Holds (.array items) (.item index) inner

/-- Steps lead from a value to what it holds, and to null where it holds nothing. -/
inductive LeadsTo : Json → List Step → Json → Prop
  | here (value : Json) : LeadsTo value [] value
  | inside {value inner result : Json} {step : Step} {steps : List Step}
    (h : Holds value step inner) (hrest : LeadsTo inner steps result) :
    LeadsTo value (step :: steps) result
  | outside {value result : Json} {step : Step} {steps : List Step}
    (h : ∀ inner, ¬Holds value step inner) (hrest : LeadsTo null steps result) :
    LeadsTo value (step :: steps) result

/-- A segment: its key, its indexes as they are written and as numbers, and what stands behind the
last bracket. -/
structure Segment where
  key : List Char
  indexes : List (List Char × Nat)
  behind : List Char

def bracketed (index : List Char × Nat) : List Char := '[' :: index.1 ++ [']']

namespace Segment

def letters (s : Segment) : List Char := s.key ++ (s.indexes.flatMap bracketed ++ s.behind)

/-- Without a key there is no step but for the indexes. -/
def steps (s : Segment) : List Step :=
  (if s.key = [] then [] else [.member (.ofList s.key)]) ++ s.indexes.map fun i => .item i.2

/-- A key has neither dots nor opening brackets, and an index is a number of a word. Something can
stand behind brackets only, and does not begin with another one. -/
structure WellFormed (s : Segment) : Prop where
  dot_key : '.' ∉ s.key
  bracket_key : '[' ∉ s.key
  indexes : ∀ index ∈ s.indexes, Number.Numeral Number.wordLimit index.1 index.2
  dot_behind : '.' ∉ s.behind
  bracket_behind : '[' ∉ s.behind.head?
  behind : s.indexes = [] → s.behind = []

end Segment

/-- A filter is written in segments, with a dot in front of each. -/
structure Spells (segments : List Segment) (filter : String) : Prop where
  ne_nil : segments ≠ []
  wellFormed : ∀ s ∈ segments, s.WellFormed
  letters : filter.toList = segments.flatMap fun s => '.' :: s.letters

/-- A plain segment has a key or an index, its indexes have digits only, and nothing stands behind
its brackets. -/
structure Segment.Plain (s : Segment) : Prop where
  dot_key : '.' ∉ s.key
  bracket_key : '[' ∉ s.key
  indexes : ∀ index ∈ s.indexes, index.1 ≠ [] ∧ ∀ c ∈ index.1, c.isDigit = true
  behind : s.behind = []
  ne_nil : s.key ≠ [] ∨ s.indexes ≠ []

/-- A dot, or plain segments with a dot in front of each. -/
def IsPath (filter : String) : Prop :=
  filter = "." ∨ ∃ segments : List Segment, segments ≠ [] ∧ (∀ s ∈ segments, s.Plain) ∧
    filter.toList = segments.flatMap fun s => '.' :: s.letters

/-- A call of `jq` with a filter, whose input is a value. -/
structure Applies (c : Call) (m : Machine) (filter : String) (value : Json) : Prop where
  filter : ((c.options "").operand? 0).getD "." = filter
  input : ∃ text, c.readInput m ((c.options "").operand? 1) = .ok text ∧
    Text.isBlank text = false ∧ Json.read text = .ok value

variable {value inner result : Json} {s : Step} {steps : List Step} {segments : List Segment}
  {text letters behind : List Char} {indexes : List (List Char × Nat)} {fuel : Nat}
  {filter : String}

theorem Holds.step_eq (h : Holds value s inner) : step value s = inner := by
  cases h with
  | member h => simp [step, Json.member, h]
  | item h => simp [step, Json.item, h]

/-- Where a value holds nothing, a step leads to null. -/
theorem step_eq_null (h : ∀ inner, ¬Holds value s inner) : step value s = null := by
  cases s with
  | member name =>
    cases value
    case object members =>
      cases hget : Table.get? name members with
      | none => simp [step, Json.member, hget]
      | some inner => exact absurd (.member hget) (h inner)
    all_goals rfl
  | item index =>
    cases value
    case array items =>
      cases hget : items[index]? with
      | none => simp [step, Json.item, hget]
      | some inner => exact absurd (.item hget) (h inner)
    all_goals rfl

/-- The steps of a filter lead where it says. -/
theorem leadsTo_select (value : Json) (steps : List Step) :
    LeadsTo value steps (value.select steps) := by
  induction steps generalizing value with
  | nil => exact .here value
  | cons s steps ih =>
    by_cases h : ∃ inner, Holds value s inner
    · obtain ⟨inner, h⟩ := h
      refine .inside h ?_
      rw [select, List.foldl_cons, h.step_eq]
      exact ih inner
    · have hnone := not_exists.mp h
      refine .outside hnone ?_
      rw [select, List.foldl_cons, step_eq_null hnone]
      exact ih null

/-- Indexes are read one by one, up to what does not begin with a bracket. -/
theorem readIndexes?_brackets
    (h : ∀ index ∈ indexes, Number.Numeral Number.wordLimit index.1 index.2)
    (hbehind : '[' ∉ behind.head?) (hfuel : (indexes.flatMap bracketed ++ behind).length ≤ fuel) :
    readIndexes? fuel (indexes.flatMap bracketed ++ behind) =
      some (indexes.map fun i => .item i.2) := by
  induction indexes generalizing fuel with
  | nil =>
    rw [List.flatMap_nil, List.nil_append, List.map_nil]
    unfold readIndexes?
    split
    · simp at hbehind
    · rfl
  | cons index indexes ih =>
    obtain ⟨hindex, hrest⟩ := List.forall_mem_cons.mp h
    have hletters : (index :: indexes).flatMap bracketed ++ behind =
        '[' :: (index.1 ++ ']' :: (indexes.flatMap bracketed ++ behind)) := by
      simp [bracketed]
    have hcut :
        Chars.cutWhere? (· == ']') (index.1 ++ ']' :: (indexes.flatMap bracketed ++ behind)) =
          some (index.1, indexes.flatMap bracketed ++ behind) :=
      Chars.cutWhere?_letter (hindex.not_mem (by decide) (by decide)) _
    rw [hletters] at hfuel ⊢
    cases fuel with
    | zero => cases hfuel
    | succ fuel =>
      have hshorter : (indexes.flatMap bracketed ++ behind).length ≤ fuel := by
        rw [List.length_cons, List.length_append, List.length_cons] at hfuel
        omega
      rw [readIndexes?, hcut]
      simp [Number.readChars?_eq_some_iff.mpr hindex, ih hrest hshorter]

/-- Whatever is read as indexes is written as indexes. -/
theorem exists_brackets (h : readIndexes? fuel text = some steps) (hfuel : text.length ≤ fuel) :
    ∃ (indexes : List (List Char × Nat)) (behind : List Char),
      text = indexes.flatMap bracketed ++ behind ∧
      (∀ index ∈ indexes, Number.Numeral Number.wordLimit index.1 index.2) ∧
      '[' ∉ behind.head? := by
  induction fuel generalizing text steps with
  | zero =>
    obtain rfl := List.eq_nil_of_length_eq_zero (Nat.le_zero.mp hfuel)
    exact ⟨[], [], rfl, by simp, by simp⟩
  | succ fuel ih =>
    by_cases hbracket : '[' ∈ text.head?
    · obtain ⟨rest, rfl⟩ : ∃ rest, text = '[' :: rest := ⟨_, List.eq_cons_of_mem_head? hbracket⟩
      rw [readIndexes?] at h
      obtain ⟨⟨number, tail⟩, hcut, h⟩ := Option.bind_eq_some_iff.mp h
      obtain ⟨index, hindex, h⟩ := Option.bind_eq_some_iff.mp h
      obtain ⟨later, hlater, -⟩ := Option.bind_eq_some_iff.mp h
      obtain ⟨c, hc, -, rfl⟩ := Chars.cutWhere?_eq_some hcut
      obtain rfl : c = ']' := by simpa using hc
      have hshorter : tail.length ≤ fuel := by
        simp only [List.length_cons, List.length_append] at hfuel
        omega
      obtain ⟨indexes, behind, rfl, hall, hbehind⟩ := ih hlater hshorter
      refine ⟨(number, index) :: indexes, behind, by simp [bracketed], ?_, hbehind⟩
      exact List.forall_mem_cons.mpr ⟨Number.readChars?_eq_some_iff.mp hindex, hall⟩
    · exact ⟨[], text, rfl, by simp, hbracket⟩

/-- A key ends in front of a bracket or at the end of its segment. -/
theorem Segment.WellFormed.head_eq {s : Segment} (h : s.WellFormed) :
    ∀ c ∈ (s.indexes.flatMap bracketed ++ s.behind).head?, c = '[' := by
  intro c hc
  cases hindexes : s.indexes with
  | nil =>
    rw [hindexes, h.behind hindexes] at hc
    cases hc
  | cons index indexes =>
    rw [hindexes] at hc
    simpa [bracketed, eq_comm] using hc

/-- A segment is read as the steps that it says. -/
theorem Segment.WellFormed.readSegment? {s : Segment} (h : s.WellFormed) :
    readSegment? s.letters = some s.steps := by
  have hkey : ∀ c ∈ s.key, (c != '[') = true := fun c hc => by
    simpa using fun he : c = '[' => h.bracket_key (he ▸ hc)
  have hend : ∀ c ∈ (s.indexes.flatMap bracketed ++ s.behind).head?, (c != '[') = false :=
    fun c hc => by simp [h.head_eq c hc]
  have hfuel : (s.indexes.flatMap bracketed ++ s.behind).length ≤ s.letters.length := by
    simp only [Segment.letters, List.length_append]
    omega
  have hindexes := readIndexes?_brackets h.indexes h.bracket_behind hfuel
  unfold Json.readSegment?
  rw [Segment.letters] at hindexes ⊢
  rw [Chars.takeWhile_run hkey hend, Chars.dropWhile_run hkey hend, hindexes, Segment.steps]
  cases hempty : s.key with
  | nil => rfl
  | cons c key => rfl

/-- No dot stands within a segment, so that segments are told apart by their dots. -/
theorem Segment.WellFormed.dot_not_mem {s : Segment} (h : s.WellFormed) : '.' ∉ s.letters := by
  have hbrackets : '.' ∉ s.indexes.flatMap bracketed := by
    intro hmem
    obtain ⟨index, hindex, hdot⟩ := List.mem_flatMap.mp hmem
    have hnumber : '.' ∉ index.1 := (h.indexes index hindex).not_mem (by decide) (by decide)
    simp [bracketed, hnumber] at hdot
  rw [Segment.letters, List.mem_append, List.mem_append]
  rintro (hkey | hindexes | hbehind)
  · exact h.dot_key hkey
  · exact hbrackets hindexes
  · exact h.dot_behind hbehind

/-- Whatever is read as a segment is written as one. The key ends at the first bracket, and what is
left over stands behind the last one. -/
theorem exists_segment (hdot : '.' ∉ text) (h : readSegment? text = some steps) :
    ∃ s : Segment, s.WellFormed ∧ s.letters = text := by
  obtain ⟨read, hread, -⟩ := Option.bind_eq_some_iff.mp h
  have hparts := List.takeWhile_append_dropWhile (p := (· != '[')) (l := text)
  have hlength : (text.dropWhile (· != '[')).length ≤ text.length := List.length_dropWhile_le _ _
  obtain ⟨indexes, behind, hrest, hindexes, hbehind⟩ := exists_brackets hread hlength
  rw [hrest] at hparts
  have hdots := hdot
  rw [← hparts, List.mem_append, List.mem_append, not_or, not_or] at hdots
  refine ⟨⟨text.takeWhile (· != '['), indexes, behind⟩, ?_, hparts⟩
  refine ⟨hdots.1, fun hmem => ?_, hindexes, hdots.2.2, hbehind, fun hnone => ?_⟩
  · have hne := List.mem_takeWhile_imp hmem
    simp at hne
  · obtain rfl : indexes = [] := hnone
    rw [List.flatMap_nil, List.nil_append] at hrest
    cases behind with
    | nil => rfl
    | cons c behind =>
      have hhead := List.head?_dropWhile_not (· != '[') text
      rw [hrest] at hhead
      obtain rfl : c = '[' := by simpa using hhead
      exact absurd rfl hbehind

/-- An empty segment could as well be read as no steps. -/
theorem mapM_readSegment?_filter (pieces : List (List Char)) :
    ((pieces.filter fun piece => !piece.isEmpty).mapM readSegment?).map List.flatten =
      (pieces.mapM readSegment?).map List.flatten := by
  induction pieces with
  | nil => rfl
  | cons piece pieces ih =>
    rw [List.mapM_cons]
    cases piece with
    | nil =>
      have hnone : readSegment? [] = some [] := rfl
      rw [hnone, List.filter_cons_of_neg (by simp), ih]
      cases pieces.mapM readSegment? <;> rfl
    | cons c piece =>
      rw [List.filter_cons_of_pos (by simp), List.mapM_cons]
      cases readSegment? (c :: piece) with
      | none => rfl
      | some steps =>
        cases hkept : (pieces.filter fun piece => !piece.isEmpty).mapM readSegment? with
        | none =>
          rw [hkept, Option.map_none, eq_comm, Option.map_eq_none_iff] at ih
          rw [ih]
        | some kept =>
          rw [hkept, Option.map_some, eq_comm] at ih
          obtain ⟨all, hall, hflatten⟩ := Option.map_eq_some_iff.mp ih
          rw [hall]
          exact congrArg (fun rest => some (steps ++ rest)) hflatten.symm

theorem read?_of_dot {rest : List Char} (h : filter.toList = '.' :: rest) :
    Filter.read? filter = ((rest.splitOn '.').mapM readSegment?).map List.flatten := by
  rw [← mapM_readSegment?_filter, Filter.read?, h, Option.map_eq_bind]
  rfl

/-- A dot in front of each segment is one in front of all and one between any two. -/
theorem flatMap_letters (h : segments ≠ []) :
    (segments.flatMap fun s => '.' :: s.letters) =
      '.' :: ['.'].intercalate (segments.map Segment.letters) := by
  induction segments with
  | nil => exact absurd rfl h
  | cons s segments ih =>
    cases segments with
    | nil => simp
    | cons next segments =>
      rw [List.flatMap_cons, ih (List.cons_ne_nil _ _)]
      simp [List.intercalate_cons_cons]

theorem mapM_readSegment?_letters (h : ∀ s ∈ segments, s.WellFormed) :
    (segments.map Segment.letters).mapM readSegment? = some (segments.map Segment.steps) := by
  rw [List.mapM_map]
  exact Plan.mapM_eq_some_map fun s hs => (h s hs).readSegment?

/-- Piece by piece, what is read is written in segments. -/
theorem exists_segments {pieces : List (List Char)} {read : List (List Step)}
    (hdots : ∀ piece ∈ pieces, '.' ∉ piece) (h : pieces.mapM readSegment? = some read) :
    ∃ segments : List Segment, (∀ s ∈ segments, s.WellFormed) ∧
      segments.map Segment.letters = pieces := by
  induction pieces generalizing read with
  | nil => exact ⟨[], by simp, rfl⟩
  | cons piece pieces ih =>
    obtain ⟨hdot, hrest⟩ := List.forall_mem_cons.mp hdots
    rw [List.mapM_cons] at h
    obtain ⟨first, hfirst, h⟩ := Option.bind_eq_some_iff.mp h
    obtain ⟨others, hothers, -⟩ := Option.bind_eq_some_iff.mp h
    obtain ⟨s, hs, rfl⟩ := exists_segment hdot hfirst
    obtain ⟨segments, hsegments, rfl⟩ := ih hrest hothers
    exact ⟨s :: segments, List.forall_mem_cons.mpr ⟨hs, hsegments⟩, rfl⟩

/-- What is written in segments is read step by step. -/
theorem Spells.read? (h : Spells segments filter) :
    Filter.read? filter = some (segments.flatMap Segment.steps) := by
  have hdots : ∀ piece ∈ segments.map Segment.letters, '.' ∉ piece :=
    List.forall_mem_map.mpr fun s hs => (h.wellFormed s hs).dot_not_mem
  have hletters := h.letters
  rw [flatMap_letters h.ne_nil] at hletters
  rw [read?_of_dot hletters, List.splitOn_intercalate '.' hdots (by simpa using h.ne_nil),
    mapM_readSegment?_letters h.wellFormed, Option.map_some, List.flatMap]

/-- Whatever is read as a filter is written in segments. -/
theorem exists_spells (h : Filter.read? filter = some steps) :
    ∃ segments, Spells segments filter := by
  obtain ⟨rest, hletters⟩ : ∃ rest, filter.toList = '.' :: rest := by
    unfold Filter.read? at h
    split at h
    · next rest hletters => exact ⟨rest, hletters⟩
    · cases h
  rw [read?_of_dot hletters] at h
  obtain ⟨read, hread, -⟩ := Option.map_eq_some_iff.mp h
  obtain ⟨segments, hsegments, hpieces⟩ :=
    exists_segments (fun _ => Chars.not_mem_of_mem_splitOn) hread
  have hne : segments ≠ [] := by
    rintro rfl
    exact List.splitOn_ne_nil '.' rest hpieces.symm
  refine ⟨segments, hne, hsegments, ?_⟩
  rw [hletters, flatMap_letters hne, hpieces, List.intercalate_splitOn]

theorem Applies.jq_eq {c : Call} {m : Machine} (h : Applies c m filter value) :
    Reading.jq c m =
      match at? value filter with
      | none => .error (.usage (.unsupportedFilter filter))
      | some result => .ok (.output (Reading.jsonText (c.options "") result)) := by
  obtain ⟨rfl, text, hinput, hblank, hread⟩ := h
  simp only [Reading.jq, at?, hinput, hblank, hread, bind, Except.bind, Bool.false_eq_true,
    if_false]
  cases Filter.read? (((c.options "").operand? 0).getD ".") <;> rfl

/-- Segments with nothing behind their brackets lead step by step to what the filter makes of a
value. What is not written in segments at all is no filter. And `jq` prints what a filter makes of
its input, and refuses what is none. -/
theorem filtered_value (value : Json) (filter : String) :
    (∀ segments, Spells segments filter → (∀ s ∈ segments, s.behind = []) →
        ∃ result, at? value filter = some result ∧
          LeadsTo value (segments.flatMap Segment.steps) result) ∧
      ((∀ segments, ¬Spells segments filter) → at? value filter = none) ∧
      ∀ c m, Applies c m filter value →
        (∀ result, at? value filter = some result →
          Reading.jq c m = .ok (.output (Reading.jsonText (c.options "") result))) ∧
        (at? value filter = none →
          Reading.jq c m = .error (.usage (.unsupportedFilter filter))) := by
  refine ⟨fun segments h _ => ?_, fun hnone => ?_, fun c m h =>
    ⟨fun result hresult => ?_, fun hnone => ?_⟩⟩
  · refine ⟨_, ?_, leadsTo_select value _⟩
    rw [at?, h.read?, Option.map_some]
  · cases hread : Filter.read? filter with
    | none => rw [at?, hread, Option.map_none]
    | some steps =>
      obtain ⟨segments, h⟩ := exists_spells hread
      exact absurd h (hnone segments)
  · rw [h.jq_eq, hresult]
  · rw [h.jq_eq, hnone]

/-- An index with a sign, an empty segment and a key that a text has not, and a filter without a
dot. -/
theorem filtered_value_signed :
    let value : Json := .array [.string "b"]
    let call (filter : String) : Call := ⟨"jq", [filter], "[\"b\"]", Sample.time, []⟩
    (∃ result, at? value ".[+0]..x" = some result ∧
        LeadsTo value [.item 0, .member "x"] result) ∧
      Reading.jq (call ".[+0]..x") Sample.machine = .ok (.output "null") ∧
      at? value "x" = none ∧
      Reading.jq (call "x") Sample.machine = .error (.usage (.unsupportedFilter "x")) := by
  intro value call
  have happlies : ∀ filter, (call filter).options "" = { operands := [filter] } →
      Applies (call filter) Sample.machine filter value := by
    intro filter hoptions
    refine ⟨by rw [hoptions]; rfl, "[\"b\"]", by rw [hoptions]; rfl, by decide, rfl⟩
  have hzero : Number.Numeral Number.wordLimit ['+', '0'] 0 :=
    .signed ⟨by decide, List.all_eq_true.mp rfl, rfl⟩ (Nat.zero_le _)
  have hsegments : Spells [⟨[], [(['+', '0'], 0)], []⟩, ⟨[], [], []⟩, ⟨['x'], [], []⟩]
      ".[+0]..x" := by
    refine ⟨List.cons_ne_nil _ _, ?_, by decide +kernel⟩
    simp only [List.forall_mem_cons, List.not_mem_nil, false_imp_iff, implies_true, and_true]
    refine ⟨⟨?_, ?_, ?_, ?_, ?_, ?_⟩, ⟨?_, ?_, ?_, ?_, ?_, ?_⟩, ?_, ?_, ?_, ?_, ?_, ?_⟩
    all_goals simp [hzero]
  have hnone : ∀ segments, ¬Spells segments "x" := by
    intro segments h
    have hletters := h.letters
    rw [flatMap_letters h.ne_nil] at hletters
    exact absurd (List.cons.inj hletters).1 (by decide)
  obtain ⟨hleads, -, hprints⟩ := filtered_value value ".[+0]..x"
  obtain ⟨-, hrefused, hrefuses⟩ := filtered_value value "x"
  refine ⟨hleads _ hsegments (by simp), ?_, hrefused hnone, ?_⟩
  · exact (hprints _ _ (happlies _ (by decide))).1 null rfl
  · exact (hrefuses _ _ (happlies _ (by decide))).2 (hrefused hnone)

/-- A plain segment begins with a letter of its key, or with a bracket and a digit. -/
theorem Segment.Plain.start {s : Segment} (h : s.Plain) :
    ∃ c rest, s.letters = c :: rest ∧ c ≠ '.' ∧ (c = '[' → ∃ d ∈ rest.head?, d.isDigit = true) := by
  rw [Segment.letters]
  cases hkey : s.key with
  | cons c key =>
    have hdot := h.dot_key
    have hbracket := h.bracket_key
    rw [hkey, List.mem_cons, not_or] at hdot hbracket
    exact ⟨c, _, rfl, fun he => hdot.1 he.symm, fun he => absurd he.symm hbracket.1⟩
  | nil =>
    cases hindexes : s.indexes with
    | nil => exact absurd hindexes (h.ne_nil.resolve_left (not_not.mpr hkey))
    | cons index indexes =>
      obtain ⟨hne, hdigits⟩ := h.indexes index (by rw [hindexes]; exact List.mem_cons_self)
      obtain ⟨d, number, hnumber⟩ := List.exists_cons_of_ne_nil hne
      refine ⟨'[', _, rfl, by decide, fun _ => ⟨d, ?_, hdigits d ?_⟩⟩
      · simp [hnumber]
      · rw [hnumber]
        exact List.mem_cons_self

/-- Behind its dot a path goes on with a letter of a key, or with a bracket and a digit. -/
theorem IsPath.start (h : IsPath filter) :
    filter = "." ∨ ∃ c rest, filter.toList = '.' :: c :: rest ∧ c ≠ '.' ∧
      (c = '[' → ∃ d ∈ rest.head?, d.isDigit = true) := by
  rcases h with h | ⟨segments, hne, hplain, hletters⟩
  · exact .inl h
  · obtain ⟨s, segments, rfl⟩ := List.exists_cons_of_ne_nil hne
    obtain ⟨c, rest, hs, hdot, hbracket⟩ := (hplain s List.mem_cons_self).start
    refine .inr ⟨c, _, by rw [hletters, List.flatMap_cons, hs]; rfl, hdot, fun he => ?_⟩
    obtain ⟨d, hd, hdigit⟩ := hbracket he
    obtain ⟨more, rfl⟩ : ∃ more, rest = d :: more := ⟨_, List.eq_cons_of_mem_head? hd⟩
    exact ⟨d, rfl, hdigit⟩

/-- An index that no word holds is plain and no filter, and an empty segment and an index with a
sign are filters and not plain. -/
theorem at?_isSome_ne_isPath :
    (IsPath ".[18446744073709551616]" ∧ (at? null ".[18446744073709551616]").isSome = false) ∧
      (¬IsPath ".." ∧ (at? null "..").isSome = true) ∧
      ¬IsPath ".[+0]" ∧ (at? null ".[+0]").isSome = true := by
  refine ⟨⟨?_, by decide +kernel⟩, ⟨fun h => ?_, by decide +kernel⟩, fun h => ?_, by decide +kernel⟩
  · refine .inr ⟨[⟨[], [("18446744073709551616".toList, 0)], []⟩], List.cons_ne_nil _ _, ?_,
      by decide +kernel⟩
    refine List.forall_mem_singleton.mpr ⟨by simp, by simp, ?_, rfl, .inr (List.cons_ne_nil _ _)⟩
    exact List.forall_mem_singleton.mpr ⟨by decide, List.all_eq_true.mp rfl⟩
  · rcases h.start with h | ⟨c, rest, hletters, hdot, -⟩
    · exact absurd h (by decide)
    · obtain ⟨rfl, -⟩ : '.' = c ∧ [] = rest := by simpa using hletters
      exact hdot rfl
  · rcases h.start with h | ⟨c, rest, hletters, -, hbracket⟩
    · exact absurd h (by decide)
    · obtain ⟨rfl, rfl⟩ : '[' = c ∧ ['+', '0', ']'] = rest := by simpa using hletters
      obtain ⟨d, hd, hdigit⟩ := hbracket rfl
      cases hd
      exact absurd hdigit (by decide)

end PocketUnix.Json
