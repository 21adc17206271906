import PocketUnix.Proofs.Completion.Answers
import PocketUnix.Proofs.Shell.Quotes
import PocketUnix.Proofs.Tree.WrittenPaths

/-!
# Paths that are completed and read back

A name is written into the line as it stands in its directory. When the line is run, its words are
read and the last of them is taken for a path: this is the path of the name, unless the name has
blanks or quotes, or is a tilde that stands for the home.
-/

namespace PocketUnix

namespace Completion

open PocketUnix.Path (IsName)
open PocketUnix.Shell (isQuote)

variable {m : Machine} {text : String} {lead word typed : List Char} {p : Path} {choice : Choice}

/-- A name that is typed as it is. -/
structure Plain (name : String) : Prop where
  isName : IsName name
  letters : ∀ c ∈ name.toList, isQuote c = false ∧ Chars.isBlank c = false

theorem plain_iff {name : String} : Plain name ↔
    IsName name ∧ name.toList.all (fun c => !isQuote c && !Chars.isBlank c) = true := by
  constructor
  · intro h
    exact ⟨h.isName, List.all_eq_true.mpr fun c hc => by simp [h.letters c hc]⟩
  · rintro ⟨hname, hletters⟩
    exact ⟨hname, fun c hc => by simpa using List.all_eq_true.mp hletters c hc⟩

instance (name : String) : Decidable (Plain name) := decidable_of_iff _ plain_iff.symm

theorem Plain.ne_nil {name : String} (h : Plain name) : name.toList ≠ [] := fun hnil =>
  h.isName.1 (String.toList_eq_nil_iff.mp hnil)

theorem Choice.letters_plain (h : Plain choice.name) :
    choice.letters ≠ [] ∧
      ∀ c ∈ choice.letters, isQuote c = false ∧ Chars.isBlank c = false := by
  have hslash : isQuote '/' = false ∧ Chars.isBlank '/' = false := by decide
  unfold Choice.letters
  split
  · exact ⟨by simp, List.forall_mem_append.mpr ⟨h.letters, List.forall_mem_singleton.mpr hslash⟩⟩
  · exact ⟨h.ne_nil, h.letters⟩

theorem Choice.mem_letters {c : Char} (h : c ∈ choice.letters) :
    c ∈ choice.name.toList ∨ c = '/' := by
  unfold Choice.letters at h
  split at h
  · simpa using h
  · exact .inl h

theorem walk_letters (h : IsName choice.name) (p : Path) :
    p.walk (.ofList choice.letters) = p.child choice.name := by
  unfold Choice.letters
  split
  · exact Path.walk_of_isName_slash h p
  · rw [String.ofList_toList, Path.walk_of_isName h]

/-- Without a slash in front of it, a choice is one in the working directory: nothing but a slash
can stand behind its name, so that no tilde alone begins it. -/
theorem resolve_letters (h : Plain choice.name) (htilde : choice.name ≠ "~") :
    m.resolve (.ofList choice.letters) = m.cwd.child choice.name := by
  obtain ⟨hne, hletters⟩ := Choice.letters_plain h
  obtain ⟨c, cs, hcs⟩ := List.exists_cons_of_ne_nil hne
  obtain ⟨d, ds, hds⟩ := List.exists_cons_of_ne_nil h.ne_nil
  have hstart : choice.name.toList <+: choice.letters := Choice.prefix_letters List.prefix_rfl
  have hslash : '/' ∉ choice.name.toList := h.isName.2.2.2
  have hblank : Text.isBlank (.ofList choice.letters) = false := by
    rw [Text.isBlank, String.toList_ofList, hcs, List.all_cons,
      (hletters c (by simp [hcs])).2, Bool.false_and]
  rw [hds] at hstart hslash
  have hhome : ∀ rest : List Char, (∀ c ∈ rest.head?, c = '/') → choice.letters ≠ '~' :: rest := by
    intro rest hrest he
    rw [he] at hstart
    obtain ⟨rfl, htail⟩ := List.cons_prefix_cons.mp hstart
    cases ds with
    | nil => exact htilde (by rw [← String.ofList_toList (s := choice.name), hds])
    | cons e es =>
      obtain ⟨others, rfl⟩ := htail
      have hslash' : e = '/' := hrest e rfl
      exact hslash (by simp [hslash'])
  have hroot : ∀ rest, choice.letters ≠ '/' :: rest := by
    intro rest he
    rw [he] at hstart
    exact hslash (by simp [(List.cons_prefix_cons.mp hstart).1])
  have hread : m.resolve (.ofList choice.letters) = m.cwd.walk (.ofList choice.letters) :=
    Path.resolve_eq_walk hblank (hhome [] (by simp)) (fun rest => hhome _ (by simp)) hroot
  rw [hread, walk_letters h.isName]

/-- The letters of a choice, in place of what has been typed of them, are read as its path. -/
theorem Names.exists_front (hw : Names m word p typed) (hword : ∀ c ∈ word, Chars.isBlank c = false)
    (h : Plain choice.name) (htilde : choice.name = "~" → '/' ∈ word) :
    ∃ front, word = front ++ typed ∧
      m.resolve (.ofList (front ++ choice.letters)) = p.child choice.name := by
  cases hw with
  | plain hslash =>
    exact ⟨[], rfl, resolve_letters h fun he => hslash (htilde he)⟩
  | root hslash =>
    have hempty : Path.walk [] (.ofList ([] ++ '/' :: choice.letters)) =
        Path.child [] choice.name := by
      rw [Path.walk_append, walk_letters h.isName]
      rfl
    exact ⟨['/'], rfl, (Path.resolve_root choice.letters).trans hempty⟩
  | @within d name hd hslash =>
    refine ⟨d ++ ['/'], by simp, ?_⟩
    have hblank : Text.isBlank (.ofList d) = false := by
      obtain ⟨c, cs, rfl⟩ := List.exists_cons_of_ne_nil hd
      simp [Text.isBlank, hword c (by simp)]
    rw [List.append_assoc, List.singleton_append, Machine.resolve, Path.resolve_append hblank,
      walk_letters h.isName]
    rfl

/-- The cursor stands at the end of a line without quotes, in a word that is no command and for
which there is just one choice. -/
structure OnlyChoice (m : Machine) (text : String) (word : List Char) (p : Path) (choice : Choice) :
    Prop where
  unquoted : ∀ c ∈ text.toList, isQuote c = false
  completes : ∃ lead typed, LastWord text.toList lead word ∧ ¬CommandPlace lead ∧
    Names m word p typed ∧ Offered m (.directory p) typed [choice]

/-- The last word of a line. -/
def lastWord? (line : String) : Option String := (Shell.words line).getLast?

/-- The last word of the last stage of a line, which is read when the line is run. -/
def lastStageWord? (line : String) : Option String :=
  (Shell.parts '|' line).getLast?.bind lastWord?

/-- A tab at the end writes a line in which a word is found that is read as the path. -/
def ReadsBack (find : String → Option String) (m : Machine) (text : String) (p : Path) : Prop :=
  ∃ new cursor last, complete text (Text.byteLength text) m = .edited new cursor ∧
    find new = some last ∧ m.resolve last = p

/-- With one choice, the rest of its letters is written at the end of the line. -/
theorem OnlyChoice.completed (hc : OnlyChoice m text word p choice) (h : m.root.InOrder)
    (hname : Plain choice.name) (htilde : choice.name = "~" → '/' ∈ word) :
    ∃ lead last cursor, LastWord text.toList lead word ∧
      complete text (Text.byteLength text) m =
        .edited (.ofList (lead ++ (last ++ choice.gap))) cursor ∧
      m.resolve (.ofList last) = p.child choice.name ∧ last ⊆ word ++ choice.letters ∧
      last ≠ [] ∧ ∀ c ∈ last, isQuote c = false ∧ Chars.isBlank c = false := by
  obtain ⟨lead, typed, hword, hplace, hnames, hoffered⟩ := hc.completes
  have hfound : found m (.directory p) typed = [choice] :=
    (offered_found h (.directory p) typed).unique hoffered
  have hcut : Chars.cut (Text.byteLength text) text.toList = (text.toList, []) := by
    have hend := Chars.cut_byteLength_append text.toList []
    rwa [List.append_nil] at hend
  have hanswers : Answers text.toList [] typed [choice]
      (complete text (Text.byteLength text) m) := by
    rw [complete_eq hcut hword (.directory hplace hnames), hfound]
    refine answers_ofOffer (fun c hmem => ?_) (fun _ _ => hnames.slash_not_mem) _ _
    have hmem' : c ∈ found m (.directory p) typed := hfound ▸ hmem
    exact prefix_letters_of_found hmem'
  obtain ⟨front, hfront, hresolve⟩ := hnames.exists_front hword.word hname htilde
  obtain ⟨hne, hletters⟩ := Choice.letters_plain hname
  have hplain : ∀ c ∈ front, isQuote c = false ∧ Chars.isBlank c = false := by
    intro c hc'
    have hmem : c ∈ word := hfront ▸ List.mem_append_left typed hc'
    exact ⟨hc.unquoted c (hword.append ▸ List.mem_append_right lead hmem), hword.word c hmem⟩
  generalize complete text (Text.byteLength text) m = completion at hanswers ⊢
  cases hanswers with
  | @one _ rest hrest =>
    have hnew : text.toList ++ (rest ++ choice.gap) ++ [] =
        lead ++ (front ++ choice.letters ++ choice.gap) := by
      rw [hword.append, hfront, hrest]
      simp
    rw [inserted, hnew]
    have hsub : front ++ choice.letters ⊆ word ++ choice.letters :=
      List.append_subset.mpr ⟨fun c hc' => by simp [hfront, hc'], List.subset_append_right _ _⟩
    exact ⟨lead, front ++ choice.letters, _, hword, rfl, hresolve, hsub, by simp [hne],
      List.forall_mem_append.mpr ⟨hplain, hletters⟩⟩
  | longer hn => simp at hn
  | several hn => simp at hn

/-- With one choice for the word at the end of a line without quotes, a tab writes a line whose last
word is read back as the path of the choice: in every directory that a word can name, and for every
plain name but a tilde without a slash in front of it. Where there is no bar in the word and in the
name, it is also the last word of the stage that runs last. -/
theorem complete_readsBack (h : m.root.InOrder) (hc : OnlyChoice m text word p choice)
    (hname : Plain choice.name) (htilde : choice.name = "~" → '/' ∈ word) :
    ReadsBack lastWord? m text (p.child choice.name) ∧
      ('|' ∉ word → '|' ∉ choice.name.toList →
        ReadsBack lastStageWord? m text (p.child choice.name)) := by
  obtain ⟨lead, last, cursor, hword, hcomplete, hresolve, hsub, hne, hlast⟩ :=
    hc.completed h hname htilde
  have hgap : ∀ c ∈ choice.gap, Chars.isBlank c = true := by
    unfold Choice.gap
    split
    · nofun
    · exact List.forall_mem_singleton.mpr (by decide)
  -- A tail of what stands in front of the word is read up to the word in the same way.
  have hread : ∀ rest, rest <:+ lead →
      (Shell.scanWords none none (rest ++ (last ++ choice.gap))).getLast? = some last := by
    rintro rest hrest
    refine Shell.getLast?_scanWords (Shell.openQuote_of_forall (fun c hc' => ?_) nofun)
      (fun c hc' => ?_) hne hlast hgap
    · refine hc.unquoted c ?_
      rw [hword.append]
      exact List.mem_append_left word (hrest.subset hc')
    · obtain ⟨front, rfl⟩ := hrest
      refine hword.lead c ?_
      rw [List.getLast?_append, Option.mem_def.mp hc']
      rfl
  refine ⟨⟨_, cursor, .ofList last, hcomplete, ?_, hresolve⟩,
    fun hbar hbar' => ⟨_, cursor, .ofList last, hcomplete, ?_, hresolve⟩⟩
  · rw [lastWord?, Shell.words, String.toList_ofList, List.getLast?_map,
      hread lead List.suffix_rfl]
    rfl
  · have htail : '|' ∉ last ++ choice.gap := by
      refine List.not_mem_append (fun hmem => ?_) fun hmem => absurd (hgap '|' hmem) (by decide)
      rcases List.mem_append.mp (hsub hmem) with hmem | hmem
      · exact hbar hmem
      · exact hbar' ((Choice.mem_letters hmem).resolve_right (by decide))
    obtain ⟨rest, hrest, hpart⟩ :=
      Shell.exists_getLast?_splitUnquoted (by decide) lead htail
    rw [lastStageWord?, Shell.parts, String.toList_ofList, List.getLast?_map, hpart,
      Option.map_some, Option.bind_some, lastWord?, Shell.words, String.toList_ofList,
      List.getLast?_map, hread rest hrest]
    rfl

/-- A tilde in front of the word is kept, and read as the home. -/
theorem complete_readsBack_home : Sample.machine.root.InOrder ∧
    OnlyChoice Sample.machine "cat ~/we" "~/we".toList ["home", "user"] ⟨"welcome.txt", false⟩ ∧
    Plain "welcome.txt" ∧
    ReadsBack lastWord? Sample.machine "cat ~/we" ["home", "user", "welcome.txt"] := by
  have hsound : Node.Sound IsName Sample.machine.root := Seed.sound_root _ "terminus"
  have horder := hsound.wellFormed.inOrder
  have hunquoted : "cat ~/we".toList.all (!isQuote ·) = true := by decide +kernel
  have hfound : found Sample.machine (.directory ["home", "user"]) ['w', 'e'] =
      [⟨"welcome.txt", false⟩] := by decide +kernel
  have honly : OnlyChoice Sample.machine "cat ~/we" "~/we".toList ["home", "user"]
      ⟨"welcome.txt", false⟩ := by
    refine ⟨by simpa using hunquoted, "cat ".toList, ['w', 'e'], .of_eq (by decide +kernel), ?_,
      .within (List.cons_ne_nil '~' []) (by decide), hfound ▸ offered_found horder _ _⟩
    rw [← isCommandPlace_iff]
    decide +kernel
  have hplain : Plain "welcome.txt" := by decide +kernel
  exact ⟨horder, honly, hplain, (complete_readsBack horder honly hplain (by decide)).1⟩

/-- The machine of the start, with one more empty file in its working directory. -/
def withFile (name : String) : Machine :=
  { Sample.machine with
    root := Sample.machine.root.modify
      (Node.withEntry (Node.newFile name "user" "user" Sample.time "")) Sample.machine.cwd }

theorem sound_withFile {name : String} (h : IsName name) : (withFile name).root.Sound IsName := by
  have hsound : Node.Sound IsName Sample.machine.root := Seed.sound_root _ "terminus"
  have hdirectory : Sample.machine.root.isDirectoryAt Sample.machine.cwd = true := by
    decide +kernel
  exact hsound.insert (Node.wellFormed_newFile name "user" "user" Sample.time "") h
    (Node.insert_eq_ok_iff.mpr ⟨hdirectory, rfl⟩)

/-- Names in the working directory that are completed from what has been typed of them. -/
theorem onlyChoice_withFile {name : String} (h : IsName name) {typed : List Char}
    (htyped : typed.all (fun c => !isQuote c && !Chars.isBlank c && c != '/') = true)
    (hfound : found (withFile name) (.directory ["home", "user"]) typed = [⟨name, false⟩]) :
    OnlyChoice (withFile name) (.ofList ("cat ".toList ++ typed)) typed ["home", "user"]
      ⟨name, false⟩ := by
  have hletters : ∀ c ∈ typed, (isQuote c = false ∧ Chars.isBlank c = false) ∧ c ≠ '/' := by
    simpa [List.all_eq_true] using htyped
  have hcat : "cat ".toList.all (!isQuote ·) = true := by decide +kernel
  have hblank : "cat ".toList.getLast? = some ' ' := by decide +kernel
  have hword : LastWord (String.ofList ("cat ".toList ++ typed)).toList "cat ".toList typed := by
    refine ⟨String.toList_ofList, fun c hc => (hletters c hc).1.2, ?_⟩
    rw [hblank]
    rintro _ ⟨⟩
    decide
  refine ⟨?_, "cat ".toList, typed, hword, ?_, ?_, ?_⟩
  · rw [String.toList_ofList]
    exact List.forall_mem_append.mpr ⟨by simpa using hcat, fun c hc => (hletters c hc).1.1⟩
  · rw [← isCommandPlace_iff]
    decide +kernel
  · exact .plain fun hslash => (hletters '/' hslash).2 rfl
  · exact hfound ▸ offered_found (sound_withFile h).wellFormed.inOrder _ _

theorem not_readsBack {find : String → Option String} {new last : String} {cursor : Nat}
    (hcomplete : complete text (Text.byteLength text) m = .edited new cursor)
    (hlast : find new = some last) (hne : m.resolve last ≠ p) :
    ¬ReadsBack find m text p := by
  rintro ⟨new', cursor', last', hcomplete', hlast', hresolve⟩
  rw [hcomplete, Completion.edited.injEq] at hcomplete'
  obtain ⟨rfl, -⟩ := hcomplete'
  rw [hlast, Option.some.injEq] at hlast'
  exact hne (hlast' ▸ hresolve)

/-- A blank ends the word, a quote is taken for the start of a span, and a tilde for the home. -/
theorem not_readsBack_names :
    (OnlyChoice (withFile "my file") "cat my" ['m', 'y'] ["home", "user"] ⟨"my file", false⟩ ∧
      (withFile "my file").root.Sound IsName ∧
      ¬ReadsBack lastWord? (withFile "my file") "cat my" ["home", "user", "my file"]) ∧
    (OnlyChoice (withFile "it's") "cat it" ['i', 't'] ["home", "user"] ⟨"it's", false⟩ ∧
      (withFile "it's").root.Sound IsName ∧
      ¬ReadsBack lastWord? (withFile "it's") "cat it" ["home", "user", "it's"]) ∧
    OnlyChoice (withFile "~") "cat ~" ['~'] ["home", "user"] ⟨"~", false⟩ ∧
      (withFile "~").root.Sound IsName ∧
      ¬ReadsBack lastWord? (withFile "~") "cat ~" ["home", "user", "~"] := by
  have hspaced : complete "cat my" 6 (withFile "my file") = .edited "cat my file " 12 := by
    decide +kernel
  have hquoted : complete "cat it" 6 (withFile "it's") = .edited "cat it's " 9 := by
    decide +kernel
  have htilde : complete "cat ~" 5 (withFile "~") = .edited "cat ~ " 6 := by
    decide +kernel
  have hspaced' : lastWord? "cat my file " = some "file" := by decide +kernel
  have hquoted' : lastWord? "cat it's " = some "its " := by decide +kernel
  have htilde' : lastWord? "cat ~ " = some "~" := by decide +kernel
  refine ⟨⟨?_, sound_withFile (by decide +kernel), ?_⟩,
    ⟨?_, sound_withFile (by decide +kernel), ?_⟩, ?_, sound_withFile (by decide +kernel), ?_⟩
  · exact onlyChoice_withFile (by decide +kernel) (by decide +kernel) (by decide +kernel)
  · exact not_readsBack hspaced hspaced' (by decide +kernel)
  · exact onlyChoice_withFile (by decide +kernel) (by decide +kernel) (by decide +kernel)
  · exact not_readsBack hquoted hquoted' (by decide +kernel)
  · exact onlyChoice_withFile (by decide +kernel) (by decide +kernel) (by decide +kernel)
  · exact not_readsBack htilde htilde' (by decide +kernel)

end Completion

end PocketUnix
