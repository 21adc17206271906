import Mathlib.Data.List.Forall2
import PocketUnix.Proofs.Text.Ends
import PocketUnix.Session.Key

/-!
# Keys of scripts

What a script can type, and how any keys can be typed by one. Newlines, carriage returns and tabs
have keys of their own, so that no script types one of them as a character. All other keys are read
back from what is written for them, one behind the other, as no name in brackets has a bracket in
it.
-/

namespace PocketUnix

/-- A script can have the key. -/
def Key.Scripted (key : Key) : Prop := ∃ script, key ∈ Key.ofScript script

namespace Key

variable {c : Char} {key : Key} {keys : List Key} {name text after : List Char}

/-- Characters that have a key of their own are not typed. -/
def Typed (c : Char) : Prop := c ≠ '\n' ∧ c ≠ '\r' ∧ c ≠ '\t'

theorem typed_of_ofName {name : List Char} (h : ofName? name = some (.char c)) : Typed c := by
  unfold ofName? at h
  split at h <;> cases h
  exact ⟨by decide, by decide, by decide⟩

/-- The characters that names stand for can be typed. -/
theorem typed_of_named {text after : List Char} (h : named? text = some (.char c, after)) :
    Typed c := by
  unfold named? at h
  split at h
  · split at h
    · obtain ⟨key, hkey, hpair⟩ := Option.map_eq_some_iff.mp h
      cases hpair
      exact typed_of_ofName hkey
    · cases h
  · cases h

/-- What has a key of its own is given that key. -/
theorem typed_of_ofChar {d : Char} (h : ofChar d = .char c) : Typed c := by
  unfold ofChar at h
  split at h
  · cases h
  · next hnewline =>
    split at h
    · cases h
    · next htab =>
      cases h
      obtain ⟨hn, hr⟩ := not_or.mp hnewline
      exact ⟨hn, hr, htab⟩

/-- Along the whole script, the characters that are typed have no keys of their own. -/
theorem typed_of_mem_scan {skip : Nat} {text : List Char} (h : .char c ∈ scan skip text) :
    Typed c := by
  induction text generalizing skip with
  | nil => cases h
  | cons d text ih =>
    cases skip with
    | succ skip => exact ih h
    | zero =>
      unfold scan at h
      dsimp only at h
      split at h
      · next key after hnamed =>
        rcases List.mem_cons.mp h with rfl | h
        · exact typed_of_named hnamed
        · exact ih h
      · rcases List.mem_cons.mp h with h | h
        · exact typed_of_ofChar h.symm
        · exact ih h

theorem Scripted.typed (h : Scripted (.char c)) : Typed c := by
  obtain ⟨script, hscript⟩ := h
  exact typed_of_mem_scan hscript

theorem ofChar_of_typed (h : Typed c) : ofChar c = .char c := by
  obtain ⟨hn, hr, ht⟩ := h
  rw [ofChar, if_neg (not_or.mpr ⟨hn, hr⟩), if_neg ht]

/-- The names of a key, in small letters. Of the characters only the bracket in front of a name has
one. -/
def names : Key → List String
  | .char c => if c = '<' then ["lt"] else []
  | .enter => ["enter", "cr", "return"]
  | .escape => ["esc", "escape"]
  | .backspace => ["bs", "backspace"]
  | .delete => ["del", "delete"]
  | .tab => ["tab"]
  | .left => ["left"]
  | .right => ["right"]
  | .up => ["up"]
  | .down => ["down"]
  | .home => ["home"]
  | .finish => ["end"]
  | .interrupt => ["c-c"]

/-- The letters are a name of the key, whether they are small or capital ones. -/
def IsNamed (key : Key) (name : List Char) : Prop :=
  String.ofList (name.map Char.toLower) ∈ key.names

instance (key : Key) (name : List Char) : Decidable (key.IsNamed name) := by
  unfold IsNamed
  infer_instance

/-- A name is known just if it is in the list, in letters of any size. -/
theorem ofName?_eq_some_iff : ofName? name = some key ↔ key.IsNamed name := by
  unfold ofName? IsNamed
  generalize String.ofList (name.map Char.toLower) = small
  constructor
  · intro h
    split at h
    all_goals
      cases h
      try decide
  · intro h
    cases key
    case char c =>
      rw [names] at h
      split at h
      · next hc =>
        obtain rfl := List.mem_singleton.mp h
        rw [hc]
        rfl
      · cases h
    all_goals
      simp only [names, List.mem_cons, List.not_mem_nil, or_false] at h
      obtain rfl | rfl | rfl := h
    all_goals rfl

/-- No name has the bracket in it that stands behind names. -/
theorem IsNamed.not_mem (h : key.IsNamed name) : '>' ∉ name := by
  intro hmem
  have hsmall : '>' ∈ name.map Char.toLower := List.mem_map.mpr ⟨'>', hmem, by decide⟩
  have hfree : ∀ small ∈ key.names, '>' ∉ small.toList := by
    cases key
    case char c =>
      rw [names]
      split
      all_goals decide
    all_goals decide
  exact hfree _ h (by rwa [String.toList_ofList])

/-- A name is found at the start of a text just if the text begins with it, in brackets. -/
theorem named?_eq_some_iff :
    named? text = some (key, after) ↔
      ∃ name, key.IsNamed name ∧ text = '<' :: name ++ '>' :: after := by
  constructor
  · intro h
    unfold named? at h
    split at h
    · next rest =>
      split at h
      · next name behind hcut =>
        obtain ⟨found, hfound, hpair⟩ := Option.map_eq_some_iff.mp h
        cases hpair
        obtain ⟨c, hc, -, rfl⟩ := Chars.cutWhere?_eq_some hcut
        obtain rfl : c = '>' := by simpa using hc
        exact ⟨name, ofName?_eq_some_iff.mp hfound, rfl⟩
      · cases h
    · cases h
  · rintro ⟨name, hname, rfl⟩
    rw [List.cons_append, named?, Chars.cutWhere?_letter hname.not_mem]
    dsimp only
    rw [ofName?_eq_some_iff.mpr hname]
    rfl

/-- How a script is read: a name in brackets is a key, and where no such name begins, the next
character is one. -/
inductive Reads : List Char → List Key → Prop
  | done : Reads [] []
  | named {key name rest keys} (hname : IsNamed key name) (h : Reads rest keys) :
    Reads ('<' :: name ++ '>' :: rest) (key :: keys)
  | typed {c cs keys}
    (hno : ∀ key name rest, IsNamed key name → c :: cs ≠ '<' :: name ++ '>' :: rest)
    (h : Reads cs keys) : Reads (c :: cs) (ofChar c :: keys)

/-- The letters of a name that has been read are passed one by one. -/
theorem scan_skip (skip : Nat) (text : List Char) : scan skip text = scan 0 (text.drop skip) := by
  induction text generalizing skip with
  | nil => simp [scan]
  | cons c text ih =>
    cases skip with
    | zero => rfl
    | succ skip => exact ih skip

/-- Where a name begins, its key is read and the letters of the name are passed. -/
theorem scan_named (h : key.IsNamed name) (rest : List Char) :
    scan 0 ('<' :: name ++ '>' :: rest) = key :: scan 0 rest := by
  have hnamed : named? ('<' :: name ++ '>' :: rest) = some (key, rest) :=
    named?_eq_some_iff.mpr ⟨name, h, rfl⟩
  have hbehind :
      (name ++ '>' :: rest).drop ((name ++ '>' :: rest).length - rest.length) = rest := by
    have hletters : name ++ '>' :: rest = (name ++ ['>']) ++ rest := by simp
    rw [hletters, List.length_append, Nat.add_sub_cancel, List.drop_left]
  rw [List.cons_append] at hnamed ⊢
  rw [scan, hnamed]
  dsimp only
  rw [scan_skip, hbehind]

/-- Where no name begins, a letter is read as a key. -/
theorem scan_typed {cs : List Char}
    (hno : ∀ key name rest, IsNamed key name → c :: cs ≠ '<' :: name ++ '>' :: rest) :
    scan 0 (c :: cs) = ofChar c :: scan 0 cs := by
  have hnamed : named? (c :: cs) = none := by
    cases h : named? (c :: cs) with
    | none => rfl
    | some found =>
      obtain ⟨name, hname, hletters⟩ := named?_eq_some_iff.mp h
      exact absurd hletters (hno _ name _ hname)
  rw [scan, hnamed]

/-- There is an end to reading a script. -/
theorem reads_scan (text : List Char) : Reads text (scan 0 text) := by
  match text with
  | [] => exact .done
  | c :: cs =>
    cases h : named? (c :: cs) with
    | some found =>
      obtain ⟨name, hname, hletters⟩ := named?_eq_some_iff.mp h
      have hshorter : found.2.length < (c :: cs).length := by
        rw [hletters, List.length_append, List.length_cons, List.length_cons]
        omega
      have hrest := reads_scan found.2
      rw [hletters, scan_named hname]
      exact .named hname hrest
    | none =>
      have hno : ∀ key name rest, IsNamed key name → c :: cs ≠ '<' :: name ++ '>' :: rest := by
        intro key name rest hname hletters
        rw [named?_eq_some_iff.mpr ⟨name, hname, hletters⟩] at h
        cases h
      rw [scan_typed hno]
      exact .typed hno (reads_scan cs)
termination_by text.length
decreasing_by
  · exact Nat.lt_succ_self cs.length
  · exact hshorter

theorem Reads.scan_eq (h : Reads text keys) : scan 0 text = keys := by
  induction h with
  | done => rfl
  | named hname _ ih => rw [scan_named hname, ih]
  | typed hno _ ih => rw [scan_typed hno, ih]

/-- Each key takes a character at least. -/
theorem Reads.length_le (h : Reads text keys) : keys.length ≤ text.length := by
  induction h with
  | done => exact Nat.le_refl 0
  | named _ _ ih =>
    rw [List.length_append, List.length_cons, List.length_cons, List.length_cons]
    omega
  | typed _ _ ih => exact Nat.succ_le_succ ih

/-- What can be written for a key: its name in brackets, in letters of any size, and for a character
without a name the character. -/
inductive Written : Key → String → Prop
  | char {c : Char} (hc : c ≠ '<') : Written (.char c) (String.singleton c)
  | named {key : Key} {name : String} (hname : key.IsNamed name.toList) :
    Written key ("<" ++ name ++ ">")

/-- Every key can be written: by its name, or as the character that it types. -/
theorem exists_written (key : Key) : ∃ text, Written key text := by
  have hnamed : ∀ name : String, key.IsNamed name.toList → ∃ text, Written key text :=
    fun name hname => ⟨_, .named hname⟩
  cases key
  case char c =>
    by_cases hc : c = '<'
    · subst hc
      exact hnamed "lt" (by decide)
    · exact ⟨_, .char hc⟩
  case enter => exact hnamed "Enter" (by decide)
  case escape => exact hnamed "Esc" (by decide)
  case backspace => exact hnamed "BS" (by decide)
  case delete => exact hnamed "Del" (by decide)
  case tab => exact hnamed "Tab" (by decide)
  case left => exact hnamed "Left" (by decide)
  case right => exact hnamed "Right" (by decide)
  case up => exact hnamed "Up" (by decide)
  case down => exact hnamed "Down" (by decide)
  case home => exact hnamed "Home" (by decide)
  case finish => exact hnamed "End" (by decide)
  case interrupt => exact hnamed "C-c" (by decide)

/-- So can every list of keys, each of them by itself. -/
theorem exists_script (keys : List Key) : ∃ pieces, List.Forall₂ Written keys pieces := by
  induction keys with
  | nil => exact ⟨[], .nil⟩
  | cons key keys ih =>
    obtain ⟨text, htext⟩ := exists_written key
    obtain ⟨pieces, hpieces⟩ := ih
    exact ⟨text :: pieces, .cons htext hpieces⟩

/-- What is written for keys is read as these keys, one after the other, for no character but the
bracket in front of a name could begin one. -/
theorem reads_join {pieces : List String} (h : List.Forall₂ Written keys pieces)
    (htyped : ∀ c, .char c ∈ keys → Typed c) : Reads (String.join pieces).toList keys := by
  induction h with
  | nil => exact .done
  | @cons key text keys pieces htext _ ih =>
    have hrest := ih fun c hc => htyped c (List.mem_cons_of_mem key hc)
    rw [String.join_cons, String.toList_append]
    cases htext with
    | @char c hc =>
      have hno : ∀ key name rest, IsNamed key name →
          c :: (String.join pieces).toList ≠ '<' :: name ++ '>' :: rest :=
        fun _ _ _ _ he => hc (List.cons.inj he).1
      have hread := Reads.typed hno hrest
      rw [ofChar_of_typed (htyped c List.mem_cons_self)] at hread
      rwa [String.toList_singleton, List.singleton_append]
    | @named _ name hname =>
      have hread := Reads.named hname hrest
      have hletters : ("<" ++ name ++ ">").toList ++ (String.join pieces).toList =
          '<' :: name.toList ++ '>' :: (String.join pieces).toList := by
        simp
      rwa [hletters]

/-- Keys without the characters that have keys of their own are read back from a script in which
each of them is written, and any keys can be written. And a script is always read to its end, with
no more keys than it has characters, and never types such a character. -/
theorem ofScript_written (keys : List Key) :
    ((∀ c, .char c ∈ keys → Typed c) → ∀ pieces, List.Forall₂ Written keys pieces →
        ofScript (String.join pieces) = keys) ∧
      (∃ pieces, List.Forall₂ Written keys pieces) ∧
      ∀ script, Reads script.toList (ofScript script) ∧
        (ofScript script).length ≤ script.toList.length ∧
        ∀ c, .char c ∈ ofScript script → Typed c := by
  refine ⟨fun htyped pieces hpieces => ?_, exists_script keys, fun script => ?_⟩
  · exact (reads_join hpieces htyped).scan_eq
  · have hread := reads_scan script.toList
    exact ⟨hread, hread.length_le, fun c hc => Scripted.typed ⟨script, hc⟩⟩

/-- Brackets that are typed around a name that is not one key, behind and in front of names. -/
theorem ofScript_written_brackets :
    ofScript (String.join ["<LT>", "e", "s", "c", ">", "<Return>", ">", "<C-c>"]) =
      [.char '<', .char 'e', .char 's', .char 'c', .char '>', .enter, .char '>', .interrupt] := by
  refine (ofScript_written _).1 ?_ _ ?_
  · intro c hc
    simp only [List.mem_cons, List.not_mem_nil, or_false, Key.char.injEq, reduceCtorEq,
      false_or] at hc
    rcases hc with rfl | rfl | rfl | rfl | rfl | rfl
    all_goals exact ⟨by decide, by decide, by decide⟩
  · have hlt : Written (.char '<') "<LT>" := @Written.named _ "LT" (by decide)
    have hreturn : Written .enter "<Return>" := @Written.named _ "Return" (by decide)
    have hinterrupt : Written .interrupt "<C-c>" := @Written.named _ "C-c" (by decide)
    exact .cons hlt (.cons (.char (by decide)) (.cons (.char (by decide))
      (.cons (.char (by decide)) (.cons (.char (by decide)) (.cons hreturn
        (.cons (.char (by decide)) (.cons hinterrupt .nil)))))))

end Key

end PocketUnix
