import PocketUnix.Proofs.Tree.Names

/-!
# Paths that are written on

Where a path has been read from a text, a slash and more text behind it are read from there, as
long as the text names anything at all. So a path is read back from the home of a user on as well,
where a tilde is shown for the home.
-/

namespace PocketUnix.Path

variable {cwd p names : Path} {user name : String} {front rest letters : List Char}

theorem walk_append (p : Path) (front rest : List Char) :
    p.walk (.ofList (front ++ '/' :: rest)) = walk (p.walk (.ofList front)) (.ofList rest) := by
  have hparts : Text.splitOn (.ofList (front ++ '/' :: rest)) '/' =
      Text.splitOn (.ofList front) '/' ++ Text.splitOn (.ofList rest) '/' := by
    simp only [Text.splitOn, String.toList_ofList, List.splitOn, ← List.map_append]
    rw [List.splitOnP_append_cons front rest (by simp)]
  rw [walk, hparts, List.foldl_append, walk, walk]

theorem walk_nil (p : Path) : p.walk (.ofList []) = p := rfl

/-- Slashes alone lead nowhere else. -/
theorem walk_slashes (p : Path) (count : Nat) :
    p.walk (.ofList (List.replicate count '/')) = p := by
  induction count with
  | zero => rfl
  | succ count ih =>
    rw [List.replicate_succ, ← List.nil_append ('/' :: _), walk_append, walk_nil, ih]

/-- A slash behind a name adds nothing. -/
theorem walk_of_isName_slash (h : IsName name) (p : Path) :
    p.walk (.ofList (name.toList ++ ['/'])) = p.child name := by
  rw [walk_append, String.ofList_toList, walk_of_isName h]
  rfl

theorem resolve_home (rest : List Char) :
    resolve cwd user (.ofList ('~' :: '/' :: rest)) = walk (home user) (.ofList rest) := by
  have hne : String.ofList ('~' :: '/' :: rest) ≠ "~" := fun he => by
    simpa using congrArg String.toList he
  rw [resolve, if_neg (by simp [Text.isBlank, Chars.isBlank]), if_neg hne, String.toList_ofList]
  rfl

theorem resolve_root (rest : List Char) :
    resolve cwd user (.ofList ('/' :: rest)) = walk [] (.ofList ('/' :: rest)) := by
  have hne : String.ofList ('/' :: rest) ≠ "~" := fun he => by
    simpa using congrArg String.toList he
  rw [resolve, if_neg (by simp [Text.isBlank, Chars.isBlank]), if_neg hne, String.toList_ofList]
  rfl

/-- What begins neither at the root nor at the home is read from the working directory. -/
theorem resolve_eq_walk (hblank : Text.isBlank (.ofList letters) = false)
    (htilde : letters ≠ ['~']) (hhome : ∀ rest, letters ≠ '~' :: '/' :: rest)
    (hroot : ∀ rest, letters ≠ '/' :: rest) :
    resolve cwd user (.ofList letters) = walk cwd (.ofList letters) := by
  have hne : String.ofList letters ≠ "~" := fun he =>
    htilde (by rw [← String.toList_ofList (l := letters), he]; rfl)
  rw [resolve, if_neg (by simp [hblank]), if_neg hne, String.toList_ofList]
  split
  · next rest => exact absurd rfl (hhome rest)
  · next rest => exact absurd rfl (hroot rest)
  · rfl

/-- The start of a text tells where it is read from, and is the same with more behind it. -/
theorem resolve_append (hblank : Text.isBlank (.ofList front) = false) (rest : List Char) :
    resolve cwd user (.ofList (front ++ '/' :: rest)) =
      walk (resolve cwd user (.ofList front)) (.ofList rest) := by
  by_cases htilde : front = ['~']
  · subst htilde
    exact resolve_home rest
  by_cases hhome : ∃ more, front = '~' :: '/' :: more
  · obtain ⟨more, rfl⟩ := hhome
    rw [resolve_home, ← walk_append]
    exact resolve_home _
  by_cases hroot : ∃ more, front = '/' :: more
  · obtain ⟨more, rfl⟩ := hroot
    rw [resolve_root, ← walk_append]
    exact resolve_root _
  have hlonger : Text.isBlank (.ofList (front ++ '/' :: rest)) = false := by
    simp only [Text.isBlank, String.toList_ofList, List.all_append] at hblank ⊢
    rw [hblank, Bool.false_and]
  rw [resolve_eq_walk hblank htilde (not_exists.mp hhome) (not_exists.mp hroot), ← walk_append]
  cases front with
  | nil => cases hblank
  | cons c front =>
    refine resolve_eq_walk hlonger (by simp) (fun more he => ?_) fun more he => ?_
    · obtain ⟨rfl, htail⟩ := List.cons.inj he
      cases front with
      | nil => exact htilde rfl
      | cons d front => exact hhome ⟨front, by rw [(List.cons.inj htail).1]⟩
    · exact hroot ⟨front, by rw [(List.cons.inj he).1]⟩

/-- A slash and more text behind any text is read from where the text and the slash lead to, also if
the text begins with a blank and is read from the working directory on. -/
theorem resolve_slash_cons (front rest : List Char) :
    resolve cwd user (.ofList (front ++ '/' :: rest)) =
      walk (resolve cwd user (.ofList (front ++ ['/']))) (.ofList rest) := by
  cases hblank : Text.isBlank (.ofList front) with
  | false => rw [resolve_append hblank, resolve_append hblank [], walk_nil]
  | true =>
    cases front with
    | nil =>
      rw [List.nil_append, List.nil_append, resolve_root, resolve_root]
      exact walk_append [] [] rest
    | cons c front =>
      have hc : Chars.isBlank c = true := by
        simp only [Text.isBlank, String.toList_ofList, List.all_cons, Bool.and_eq_true] at hblank
        exact hblank.1
      have hread (more : List Char) : resolve cwd user (.ofList (c :: front ++ '/' :: more)) =
          walk cwd (.ofList (c :: front ++ '/' :: more)) := by
        refine resolve_eq_walk ?_ (by simp) (fun _ he => ?_) fun _ he => ?_
        · have hslash : Chars.isBlank '/' = false := by decide
          simp [Text.isBlank, hslash]
        · rw [(List.cons.inj he).1] at hc
          exact absurd hc (by decide)
        · rw [(List.cons.inj he).1] at hc
          exact absurd hc (by decide)
      rw [hread, hread, walk_append, walk_append, walk_nil]

/-- More slashes behind a slash make no difference. -/
theorem resolve_slashes (front : List Char) (count : Nat) :
    resolve cwd user (.ofList (front ++ '/' :: List.replicate count '/')) =
      resolve cwd user (.ofList (front ++ ['/'])) := by
  rw [resolve_slash_cons, walk_slashes]

/-- A text that is read from the working directory on: it is not blank, and begins neither at the
root nor at the home. -/
def IsRelative (text : String) : Prop :=
  Text.isBlank text = false ∧ text ≠ "~" ∧ Text.startsWith text "~/" = false ∧
    Text.startsWith text "/" = false

instance (text : String) : Decidable (IsRelative text) := by
  unfold IsRelative
  infer_instance

section Relative

variable {text front : String}

/-- A relative text is read name by name from the working directory on. -/
theorem resolve_of_isRelative (h : IsRelative text) (cwd : Path) (user : String) :
    resolve cwd user text = walk cwd text := by
  obtain ⟨hblank, htilde, hhome, hroot⟩ := h
  rw [← String.ofList_toList (s := text)] at hblank ⊢
  refine resolve_eq_walk hblank (fun he => ?_) (fun rest he => ?_) fun rest he => ?_
  · exact htilde (String.toList_inj.mp he)
  · simp [Text.startsWith, he] at hhome
  · simp [Text.startsWith, he] at hroot

/-- A text with a slash and a relative one behind it is read from where the text leads to. -/
theorem resolve_slash (hblank : Text.isBlank front = false) (h : IsRelative text) (cwd : Path)
    (user : String) :
    resolve cwd user (front ++ "/" ++ text) = resolve (resolve cwd user front) user text := by
  have hletters : front ++ "/" ++ text = .ofList (front.toList ++ '/' :: text.toList) := by
    rw [← String.toList_inj]
    simp
  rw [← String.ofList_toList (s := front)] at hblank
  rw [hletters, resolve_append hblank, String.ofList_toList, String.ofList_toList,
    resolve_of_isRelative h]

/-- Down to a name and up again is nowhere else. -/
theorem walk_up_again (h : IsName name) (cwd : Path) (text : String) :
    walk cwd (name ++ "/../" ++ text) = walk cwd text := by
  have hletters : name ++ "/../" ++ text =
      .ofList (name.toList ++ '/' :: ("..".toList ++ '/' :: text.toList)) := by
    rw [← String.toList_inj]
    simp
  have hup : (cwd.child name).walk ".." = cwd := by
    rw [walk, Text.splitOn_of_not_mem (by decide)]
    simp [step, child]
  rw [hletters, walk_append, walk_append, String.ofList_toList, String.ofList_toList,
    String.ofList_toList, walk_of_isName h, hup]

/-- Any name but the tilde can stand in front, with a way up behind it. -/
theorem IsRelative.up_again (h : IsRelative text) (hname : IsName name) (htilde : name ≠ "~") :
    IsRelative (name ++ "/../" ++ text) := by
  obtain ⟨hempty, -, -, hslash⟩ := hname
  have hne : name.toList ≠ [] := fun he => hempty (String.toList_inj.mp he)
  obtain ⟨c, cs, hcs⟩ := List.exists_cons_of_ne_nil hne
  have hletters : (name ++ "/../" ++ text).toList = c :: (cs ++ "/../".toList ++ text.toList) := by
    simp [hcs]
  rw [hcs, List.mem_cons, not_or] at hslash
  refine ⟨?_, fun he => ?_, ?_, ?_⟩
  · have hblank := h.1
    simp only [Text.isBlank, String.toList_append, List.all_append] at hblank ⊢
    rw [hblank, Bool.and_false]
  · have hmem : '/' ∈ "~".toList := by
      rw [← he]
      simp
    exact absurd hmem (by decide)
  · rw [Text.startsWith, hletters]
    cases cs with
    | nil =>
      have hc : '~' ≠ c := fun he => htilde (String.toList_inj.mp (by rw [hcs, ← he]; rfl))
      simp [List.isPrefixOf, hc]
    | cons d ds =>
      have hd : '/' ≠ d := (not_or.mp (List.mem_cons.not.mp hslash.2)).1
      simp [List.isPrefixOf, hd]
  · rw [Text.startsWith, hletters]
    simp [List.isPrefixOf, hslash.1]

theorem resolve_up_again (hname : IsName name) (htilde : name ≠ "~") (h : IsRelative text)
    (cwd : Path) (user : String) :
    resolve cwd user (name ++ "/../" ++ text) = resolve cwd user text := by
  rw [resolve_of_isRelative (h.up_again hname htilde), resolve_of_isRelative h,
    walk_up_again hname]

end Relative

/-- Names with slashes between them are walked along, one after the other. -/
theorem walk_intercalate (h : names.Named IsName) (hne : names ≠ []) (p : Path) :
    p.walk ("/".intercalate names) = p ++ names := by
  have hparts : Text.splitOn ("/".intercalate names) '/' = names :=
    Text.splitOn_intercalate (fun name hn => (h name hn).2.2.2) hne
  rw [walk, hparts, foldl_step_of_named h]

/-- In his home a user is shown a tilde for the way to it. -/
theorem displayFor_home_append (user : String) (names : Path) :
    displayFor user (home user ++ names) =
      if names = [] then "~" else "~/" ++ "/".intercalate names := by
  have hbehind : (home user).isPrefixOf? (home user ++ names) = some names :=
    List.isPrefixOf?_eq_some_iff_append_eq.mpr rfl
  rw [displayFor, hbehind]
  cases names with
  | nil => rfl
  | cons name rest => rfl

theorem displayFor_of_not_home (h : ¬home user <+: p) : displayFor user p = p.display := by
  cases hbehind : (home user).isPrefixOf? p with
  | none => rw [displayFor, hbehind]
  | some names => exact absurd ⟨names, List.isPrefixOf?_eq_some_iff_append_eq.mp hbehind⟩ h

/-- A path of names is read back with the home of the reader shown as a tilde, wherever it is. -/
theorem resolve_displayFor (h : p.Named IsName) (cwd : Path) (user : String) :
    resolve cwd user (displayFor user p) = p := by
  by_cases hhome : home user <+: p
  · obtain ⟨names, rfl⟩ := hhome
    have hnames : Path.Named IsName names := fun name hn => h name (List.mem_append_right _ hn)
    have hletters : "~/" ++ "/".intercalate names =
        String.ofList ('~' :: '/' :: ("/".intercalate names).toList) := by
      rw [String.ofList_cons, String.ofList_cons, String.ofList_toList, ← String.append_assoc]
      rfl
    rw [displayFor_home_append]
    split
    · next hnil => rw [hnil, List.append_nil, resolve, if_neg (by decide), if_pos rfl]
    · next hne => rw [hletters, resolve_home, String.ofList_toList, walk_intercalate hnames hne]
  · rw [displayFor_of_not_home hhome]
    exact resolve_display h cwd user

/-- What is read from any text is a path of names, where the working directory and the user have
such names. And whatever they are, a path of names is read back from both ways to display it. -/
theorem resolve_canonical (cwd : Path) (user : String) :
    (cwd.Named IsName → IsName user → ∀ text, (resolve cwd user text).Named IsName) ∧
      ∀ p : Path, p.Named IsName →
        resolve cwd user p.display = p ∧ resolve cwd user (p.displayFor user) = p :=
  ⟨named_resolve, fun _ h => ⟨resolve_display h cwd user, resolve_displayFor h cwd user⟩⟩

/-- Dots, a run of slashes and a tilde at the start of a text, and blanks and a tilde within a
path. -/
theorem resolve_canonical_home :
    let cwd : Path := ["tmp", "a b"]
    let p : Path := ["home", "user", "~", " "]
    (resolve cwd "user" "~/../..//./x y/").Named IsName ∧
      p.displayFor "user" = "~/~/ " ∧ resolve cwd "user" p.display = p ∧
      resolve cwd "user" (p.displayFor "user") = p := by
  intro cwd p
  have hcwd : cwd.Named IsName := by simp [cwd, Named]; decide
  have huser : IsName "user" := by decide
  have hp : p.Named IsName := by simp [p, Named]; decide
  obtain ⟨hread, hback⟩ := resolve_canonical cwd "user"
  exact ⟨hread hcwd huser _, by decide +kernel, hback p hp⟩

end PocketUnix.Path
