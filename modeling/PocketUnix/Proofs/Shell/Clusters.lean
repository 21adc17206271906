import PocketUnix.Proofs.Shell.Options

/-!
# Clusters taken apart

What an argument is read as depends on what stands in front of it: where options are expected it
may be a cluster, behind a letter that waits for its value it is that value, and behind the two
dashes it is an operand. A cluster reads like its letters one by one, each behind a dash of its own,
with what is glued to the last of them as an argument behind it.
-/

namespace PocketUnix.Shell.Options

/-- What an argument is taken for. -/
inductive Place where
  | option | value | operand
  deriving DecidableEq, Repr

/-- The letters of an argument that is a cluster, if it stands where options are expected. -/
def letters? (arg : String) : Option (List Char) :=
  match arg.toList with
  | '-' :: c :: cs => if c = '-' then none else some (c :: cs)
  | _ => none

/-- The letters of a cluster in front of the first one that takes a value. -/
def plain (valued cs : List Char) : List Char := cs.takeWhile (!valued.contains ·)

/-- The letter of a cluster that takes a value, and what is glued to it. -/
def tail (valued cs : List Char) : List Char := cs.dropWhile (!valued.contains ·)

/-- A letter as an argument of its own. -/
def single (c : Char) : String := .ofList ['-', c]

def optionLetters (valued : List Char) (arg : String) : List Char :=
  match letters? arg with
  | some cs => plain valued cs ++ (tail valued cs).take 1
  | none => []

/-- An argument for each option letter of a cluster, and one for what is glued to the last. -/
def parts (valued : List Char) (arg : String) : List String :=
  match letters? arg with
  | some cs =>
    (optionLetters valued arg).map single ++
      match (tail valued cs).drop 1 with
      | [] => []
      | c :: glued => [.ofList (c :: glued)]
  | none => [arg]

/-- Is the value of the last letter the argument behind the cluster? -/
def waits (valued : List Char) (arg : String) : Bool :=
  (letters? arg).any fun cs => (tail valued cs).length == 1

/-- What the argument behind this one is taken for. -/
def Place.next (valued : List Char) (place : Place) (arg : String) : Place :=
  match place with
  | .option => if arg = "--" then .operand else if waits valued arg then .value else .option
  | .value => .option
  | .operand => .operand

/-- What the argument behind `front` is taken for. -/
def placeAfter (valued : List Char) (front : List String) : Place :=
  front.foldl (Place.next valued) .option

/-- The arguments with each cluster taken apart, but no value and no operand. -/
def apart (valued : List Char) : Place → List String → List String
  | _, [] => []
  | place, arg :: rest =>
    (if place = .option then parts valued arg else [arg]) ++
      apart valued (place.next valued arg) rest

/-- No cluster has a dash among its option letters. -/
def Undashed (valued : List Char) (args : List String) : Prop :=
  ∀ front arg rest, args = front ++ arg :: rest → placeAfter valued front = .option →
    '-' ∉ optionLetters valued arg

/-- Options that are read one after the other. Of two values for a letter the later one counts. -/
def followedBy (o later : Options) : Options :=
  ⟨o.flags ++ later.flags, later.values ++ o.values, o.operands ++ later.operands⟩

section Join

variable (o o' o'' : Options)

@[simp] theorem empty_followedBy : ({} : Options).followedBy o = o := by
  simp [followedBy]

@[simp] theorem followedBy_empty : o.followedBy {} = o := by
  simp [followedBy]

theorem followedBy_assoc :
    (o.followedBy o').followedBy o'' = o.followedBy (o'.followedBy o'') := by
  simp [followedBy]

end Join

variable {valued cs : List Char} {c : Char} {arg : String} {args front rest : List String}

theorem cluster_eq (valued cs : List Char) :
    cluster valued cs = (plain valued cs,
      match tail valued cs with
      | [] => none
      | l :: glued => some (l, glued)) := by
  induction cs with
  | nil => rfl
  | cons c cs ih =>
    rw [cluster, ih]
    by_cases hc : c ∈ valued <;> simp [plain, tail, hc]

/-- A cluster is a dash with letters behind it, of which the first is no dash. -/
theorem letters?_eq_some_iff : letters? arg = some cs ↔
    ∃ c more, cs = c :: more ∧ c ≠ '-' ∧ arg.toList = '-' :: c :: more := by
  unfold letters?
  split
  · next c more harg =>
    by_cases hc : c = '-'
    · simp only [hc, if_true, harg, List.cons.injEq, true_and]
      constructor
      · nofun
      · rintro ⟨d, ds, -, hd, rfl, -⟩
        exact absurd rfl hd
    · simp only [hc, if_false, Option.some.injEq, harg, List.cons.injEq, true_and]
      constructor
      · rintro rfl
        exact ⟨c, more, rfl, hc, rfl, rfl⟩
      · rintro ⟨d, ds, rfl, -, rfl, rfl⟩
        rfl
  · next hno =>
    constructor
    · nofun
    · rintro ⟨c, more, -, -, harg⟩
      exact absurd harg (hno c more)

theorem read_end (valued : List Char) (rest : List String) :
    read valued ("--" :: rest) = { operands := rest } := by
  simp [read]

/-- A cluster gives flags up to the first letter that takes a value. That letter takes what is glued
to it, or else the next argument. -/
theorem read_cluster (h : letters? arg = some cs) (rest : List String) :
    read valued (arg :: rest) =
      match tail valued cs with
      | [] => followedBy { flags := plain valued cs } (read valued rest)
      | [l] =>
        followedBy { flags := plain valued cs, values := [(l, rest.headD "")] }
          (read valued rest.tail)
      | l :: c :: glued =>
        followedBy { flags := plain valued cs, values := [(l, .ofList (c :: glued))] }
          (read valued rest) := by
  obtain ⟨c, more, rfl, hc, harg⟩ := letters?_eq_some_iff.mp h
  rw [read.eq_def]
  simp only [harg]
  split
  · next hdash => simp_all
  · next hdash => simp_all
  · next d ds _ _ hds =>
    obtain ⟨rfl, rfl⟩ : c = d ∧ more = ds := by simpa using hds
    rw [cluster_eq]
    cases tail valued (c :: more) with
    | nil => simp [withCluster, followedBy]
    | cons l glued =>
      cases glued with
      | nil => cases rest <;> simp [withCluster, followedBy, read]
      | cons d glued => simp [withCluster, followedBy]
  · next hno => exact absurd rfl (hno c more)

/-- What is no cluster, and does not end the options, is an operand, or is passed over if it begins
with two dashes. -/
theorem read_cons_of_none (h : letters? arg = none) (hends : arg ≠ "--") :
    ∃ o : Options, ∀ rest, read valued (arg :: rest) = o.followedBy (read valued rest) := by
  by_cases hlong : ∃ cs, arg.toList = '-' :: '-' :: cs
  · obtain ⟨cs, hcs⟩ := hlong
    refine ⟨{}, fun rest => ?_⟩
    cases cs with
    | nil => exact absurd (String.toList_injective hcs) hends
    | cons c cs =>
      rw [read.eq_def]
      simp [hcs]
  · refine ⟨{ operands := [arg] }, fun rest => ?_⟩
    have hno : ∀ c cs, arg.toList ≠ '-' :: c :: cs := by
      intro c cs hcs
      by_cases hc : c = '-'
      · exact hlong ⟨cs, hc ▸ hcs⟩
      · exact nomatch h.symm.trans (letters?_eq_some_iff.mpr ⟨c, cs, rfl, hc, hcs⟩)
    rw [read.eq_def]
    dsimp only
    split
    · next hcs => exact absurd hcs (hno _ _)
    · next hcs => exact absurd hcs (hno _ _)
    · next hcs => exact absurd hcs (hno _ _)
    · simp [followedBy]

theorem waits_iff (h : letters? arg = some cs) :
    waits valued arg = true ↔ ∃ l, tail valued cs = [l] := by
  simp [waits, h, List.length_eq_one_iff]

/-- An argument that does not wait for a value says the same whatever stands behind it. -/
theorem read_cons (hends : arg ≠ "--") (hwaits : waits valued arg = false) :
    ∃ o : Options, ∀ rest, read valued (arg :: rest) = o.followedBy (read valued rest) := by
  cases h : letters? arg with
  | none => exact read_cons_of_none h hends
  | some cs =>
    cases ht : tail valued cs with
    | nil => exact ⟨_, fun rest => by rw [read_cluster h, ht]⟩
    | cons l glued =>
      cases glued with
      | nil => exact absurd ((waits_iff h).mpr ⟨l, ht⟩) (by simp [hwaits])
      | cons c glued => exact ⟨_, fun rest => by rw [read_cluster h, ht]⟩

/-- A cluster that waits for its value says the same together with it whatever stands behind them.
-/
theorem read_cons_cons (hwaits : waits valued arg = true) (v : String) :
    ∃ o : Options, ∀ rest, read valued (arg :: v :: rest) = o.followedBy (read valued rest) := by
  cases h : letters? arg with
  | none => simp [waits, h] at hwaits
  | some cs =>
    obtain ⟨l, ht⟩ := (waits_iff h).mp hwaits
    refine ⟨{ flags := plain valued cs, values := [(l, v)] }, fun rest => ?_⟩
    rw [read_cluster h, ht]
    rfl

theorem ne_end_of_waits (h : waits valued arg = true) : arg ≠ "--" := by
  rintro rfl
  exact Bool.noConfusion (h : false = true)

theorem placeAfter_end (valued : List Char) (rest : List String) :
    placeAfter valued ("--" :: rest) = .operand := by
  have hstays : rest.foldl (Place.next valued) .operand = .operand := by
    induction rest with
    | nil => rfl
    | cons arg rest ih => exact ih
  exact hstays

theorem placeAfter_cons (hends : arg ≠ "--") (hwaits : waits valued arg = false)
    (rest : List String) : placeAfter valued (arg :: rest) = placeAfter valued rest := by
  simp [placeAfter, Place.next, hends, hwaits]

theorem placeAfter_cons_cons (hwaits : waits valued arg = true) (v : String) (rest : List String) :
    placeAfter valued (arg :: v :: rest) = placeAfter valued rest := by
  simp [placeAfter, Place.next, ne_end_of_waits hwaits, hwaits]

theorem placeAfter_singleton (hwaits : waits valued arg = true) :
    placeAfter valued [arg] = .value := by
  simp [placeAfter, Place.next, ne_end_of_waits hwaits, hwaits]

/-- Arguments from the left: where options are expected, an argument ends the options, waits for its
value, which may be missing, or stands by itself. -/
theorem argsInduction {P : List String → Prop} (valued : List Char) (nil : P [])
    (ends : ∀ rest, P ("--" :: rest)) (alone : ∀ arg, waits valued arg = true → P [arg])
    (value : ∀ arg v rest, waits valued arg = true → P rest → P (arg :: v :: rest))
    (step : ∀ arg rest, arg ≠ "--" → waits valued arg = false → P rest → P (arg :: rest)) :
    ∀ args, P args
  | [] => nil
  | arg :: rest => by
    by_cases hends : arg = "--"
    · subst hends
      exact ends rest
    · cases hwaits : waits valued arg with
      | false =>
        exact step arg rest hends hwaits (argsInduction valued nil ends alone value step rest)
      | true =>
        match rest with
        | [] => exact alone arg hwaits
        | v :: rest =>
          exact value arg v rest hwaits (argsInduction valued nil ends alone value step rest)

/-- The options for which arguments stand at a place. -/
def readAt (valued : List Char) : Place → List String → Options
  | .operand, rest => { operands := rest }
  | _, rest => read valued rest

/-- Arguments in two goes are read like arguments in one, if the second ones are read from their
place on. -/
theorem read_append (h : placeAfter valued front ≠ .value) (rest : List String) :
    read valued (front ++ rest) =
      (read valued front).followedBy (readAt valued (placeAfter valued front) rest) := by
  induction front using argsInduction valued with
  | nil => simp [placeAfter, readAt, read]
  | ends front =>
    rw [placeAfter_end, List.cons_append, read_end, read_end]
    simp [readAt, followedBy]
  | alone arg hwaits => exact absurd (placeAfter_singleton hwaits) h
  | value arg v front hwaits ih =>
    rw [placeAfter_cons_cons hwaits] at h ⊢
    obtain ⟨o, ho⟩ := read_cons_cons hwaits v
    rw [List.cons_append, List.cons_append, ho, ho, ih h, followedBy_assoc]
  | step arg front hends hwaits ih =>
    rw [placeAfter_cons hends hwaits] at h ⊢
    obtain ⟨o, ho⟩ := read_cons hends hwaits
    rw [List.cons_append, ho, ho, ih h, followedBy_assoc]

theorem read_append_of_option (h : placeAfter valued front = .option) (rest : List String) :
    read valued (front ++ rest) = (read valued front).followedBy (read valued rest) := by
  rw [read_append (by simp [h]), h, readAt]
  nofun

theorem not_mem_of_mem_plain (h : c ∈ plain valued cs) : c ∉ valued := by
  have hall : (plain valued cs).all (!valued.contains ·) = true := List.all_takeWhile
  simpa using List.all_eq_true.mp hall c h

theorem mem_of_tail_eq_cons {glued : List Char} (h : tail valued cs = c :: glued) : c ∈ valued := by
  have hc := List.head?_dropWhile_not (!valued.contains ·) cs
  rw [show cs.dropWhile (!valued.contains ·) = c :: glued from h] at hc
  simpa using hc

theorem letters?_single (h : c ≠ '-') : letters? (single c) = some [c] := by
  simp [letters?, single, h]

/-- A letter by itself is a flag, or it takes the next argument as its value. -/
theorem read_single (valued : List Char) (h : c ≠ '-') (rest : List String) :
    read valued (single c :: rest) =
      if c ∈ valued then followedBy { values := [(c, rest.headD "")] } (read valued rest.tail)
      else followedBy { flags := [c] } (read valued rest) := by
  rw [read_cluster (letters?_single h)]
  by_cases hc : c ∈ valued <;> simp [tail, plain, hc]

/-- Flags by themselves are read like a cluster of them. -/
theorem read_map_single {letters : List Char} (h : '-' ∉ letters)
    (hfree : ∀ c ∈ letters, c ∉ valued) (rest : List String) :
    read valued (letters.map single ++ rest) =
      followedBy { flags := letters } (read valued rest) := by
  induction letters with
  | nil => simp
  | cons c letters ih =>
    rw [List.mem_cons, not_or] at h
    rw [List.forall_mem_cons] at hfree
    rw [List.map_cons, List.cons_append, read_single valued (Ne.symm h.1), if_neg hfree.1,
      ih h.2 hfree.2]
    simp [followedBy]

/-- A cluster reads like its letters one by one. -/
theorem read_parts (hdash : '-' ∉ optionLetters valued arg) (rest : List String) :
    read valued (parts valued arg ++ rest) = read valued (arg :: rest) := by
  cases h : letters? arg with
  | none => simp [parts, h]
  | some cs =>
    simp only [optionLetters, h, List.mem_append, not_or] at hdash
    obtain ⟨hplain, hlast⟩ := hdash
    have hfree : ∀ c ∈ plain valued cs, c ∉ valued := fun c hc => not_mem_of_mem_plain hc
    have hflags := read_map_single hplain hfree
    simp only [parts, optionLetters, h, List.map_append, List.append_assoc, hflags, read_cluster h]
    cases ht : tail valued cs with
    | nil => rfl
    | cons l glued =>
      have hl : l ≠ '-' := by
        rintro rfl
        simp [ht] at hlast
      have hvalue := fun rest => read_single valued hl rest
      simp only [if_pos (mem_of_tail_eq_cons ht)] at hvalue
      cases glued with
      | nil => simp [hvalue, followedBy]
      | cons c glued => simp [hvalue, followedBy]

theorem apart_operand (valued : List Char) (rest : List String) :
    apart valued .operand rest = rest := by
  induction rest with
  | nil => rfl
  | cons arg rest ih => simp [apart, Place.next, ih]

theorem Undashed.head (h : Undashed valued (arg :: rest)) : '-' ∉ optionLetters valued arg :=
  h [] arg rest rfl rfl

theorem Undashed.of_append (front : List String) (h : Undashed valued (front ++ rest))
    (hplace : placeAfter valued front = .option) : Undashed valued rest := by
  rintro front' arg rest' rfl hplace'
  refine h (front ++ front') arg rest' (List.append_assoc _ _ _).symm ?_
  rw [placeAfter, List.foldl_append, ← placeAfter, hplace]
  exact hplace'

theorem undashed_of_forall (h : ∀ arg ∈ args, '-' ∉ optionLetters valued arg) :
    Undashed valued args := by
  rintro front arg rest rfl -
  exact h arg (by simp)

/-- Taking clusters apart changes nothing, by the places of the arguments from the left. -/
theorem read_apart (h : Undashed valued args) :
    read valued (apart valued .option args) = read valued args := by
  induction args using argsInduction valued with
  | nil => rfl
  | ends rest =>
    rw [apart, if_pos rfl, read_parts h.head]
    simp [Place.next, apart_operand]
  | alone arg hwaits => rw [apart, if_pos rfl, read_parts h.head, apart]
  | value arg v rest hwaits ih =>
    have hplace : placeAfter valued [arg, v] = .option := placeAfter_cons_cons hwaits v []
    have hrest := ih (.of_append [arg, v] h hplace)
    obtain ⟨o, ho⟩ := read_cons_cons hwaits v
    rw [apart, if_pos rfl, read_parts h.head]
    simp [Place.next, ne_end_of_waits hwaits, hwaits, apart, ho, hrest]
  | step arg rest hends hwaits ih =>
    have hplace : placeAfter valued [arg] = .option := placeAfter_cons hends hwaits []
    have hrest := ih (.of_append [arg] h hplace)
    obtain ⟨o, ho⟩ := read_cons hends hwaits
    rw [apart, if_pos rfl, read_parts h.head]
    simp [Place.next, hends, hwaits, ho, hrest]

theorem read_dash (valued : List Char) (rest : List String) :
    read valued ("-" :: rest) = followedBy { operands := ["-"] } (read valued rest) := by
  simp [read, followedBy]

/-- Taking the clusters apart changes nothing, and a letter by itself is a flag or takes the next
argument as its value. Behind two dashes that are no value all is left as it is, and a lone dash
that is no value is an operand. -/
theorem ofArgs_apart (valued : String) (args : List String) :
    (Undashed valued.toList args →
      ofArgs valued (apart valued.toList .option args) = ofArgs valued args) ∧
    (∀ front c rest, args = front ++ single c :: rest → c ≠ '-' →
      placeAfter valued.toList front = .option →
      ofArgs valued args = (ofArgs valued front).followedBy
        (if c ∈ valued.toList then
          followedBy { values := [(c, rest.headD "")] } (ofArgs valued rest.tail)
        else followedBy { flags := [c] } (ofArgs valued rest))) ∧
    (∀ front rest, args = front ++ "--" :: rest → placeAfter valued.toList front = .option →
      ofArgs valued args =
        { ofArgs valued front with operands := (ofArgs valued front).operands ++ rest }) ∧
    (∀ front rest, args = front ++ "-" :: rest → placeAfter valued.toList front ≠ .value →
      ∃ later, (ofArgs valued args).operands = (ofArgs valued front).operands ++ "-" :: later) := by
  refine ⟨read_apart, ?_, ?_, ?_⟩
  · rintro front c rest rfl hc hplace
    exact (read_append_of_option hplace _).trans (by rw [read_single _ hc]; rfl)
  · rintro front rest rfl hplace
    have hread := read_append_of_option hplace ("--" :: rest)
    rw [read_end] at hread
    exact hread.trans (by simp [followedBy, ofArgs])
  · rintro front rest rfl hplace
    rw [ofArgs, read_append hplace]
    cases hp : placeAfter valued.toList front with
    | value => exact absurd hp hplace
    | option =>
      rw [readAt, read_dash]
      · exact ⟨(read valued.toList rest).operands, rfl⟩
      · nofun
    | operand => exact ⟨rest, rfl⟩

/-- Two dashes and a number with a sign as values, and a cluster that is an operand. -/
theorem ofArgs_apart_values :
    Undashed "nk".toList ["-ab", "-xn-5", "-k", "--", "-", "-vk", "2", "--", "-q"] ∧
      ofArgs "nk" ["-a", "-b", "-x", "-n", "-5", "-k", "--", "-", "-v", "-k", "2", "--", "-q"] =
        { flags := ['a', 'b', 'x', 'v'], values := [('k', "2"), ('k', "--"), ('n', "-5")],
          operands := ["-", "-q"] } := by
  have hdash : Undashed "nk".toList ["-ab", "-xn-5", "-k", "--", "-", "-vk", "2", "--", "-q"] :=
    undashed_of_forall (by decide +kernel)
  obtain ⟨happart, -, -, -⟩ :=
    ofArgs_apart "nk" ["-ab", "-xn-5", "-k", "--", "-", "-vk", "2", "--", "-q"]
  refine ⟨hdash, ?_⟩
  have hparts :
      apart "nk".toList .option ["-ab", "-xn-5", "-k", "--", "-", "-vk", "2", "--", "-q"] =
        ["-a", "-b", "-x", "-n", "-5", "-k", "--", "-", "-v", "-k", "2", "--", "-q"] := by
    decide +kernel
  rw [← hparts, happart hdash]
  decide +kernel

end PocketUnix.Shell.Options
