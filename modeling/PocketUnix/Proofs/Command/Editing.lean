import PocketUnix.Command.Editing
import PocketUnix.Proofs.Command.Call
import PocketUnix.Proofs.Plan
import PocketUnix.Proofs.Tree.Added

/-!
# Plans of nodes to change

Once the operands of `mkdir`, `touch`, `rm`, `ln`, `chmod`, `chown`, `chgrp` or `shred` are
accepted, no step of the work that they ask for can fail, whatever the steps before it have done to
the tree.
-/

namespace PocketUnix.Editing

open PocketUnix.Action (KeepsOnFault)

/-- What is made for a name bears the name and has nothing in it. -/
structure Fresh (fresh : String → Node) : Prop where
  name_eq : ∀ name, (fresh name).name = name
  get?_cons : ∀ name x r, (fresh name).get? (x :: r) = none

theorem fresh_newDirectory (owner group : String) (now : DateTime) :
    Fresh fun name => .newDirectory name owner group now := ⟨fun _ => rfl, fun _ _ _ => rfl⟩

theorem fresh_newFile (owner group : String) (now : DateTime) (content : String) :
    Fresh fun name => .newFile name owner group now content := ⟨fun _ => rfl, fun _ _ _ => rfl⟩

variable {fresh : String → Node} {root : Node}

theorem create_child (command : String) (fresh : String → Node) (parent : Path) (name : String) :
    create command fresh (parent.child name) =
      Node.insertFor command (parent.child name).display parent (fresh name) := by
  simp only [create, Path.parent?_child, Path.name?_child]

/-- A new node can be put into a directory under a free name. -/
theorem create_of_isDirectoryAt (hf : Fresh fresh) (command : String) {parent : Path}
    {name : String} (hp : root.isDirectoryAt parent = true)
    (hn : root.contains (parent.child name) = false) :
    ∃ root', create command fresh (parent.child name) root = .ok () root' ∧
      Node.Added fresh (· = parent.child name) root root' := by
  obtain ⟨root', hi⟩ := Node.exists_insert hp (fresh name)
  refine ⟨root', ?_, Node.added_insert (hf.name_eq name) (hf.get?_cons name) hn hi⟩
  rw [create_child]
  exact Node.insertFor_ok hi command _

/-- The path is new, in the tree and in the plan, and its parent is a directory or planned to be
one. -/
def FollowsOn (root : Node) (planned : List Path) (p : Path) : Prop :=
  ∃ (parent : Path) (name : String), p = parent.child name ∧ root.contains p = false ∧
    p ∉ planned ∧ (root.isDirectoryAt parent = true ∨ parent ∈ planned)

/-- Directories can be made at the paths one after the other. -/
inductive Buildable (root : Node) : List Path → Prop
  | nil : Buildable root []
  | concat {planned : List Path} {p : Path} (before : Buildable root planned)
      (last : FollowsOn root planned p) : Buildable root (planned ++ [p])

/-- A path more can be built behind the others if it follows on the tree and on them. -/
theorem buildable_concat_iff {planned : List Path} {p : Path} :
    Buildable root (planned ++ [p]) ↔ Buildable root planned ∧ FollowsOn root planned p := by
  constructor
  · intro h
    generalize hpaths : planned ++ [p] = paths at h
    cases h with
    | nil => exact absurd hpaths (by simp)
    | concat before last =>
      obtain ⟨rfl, rfl⟩ := List.append_singleton_inj.mp hpaths
      exact ⟨before, last⟩
  · exact fun h => .concat h.1 h.2

/-- What can be built is built. -/
theorem Buildable.added {planned : List Path} (h : Buildable root planned) (hf : Fresh fresh)
    (hd : ∀ name, (fresh name).isDirectory = true) :
    ∃ root', planned.forM (create "mkdir" fresh) root = .ok () root' ∧
      Node.Added fresh (· ∈ planned) root root' := by
  induction h with
  | nil => exact ⟨root, rfl, (Node.added_none fresh root).congr (by simp)⟩
  | @concat planned p before last ih =>
    obtain ⟨mid, hmid, hmade⟩ := ih
    obtain ⟨parent, name, rfl, hfree, hnew, hparent⟩ := last
    have hparent : mid.isDirectoryAt parent = true := by
      rcases hparent with hold | hplanned
      · exact hmade.isDirectoryAt_of_old hd hold
      · exact hmade.isDirectoryAt hd hplanned
    have hfree : mid.contains (parent.child name) = false := by
      rw [hmade.contains_of_not_new hnew, hfree]
    obtain ⟨root', hroot, hlast⟩ := create_of_isDirectoryAt hf "mkdir" hparent hfree
    refine ⟨root', by rw [Action.forM_concat, hmid]; exact hroot, ?_⟩
    exact (hmade.trans hlast).congr (by simp)

/-- A path is planned just if it follows on the plan before it. -/
theorem planNew_eq_ok_iff {planned planned' : List Path} {p : Path} :
    planNew root planned p = .ok planned' ↔
      FollowsOn root planned p ∧ planned' = planned ++ [p] := by
  by_cases hp : p = []
  · subst hp
    constructor
    · nofun
    · rintro ⟨⟨parent, name, hchild, -⟩, -⟩
      exact absurd hchild.symm (Path.child_ne_nil parent name)
  · obtain ⟨parent, name, rfl⟩ := Path.exists_eq_child hp
    simp only [planNew, Path.parent?_child]
    constructor
    · intro h
      split at h
      · cases h
      · next hnew =>
        split at h
        · next hparent =>
          cases h
          simp only [Bool.or_eq_true, decide_eq_true_eq, not_or, Bool.not_eq_true] at hnew hparent
          exact ⟨⟨parent, name, rfl, hnew.1, hnew.2, hparent⟩, rfl⟩
        · cases h
    · rintro ⟨⟨parent', name', hchild, hfree, hnew, hparent⟩, rfl⟩
      obtain ⟨rfl, rfl⟩ := Path.child_injective hchild
      simp [hfree, hnew, hparent]

/-- Paths that are added one by one are planned as they are. -/
theorem foldlM_planNew_eq_ok_iff {paths planned : List Path} :
    paths.foldlM (planNew root) [] = .ok planned ↔ Buildable root paths ∧ planned = paths := by
  induction paths using List.reverseRecOn generalizing planned with
  | nil =>
    rw [List.foldlM_nil]
    constructor
    · rintro ⟨⟩
      exact ⟨.nil, rfl⟩
    · rintro ⟨-, rfl⟩
      rfl
  | append_singleton paths p ih =>
    rw [Plan.foldlM_concat_eq_ok_iff, buildable_concat_iff]
    constructor
    · rintro ⟨before, hbefore, hlast⟩
      obtain ⟨hpaths, rfl⟩ := ih.mp hbefore
      obtain ⟨hfollows, rfl⟩ := planNew_eq_ok_iff.mp hlast
      exact ⟨⟨hpaths, hfollows⟩, rfl⟩
    · rintro ⟨⟨hpaths, hfollows⟩, rfl⟩
      exact ⟨paths, ih.mpr ⟨hpaths, rfl⟩, planNew_eq_ok_iff.mpr ⟨hfollows, rfl⟩⟩

/-- The way to a child goes one step further than the way to its parent. -/
theorem prefixes_child (p : Path) (name : String) :
    prefixes (p.child name) = prefixes p ++ [p.child name] := by
  simp only [prefixes, Path.child, List.length_append, List.length_singleton, List.range_succ,
    List.map_append, List.map_cons, List.map_nil]
  congr 1
  · refine List.map_congr_left fun k hk => ?_
    exact List.take_append_of_le_length (List.mem_range.mp hk)
  · simp [List.take_of_length_le]

/-- The paths on the way are the path itself and those above it, but not the root. -/
theorem mem_prefixes {p way : Path} : way ∈ prefixes p ↔ way ≠ [] ∧ way <+: p := by
  induction p using Path.childInduction with
  | root => simp [prefixes]
  | child parent name ih =>
    rw [prefixes_child, List.mem_append, List.mem_singleton, ih, Path.prefix_child_iff]
    constructor
    · rintro (⟨hne, hway⟩ | rfl)
      · exact ⟨hne, .inl hway⟩
      · exact ⟨Path.child_ne_nil parent name, .inr rfl⟩
    · rintro ⟨hne, hway | rfl⟩
      · exact .inl ⟨hne, hway⟩
      · exact .inr rfl

/-- Nothing but a directory stands at the path. -/
def Passable (root : Node) (way : Path) : Prop :=
  root.contains way = true → root.isDirectoryAt way = true

/-- The plan with a path on a way, if that is missing. -/
def withWay (root : Node) (planned : List Path) (way : Path) : List Path :=
  if root.contains way || planned.contains way then planned else planned ++ [way]

theorem withWay_of_known {planned : List Path} {way : Path}
    (h : root.contains way = true ∨ way ∈ planned) : withWay root planned way = planned :=
  if_pos (by simpa using h)

theorem withWay_of_missing {planned : List Path} {way : Path}
    (h : ¬(root.contains way = true ∨ way ∈ planned)) :
    withWay root planned way = planned ++ [way] :=
  if_neg (by simpa using h)

theorem planWay_eq_ok_iff {planned planned' : List Path} {p : Path} :
    planWay root planned p = .ok planned' ↔
      (∀ way ∈ prefixes p, Passable root way) ∧
        planned' = (prefixes p).foldl (withWay root) planned := by
  refine Plan.foldlM_eq_ok_iff fun planned way planned' => ?_
  unfold Passable withWay Node.contains Node.isDirectoryAt
  cases hn : root.get? way with
  | none => simp [eq_comm (a := planned')]
  | some n => cases hd : n.isDirectory <;> simp [hd, eq_comm (a := planned')]

theorem foldlM_planWay_eq_ok_iff {paths planned planned' : List Path} :
    paths.foldlM (planWay root) planned = .ok planned' ↔
      (∀ way ∈ paths.flatMap prefixes, Passable root way) ∧
        planned' = (paths.flatMap prefixes).foldl (withWay root) planned := by
  rw [List.forall_mem_flatMap, List.foldl_flatMap]
  refine Plan.foldlM_eq_ok_iff fun before p after => ?_
  exact planWay_eq_ok_iff

/-- A path on a way is added to the plan if nothing stands there. -/
theorem mem_withWay {planned : List Path} {way q : Path} :
    q ∈ withWay root planned way ↔ q ∈ planned ∨ q = way ∧ root.contains q = false := by
  by_cases hknown : root.contains way = true ∨ way ∈ planned
  · rw [withWay_of_known hknown]
    refine ⟨.inl, fun h => h.elim id ?_⟩
    rintro ⟨rfl, hmissing⟩
    exact hknown.resolve_left (by simp [hmissing])
  · rw [withWay_of_missing hknown, List.mem_append, List.mem_singleton]
    refine or_congr_right ⟨?_, And.left⟩
    rintro rfl
    exact ⟨rfl, Bool.eq_false_iff.mpr (not_or.mp hknown).1⟩

/-- What is missing on the ways is planned. -/
theorem mem_foldl_withWay {ways planned : List Path} {q : Path} :
    q ∈ ways.foldl (withWay root) planned ↔
      q ∈ planned ∨ q ∈ ways ∧ root.contains q = false := by
  induction ways generalizing planned with
  | nil => simp
  | cons way ways ih =>
    rw [List.foldl_cons, ih, mem_withWay, or_assoc, ← or_and_right, List.mem_cons]

/-- A plan goes on with all that is missing on a way: what the next directory stands in is the root,
a directory, or missing as well and planned before. -/
theorem Buildable.way {planned : List Path} (h : Buildable root planned)
    (hroot : root.isDirectory = true) {p : Path} (hpass : ∀ way ∈ prefixes p, Passable root way) :
    Buildable root ((prefixes p).foldl (withWay root) planned) := by
  induction p using Path.childInduction with
  | root => exact h
  | child parent name ih =>
    have habove : ∀ way ∈ prefixes parent, Passable root way := fun way hway =>
      hpass way (by rw [prefixes_child]; exact List.mem_append_left _ hway)
    have hmid := ih habove
    rw [prefixes_child, List.foldl_append, List.foldl_cons, List.foldl_nil]
    generalize hplan : (prefixes parent).foldl (withWay root) planned = plan at hmid
    by_cases hknown : root.contains (parent.child name) = true ∨ parent.child name ∈ plan
    · rwa [withWay_of_known hknown]
    · rw [withWay_of_missing hknown]
      obtain ⟨hmissing, hnew⟩ := not_or.mp hknown
      refine hmid.concat ⟨parent, name, rfl, Bool.eq_false_iff.mpr hmissing, hnew, ?_⟩
      by_cases hparent : parent = []
      · subst hparent
        exact .inl hroot
      · have hway : parent ∈ prefixes parent := mem_prefixes.mpr ⟨hparent, List.prefix_rfl⟩
        cases hthere : root.contains parent with
        | true => exact .inl (habove parent hway hthere)
        | false => exact .inr (hplan ▸ mem_foldl_withWay.mpr (.inr ⟨hway, hthere⟩))

/-- Ways one after the other: a plan goes on with all that is missing on any of them. -/
theorem Buildable.ways {planned : List Path} (h : Buildable root planned)
    (hroot : root.isDirectory = true) {paths : List Path}
    (hpass : ∀ way ∈ paths.flatMap prefixes, Passable root way) :
    Buildable root ((paths.flatMap prefixes).foldl (withWay root) planned) := by
  induction paths generalizing planned with
  | nil => exact h
  | cons p paths ih =>
    rw [List.flatMap_cons, List.forall_mem_append] at hpass
    rw [List.flatMap_cons, List.foldl_append]
    exact ih (h.way hroot hpass.1) hpass.2

/-- The paths of the operands, in their order. -/
def named (o : Shell.Options) (m : Machine) : List Path := o.operands.map m.resolve

/-- All that is on the ways to the operands. -/
def ways (o : Shell.Options) (m : Machine) : List Path := (named o m).flatMap prefixes

/-- What is planned, and when: with the letter `p` what is missing on the ways, and else the
operands. -/
theorem planMkdir_eq_ok_iff {o : Shell.Options} {m : Machine} {planned : List Path} :
    planMkdir o m = .ok planned ↔ named o m ≠ [] ∧
      if o.has 'p' then (∀ way ∈ ways o m, Passable m.root way) ∧
        planned = (ways o m).foldl (withWay m.root) []
      else Buildable m.root (named o m) ∧ planned = named o m := by
  unfold planMkdir
  by_cases hempty : o.operands = []
  · rw [if_pos (by simp [hempty])]
    simp [named, hempty]
  · rw [if_neg (by simpa using hempty), and_iff_right (by simpa [named] using hempty)]
    have hmap (plan : List Path → Path → Except Fault (List Path)) :
        o.operands.foldlM (fun planned operand => plan planned (m.resolve operand)) [] =
          (named o m).foldlM plan [] := (List.foldlM_map ..).symm
    rw [hmap]
    split
    · exact foldlM_planWay_eq_ok_iff
    · exact foldlM_planNew_eq_ok_iff

/-- The directories of a plan can be made in its order. -/
theorem buildable_planMkdir {o : Shell.Options} {m : Machine} (hroot : m.root.isDirectory = true)
    {planned : List Path} (h : planMkdir o m = .ok planned) : Buildable m.root planned := by
  obtain ⟨-, h⟩ := planMkdir_eq_ok_iff.mp h
  split at h
  · obtain ⟨hpass, rfl⟩ := h
    exact Buildable.nil.ways hroot hpass
  · obtain ⟨hbuildable, rfl⟩ := h
    exact hbuildable

/-- Under a root that is no directory nothing can be made. -/
theorem create_of_not_directory (hroot : root.isDirectory = false) (command : String) (p : Path) :
    create command fresh p root = .ok () root ∨
      ∃ fault, create command fresh p root = .error fault root := by
  by_cases hp : p = []
  · subst hp
    exact .inl rfl
  · obtain ⟨parent, name, rfl⟩ := Path.exists_eq_child hp
    simp only [create, Path.parent?_child, Path.name?_child]
    obtain ⟨fault, h⟩ := Node.insert_of_not_directory hroot parent (fresh name)
    exact .inr ⟨_, Node.insertFor_error h command _⟩

/-- What has been planned is built, so that a fault is one of the plan. -/
theorem keepsOnFault_mkdir (c : Call) (m : Machine) : KeepsOnFault (mkdir c m) m.root := by
  refine Action.keepsOnFault_planned fun planned hplan => ?_
  cases hroot : m.root.isDirectory with
  | true =>
    obtain ⟨root', hmake, -⟩ := (buildable_planMkdir hroot hplan).added
      (fresh_newDirectory m.user m.group c.now) fun _ => rfl
    exact Action.Succeeds.keepsOnFault ⟨(), root', hmake⟩
  | false =>
    exact Action.keepsOnFault_forM_of_still fun p _ => create_of_not_directory hroot "mkdir" p

/-- A file may be touched at the root or in a directory that is there. -/
def Touchable (root : Node) (p : Path) : Prop :=
  p = [] ∨ ∃ (parent : Path) (name : String), p = parent.child name ∧
    root.isDirectoryAt parent = true

/-- What passes the check of `touch` can be touched. -/
theorem touchable_of_plan {m : Machine} {operand : String} {p : Path}
    (h : touchable m operand = .ok p) : Touchable m.root p := by
  unfold touchable at h
  cases hp : m.root.parentDirectory (m.resolve operand) with
  | ok parent =>
    simp only [hp, Except.ok.injEq] at h
    subst h
    obtain ⟨⟨name, he⟩, hd⟩ := Node.parentDirectory_eq_ok_iff.mp hp
    exact .inr ⟨parent, name, he, hd⟩
  | error fault =>
    cases fault with
    | root =>
      simp only [hp, Except.ok.injEq] at h
      subst h
      exact .inl (Node.eq_nil_of_parentDirectory hp)
    | parentMissing => simp [hp] at h
    | notADirectory => simp [hp] at h
    | isADirectory => simp [hp] at h
    | missing => simp [hp] at h

/-- Touching takes no directory away. -/
theorem touchOne_of_touchable (c : Call) (m : Machine) {p : Path} (h : Touchable root p) :
    ∃ root', touchOne c m p root = .ok () root' ∧
      ∀ q, root.isDirectoryAt q = true → root'.isDirectoryAt q = true := by
  unfold touchOne
  cases hc : root.contains p with
  | true =>
    refine ⟨_, rfl, fun q hq => ?_⟩
    rw [Node.isDirectoryAt_congr (Node.shapeAt_modify_touch c.now root p q), hq]
  | false =>
    rcases h with rfl | ⟨parent, name, rfl, hp⟩
    · cases hc
    · obtain ⟨root', hroot, hadded⟩ := create_of_isDirectoryAt
        (fresh_newFile m.user m.group c.now "") "touch" hp hc
      refine ⟨root', hroot, fun q hq => ?_⟩
      have hne : q ≠ parent.child name := by
        rintro rfl
        rw [Node.contains_of_isDirectoryAt hq] at hc
        cases hc
      rw [Node.isDirectoryAt_congr_bareAt (hadded.kept q hne), hq]

theorem after_touchOne (c : Call) (m : Machine) (p : Path) (root : Node) :
    (touchOne c m p).after root =
      if root.contains p = true then root.modify (.touch c.now) p
      else (create "touch" (fun name => .newFile name m.user m.group c.now "") p).after root := by
  simp only [touchOne, Action.after]
  cases root.contains p <;> rfl

/-- Touching one file leaves all others touchable, as it takes no directory away. -/
theorem keepsOnFault_touch (c : Call) (m : Machine) : KeepsOnFault (touch c m) m.root := by
  refine Action.keepsOnFault_planned fun paths hplan => ?_
  have hpaths : ∀ p ∈ paths, Touchable m.root p := by
    unfold planTouch at hplan
    split at hplan
    · cases hplan
    · intro p hp
      obtain ⟨operand, -, h⟩ := Plan.exists_of_mem_mapM hplan hp
      exact touchable_of_plan h
  refine (Action.succeeds_forM_of_invariant (I := fun rest root => ∀ p ∈ rest, Touchable root p)
    (fun p rest root hI => ?_) paths m.root hpaths).keepsOnFault
  obtain ⟨root', hroot, hkeep⟩ := touchOne_of_touchable c m (hI p List.mem_cons_self)
  refine ⟨root', hroot, fun q hq => ?_⟩
  rcases hI q (List.mem_cons_of_mem p hq) with rfl | ⟨parent, name, rfl, hd⟩
  · exact .inl rfl
  · exact .inr ⟨parent, name, rfl, hkeep parent hd⟩

section Removing

variable {m : Machine} {o : Shell.Options} {doomed : List Path}

/-- The path may be named: the root never, a directory if the removal goes further, and what is
missing if that is to be no fault. -/
structure Accepted (root : Node) (recursive force : Bool) (p : Path) : Prop where
  ne_root : p ≠ []
  directory : root.isDirectoryAt p = true → recursive = true
  missing : root.contains p = false → force = true

/-- An operand passes just if its path may be named, and it is removed if something stands there. -/
theorem removable_eq_ok_iff {recursive force : Bool} {operand : String} {p? : Option Path} :
    removable m recursive force operand = .ok p? ↔
      Accepted m.root recursive force (m.resolve operand) ∧
        p? = Option.guard m.root.contains (m.resolve operand) := by
  unfold removable
  generalize m.resolve operand = p
  dsimp only
  cases hn : m.root.get? p with
  | none =>
    have hmissing : m.root.contains p = false := by simp [Node.contains, hn]
    have hplain : m.root.isDirectoryAt p = false := by simp [Node.isDirectoryAt, hn]
    have hp : p ≠ [] := by
      rintro rfl
      cases hn
    constructor
    · intro h
      cases force with
      | false => cases h
      | true =>
        cases h
        exact ⟨⟨hp, by simp [hplain], fun _ => rfl⟩, by simp [Option.guard, hmissing]⟩
    · rintro ⟨haccepted, rfl⟩
      simp [haccepted.missing hmissing, Option.guard, hmissing]
  | some n =>
    have hfound : m.root.contains p = true := by simp [Node.contains, hn]
    have hdirectory : m.root.isDirectoryAt p = n.isDirectory := by simp [Node.isDirectoryAt, hn]
    have hguard : Option.guard m.root.contains p = some p := by simp [Option.guard, hfound]
    rw [hguard]
    constructor
    · intro h
      dsimp only at h
      split at h
      · cases h
      · next hroot =>
        split at h
        · cases h
        · next hfurther =>
          cases h
          refine ⟨⟨by simpa using hroot, fun hd => ?_, by simp [hfound]⟩, rfl⟩
          simpa [← hdirectory, hd] using hfurther
    · rintro ⟨haccepted, rfl⟩
      have hroot : p.isEmpty = false := by simpa using haccepted.ne_root
      have hfurther : (n.isDirectory && !recursive) = false := by
        cases hd : n.isDirectory with
        | false => rfl
        | true => simp [haccepted.directory (hdirectory.trans hd)]
      simp [hroot, hfurther]

/-- Accepted or not depends on the paths alone, and those that are there are removed. -/
theorem planRm_eq_ok_iff :
    planRm o m = .ok doomed ↔
      (named o m = [] → o.has 'f' = true) ∧
        (∀ p ∈ named o m, Accepted m.root (o.has 'r' || o.has 'R') (o.has 'f') p) ∧
          doomed = (named o m).filter m.root.contains := by
  unfold planRm named
  dsimp only
  cases hoperands : o.operands with
  | nil =>
    cases o.has 'f' with
    | false => simp
    | true => simp [eq_comm]
  | cons operand rest =>
    rw [List.isEmpty_cons, if_neg Bool.false_ne_true, Plan.bind_eq_ok_iff]
    simp only [Plan.mapM_eq_ok_iff fun _ _ => removable_eq_ok_iff]
    have hfilter : ((operand :: rest).map fun operand =>
        Option.guard m.root.contains (m.resolve operand)).filterMap id =
          ((operand :: rest).map m.resolve).filter m.root.contains := by
      rw [← List.filterMap_eq_filter, List.filterMap_map, List.filterMap_map]
      rfl
    constructor
    · rintro ⟨found, ⟨haccepted, rfl⟩, h⟩
      rw [hfilter] at h
      cases h
      exact ⟨by simp, by simpa using haccepted, rfl⟩
    · rintro ⟨-, haccepted, rfl⟩
      exact ⟨_, ⟨by simpa using haccepted, rfl⟩, by rw [hfilter]⟩

/-- What stands in front of a path is a directory, or has gone. -/
def Removable (root : Node) (p : Path) : Prop :=
  ∃ (parent : Path) (name : String), p = parent.child name ∧ root.shapeAt parent ≠ some false

/-- A removal cannot fail on what has gone, and turns no directory into anything else. -/
theorem removeOne_of_removable {p : Path} (h : Removable root p) :
    ∃ root', removeOne p root = .ok () root' ∧
      ∀ q, root'.shapeAt q = none ∨ root'.shapeAt q = root.shapeAt q := by
  obtain ⟨parent, name, rfl, hparent⟩ := h
  have hremove := Node.remove_child root parent name
  unfold removeOne
  split at hremove
  · next hfile => exact absurd hfile hparent
  · cases hn : root.get? (parent.child name) with
    | none =>
      simp only [hn] at hremove
      exact ⟨root, by simp only [hremove], fun _ => .inr rfl⟩
    | some n =>
      simp only [hn] at hremove
      exact ⟨_, by simp only [hremove], Node.shapeAt_remove_or hremove⟩

theorem after_removeOne (p : Path) (root : Node) :
    (removeOne p).after root =
      match root.remove p with
      | .ok (_, rest) => rest
      | .error _ => root := by
  simp only [removeOne, Action.after]
  cases root.remove p with
  | ok r => rfl
  | error fault => cases fault <;> rfl

/-- A relation that is kept by each removal is also kept where nothing is left to remove. -/
theorem within_removeOne_of {R : Node → Node → Prop} [IsPreorder Node R] {p : Path}
    (h : ∀ root n root', root.remove p = .ok (n, root') → R root root') :
    Action.Within R (removeOne p) := by
  intro root
  rw [after_removeOne]
  cases hremove : root.remove p with
  | ok r => exact h root r.1 r.2 hremove
  | error fault => exact refl_of R root

/-- A removal leaves what can be removed as such. -/
theorem succeeds_forM_removeOne (h : ∀ p ∈ doomed, Removable root p) :
    Action.Succeeds (doomed.forM removeOne) root := by
  refine Action.succeeds_forM_of_invariant (I := fun rest root => ∀ p ∈ rest, Removable root p)
    (fun p rest root hI => ?_) doomed root h
  obtain ⟨root', hroot, hshape⟩ := removeOne_of_removable (hI p List.mem_cons_self)
  refine ⟨root', hroot, fun q hq => ?_⟩
  obtain ⟨parent, name, rfl, hparent⟩ := hI q (List.mem_cons_of_mem p hq)
  refine ⟨parent, name, rfl, ?_⟩
  rcases hshape parent with hs | hs
  · simp [hs]
  · rwa [hs]

/-- All that was accepted can be removed. -/
theorem removable_of_planRm (h : planRm o m = .ok doomed) :
    ∀ p ∈ doomed, Removable m.root p := by
  obtain ⟨-, haccepted, rfl⟩ := planRm_eq_ok_iff.mp h
  intro p hp
  obtain ⟨hnamed, hthere⟩ := List.mem_filter.mp hp
  obtain ⟨parent, name, rfl⟩ := Path.exists_eq_child (haccepted p hnamed).ne_root
  have hparent := Node.isDirectoryAt_of_child hthere
  exact ⟨parent, name, rfl, by simp [Node.isDirectoryAt_iff.mp hparent]⟩

/-- Without being told to go further, `rm` accepts no directory. -/
theorem not_directory_of_planRm (h : planRm o m = .ok doomed)
    (hr : (o.has 'r' || o.has 'R') = false) : ∀ p ∈ doomed, m.root.isDirectoryAt p = false := by
  obtain ⟨-, haccepted, rfl⟩ := planRm_eq_ok_iff.mp h
  intro p hp
  have hfurther := (haccepted p (List.mem_filter.mp hp).1).directory
  rw [hr] at hfurther
  simpa using hfurther

end Removing

theorem keepsOnFault_rm (c : Call) (m : Machine) : KeepsOnFault (rm c m) m.root :=
  Action.keepsOnFault_planned fun _ hplan =>
    (succeeds_forM_removeOne (removable_of_planRm hplan)).keepsOnFault

/-- A link is a new one, or a node that is no directory, under another name. -/
theorem linkNode_ok {c : Call} {m : Machine} {kind : LinkKind} {target name : String} {n : Node}
    (h : linkNode c m kind target name = .ok n) :
    n = .newLink name m.user m.group c.now target ∨
      ∃ p old, m.root.get? p = some old ∧ old.isDirectory = false ∧ n = old.renamed name := by
  unfold linkNode at h
  split at h
  · cases h
    exact .inl rfl
  · split at h
    · cases h
    · next old hold =>
      split at h
      · cases h
      · next hd =>
        cases h
        exact .inr ⟨m.resolve target, old, hold, by simpa using hd, rfl⟩

/-- An accepted link has a directory to stand in. -/
theorem planLn_ok {c : Call} {m : Machine} {kind : LinkKind} {force : Bool} {target link : String}
    {parent : Path} {n : Node} (h : planLn c m kind force target link = .ok (parent, n)) :
    m.root.isDirectoryAt parent = true ∧ ∃ name, linkNode c m kind target name = .ok n := by
  unfold planLn at h
  dsimp only at h
  split at h
  · next above name hparent _ =>
    split at h
    · cases h
    · obtain ⟨k, hk, he⟩ := Plan.map_eq_ok_iff.mp h
      cases he
      exact ⟨(Node.parentDirectory_eq_ok_iff.mp hparent).2, name, hk⟩
  · cases h

/-- Nothing is put into the tree before the link and its directory are known. -/
theorem keepsOnFault_ln (c : Call) (m : Machine) : KeepsOnFault (ln c m) m.root := by
  unfold ln
  dsimp only
  split
  · refine Action.keepsOnFault_ofExcept_bind fun plan _ => ?_
    exact KeepsOnFault.bind_pure (Node.keepsOnFault_insertFor _ _ _ _ _) fun _ => Reply.empty
  · exact Action.keepsOnFault_fail _ _

theorem succeeds_forM_change {α σ : Type} (f : α → σ → σ) (l : List α) (s : σ) :
    Action.Succeeds (l.forM fun a => .change (f a)) s := by
  exact Action.succeeds_forM_of_invariant (I := fun _ _ => True)
    (fun a _ s _ => ⟨f a s, rfl, trivial⟩) l s trivial

theorem keepsOnFault_chmod (c : Call) (m : Machine) : KeepsOnFault (chmod c m) m.root := by
  exact Action.keepsOnFault_planned fun updates _ => (succeeds_forM_change _ _ _).keepsOnFault

theorem keepsOnFault_chown (groupOnly : Bool) (c : Call) (m : Machine) :
    KeepsOnFault (chown groupOnly c m) m.root := by
  refine Action.keepsOnFault_ofExcept_bind fun plan _ => ?_
  exact KeepsOnFault.bind_pure (succeeds_forM_change _ _ _).keepsOnFault fun _ => Reply.empty

/-- The paths differ and lead to files or links. -/
def Shreddable (root : Node) (doomed : List Path) : Prop :=
  doomed.Nodup ∧ ∀ p ∈ doomed, root.shapeAt p = some false

/-- The files that are to be shredded differ, as a file that is named twice is planned once. -/
theorem shreddable_of_plan {o : Shell.Options} {m : Machine} {report : List String}
    {doomed : List Path} (h : planShred o m = .ok (report, doomed)) : Shreddable m.root doomed := by
  unfold planShred at h
  split at h
  · cases h
  · refine Plan.foldlM_invariant (I := fun _ done => Shreddable m.root done.2)
      (fun _ done operand next hdone hone => ?_) ⟨List.nodup_nil, fun p hp => by cases hp⟩ h
    obtain ⟨lines, before⟩ := done
    unfold shredOne at hone
    dsimp only at hone
    split at hone
    · next attributes content hn =>
      split at hone
      · next hnew =>
        cases hone
        simp only [Bool.and_eq_true, decide_eq_true_eq] at hnew
        refine ⟨List.nodup_append.mpr ⟨hdone.1, by simp, ?_⟩, fun p hp => ?_⟩
        · rintro p hp q hq rfl
          exact hnew.2 (List.mem_singleton.mp hq ▸ hp)
        · rcases List.mem_append.mp hp with hp | hp
          · exact hdone.2 p hp
          · rw [List.mem_singleton.mp hp, Node.shapeAt, hn]
            rfl
      · cases hone
        exact hdone
    · cases hone

theorem Shreddable.exists_remove {p : Path} {rest : List Path}
    (h : Shreddable root (p :: rest)) (hp : p ≠ []) :
    ∃ n root', root.remove p = .ok (n, root') := by
  have hfile := h.2 p List.mem_cons_self
  obtain ⟨parent, name, rfl⟩ := Path.exists_eq_child hp
  cases hn : root.get? (parent.child name) with
  | none => simp [Node.shapeAt, hn] at hfile
  | some n => exact ⟨n, _, Node.remove_eq_ok_iff.mpr ⟨parent, name, rfl, hn, rfl⟩⟩

/-- A file is not on the way to another one. -/
theorem Shreddable.tail {n root' : Node} {p : Path} {rest : List Path}
    (h : Shreddable root (p :: rest)) (hr : root.remove p = .ok (n, root')) :
    Shreddable root' rest := by
  obtain ⟨hnodup, hfile⟩ := h
  obtain ⟨hnew, hnodup⟩ := List.nodup_cons.mp hnodup
  refine ⟨hnodup, fun q hq => ?_⟩
  have hqf := hfile q (List.mem_cons_of_mem p hq)
  rw [Node.shapeAt_remove hr ?_, hqf]
  intro hpq
  have hd := Node.isDirectoryAt_of_prefix (by rw [Node.contains_eq, hqf]; rfl) hpq
    (fun he => hnew (he ▸ hq))
  rw [Node.isDirectoryAt_iff, hfile p List.mem_cons_self] at hd
  cases hd

/-- A file that is removed was not on the way to another one, and so the others are still there. -/
theorem keepsOnFault_shred (c : Call) (m : Machine) : KeepsOnFault (shred c m) m.root := by
  refine Action.keepsOnFault_ofExcept_bind fun plan hplan => ?_
  refine KeepsOnFault.bind_pure ?_ fun _ => Reply.lines plan.1
  have hdoomed : Shreddable m.root plan.2 := shreddable_of_plan hplan
  cases hroot : m.root.isDirectory with
  | true =>
    have hne : [] ∉ plan.2 := by
      intro h
      have := hdoomed.2 [] h
      simp [Node.shapeAt, hroot] at this
    refine (Action.succeeds_forM_of_invariant
      (I := fun rest root => [] ∉ rest ∧ Shreddable root rest) (fun p rest root hI => ?_)
      plan.2 m.root ⟨hne, hdoomed⟩).keepsOnFault
    obtain ⟨hp, hrest⟩ := not_or.mp (List.mem_cons.not.mp hI.1)
    obtain ⟨n, root', hr⟩ := hI.2.exists_remove (Ne.symm hp)
    refine ⟨root', ?_, hrest, hI.2.tail hr⟩
    rw [Action.discard_apply, Node.removeFor_ok hr]
  | false =>
    -- The root is the only node, so that the first removal is refused.
    refine Action.keepsOnFault_forM_of_still fun p hp => .inr ?_
    have hnil : p = [] := by
      cases p with
      | nil => rfl
      | cons x r =>
        have := hdoomed.2 _ hp
        simp [Node.shapeAt, Node.get?_cons_of_not_directory hroot] at this
    subst hnil
    exact ⟨_, by rw [Action.discard_apply, Node.removeFor_error rfl]⟩

end PocketUnix.Editing
