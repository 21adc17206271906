import Mathlib.Data.List.Nodup
import PocketUnix.Proofs.Command.Call
import PocketUnix.Proofs.Command.Job
import PocketUnix.Proofs.Plan
import PocketUnix.Proofs.Sample
import PocketUnix.Proofs.Tree.Bare

/-!
# Files that are compressed

`gzip` and its kin accept all of their operands before they rename the first of them, but they do
not ask whether a new name is free. What stands under it gives way: a file that was not named is
lost, and where a directory was, everything in it is, and a later operand may be missed. Just when
each new name is free, or is left in time, all is renamed and nothing is lost.
-/

namespace PocketUnix

open PocketUnix.Path (Apart)

theorem Chars.eq_append_of_stripEnd? {tail s stem : List Char} (h : stripEnd? tail s = some stem) :
    s = stem ++ tail :=
  (List.isSuffixOf?_eq_some_iff_append_eq.mp h).symm

theorem Text.eq_append_of_stripEnd? {tail s stem : String} (h : stripEnd? tail s = some stem) :
    s = stem ++ tail := by
  obtain ⟨cs, hcs, rfl⟩ := Option.map_eq_some_iff.mp h
  rw [← String.toList_inj, Chars.eq_append_of_stripEnd? hcs]
  simp

namespace Archive

/-- The one name is the other one with the suffix. -/
def Renamed (suffix : String) (direction : Direction) (old new : String) : Prop :=
  match direction with
  | .compress => new = old ++ suffix
  | .expand => old = new ++ suffix

/-- A new name is only given to a name that can have it. -/
theorem renamed_of_newName {c : Call} {suffix operand old new : String} {direction : Direction}
    (h : newName c suffix direction operand old = .ok new) : Renamed suffix direction old new := by
  unfold newName at h
  cases direction with
  | compress =>
    dsimp only at h
    split at h <;> cases h
    rfl
  | expand =>
    dsimp only at h
    split at h
    · cases h
    · next hstem =>
      split at h <;> cases h
      exact Text.eq_append_of_stripEnd? hstem

variable {suffix a b new : String} {direction : Direction}

/-- Adding or taking away a suffix that is not empty changes a name. -/
theorem Renamed.ne (h : Renamed suffix direction a new) (hs : suffix ≠ "") : a ≠ new := by
  rintro rfl
  have hempty : a ++ suffix = a ++ "" := by
    cases direction with
    | compress => simpa using h.symm
    | expand => simpa using h.symm
  exact hs ((String.append_right_inj a).mp hempty)

theorem Renamed.left_unique (ha : Renamed suffix direction a new)
    (hb : Renamed suffix direction b new) : a = b := by
  cases direction with
  | compress => exact (String.append_left_inj suffix).mp (ha.symm.trans hb)
  | expand => exact ha.trans hb.symm

theorem Renamed.right_unique {new' : String} (h : Renamed suffix direction a new)
    (h' : Renamed suffix direction a new') : new = new' := by
  cases direction with
  | compress => exact h.trans h'.symm
  | expand => exact (String.append_left_inj suffix).mp (h.symm.trans h')

namespace Renaming

def target (r : Renaming) : Path := r.parent.child r.name

/-- What becomes of the node. -/
def result (now : DateTime) (r : Renaming) (n : Node) : Node := (n.renamed r.name).touch now

@[simp] theorem name_result (now : DateTime) (r : Renaming) (n : Node) :
    (r.result now n).name = r.name := by
  cases n <;> rfl

@[simp] theorem isDirectory_result (now : DateTime) (r : Renaming) (n : Node) :
    (r.result now n).isDirectory = n.isDirectory := by
  cases n <;> rfl

end Renaming

/-- What a plan has checked of the files that are to be renamed, and of nothing else. -/
structure Planned (suffix : String) (direction : Direction) (root : Node) (operands : List Path)
    (plan : List Renaming) : Prop where
  renamed : ∀ r ∈ plan, ∃ old, r.path = r.parent.child old ∧ Renamed suffix direction old r.name
  plain : ∀ r ∈ plan, ∃ n, root.get? r.path = some n ∧ n.isDirectory = false
  paths : (plan.map Renaming.path).Nodup
  covers : ∀ p, p ∈ plan.map Renaming.path ↔ p ∈ operands

/-- What has been asked of one operand before it is planned: a node that is no directory, and a name
for it. -/
theorem planOne_ok {c : Call} {m : Machine} {operand : String} {r : Renaming}
    (h : planOne c m suffix direction operand = .ok r) : r.path = m.resolve operand ∧
      (∃ old, r.path = r.parent.child old ∧ Renamed suffix direction old r.name) ∧
        ∃ n, m.root.get? r.path = some n ∧ n.isDirectory = false := by
  unfold planOne at h
  dsimp only at h
  split at h
  · cases h
  · next n hn =>
    split at h
    · cases h
    · next hd =>
      split at h
      · cases h
      · next fileName hfile =>
        obtain ⟨name, hname, h⟩ := Plan.bind_eq_ok_iff.mp h
        split at h
        · next parent hp =>
          cases h
          obtain ⟨⟨old, he⟩, -⟩ := Node.parentDirectory_eq_ok_iff.mp hp
          have hold : fileName = old := by
            rw [he, Path.name?_child, Option.some.injEq] at hfile
            exact hfile.symm
          exact ⟨rfl, ⟨old, he, hold ▸ renamed_of_newName hname⟩, n, hn, by simpa using hd⟩
        · cases h

/-- The plan has one renaming for each path that is named: an operand whose path is in the plan
already adds nothing. -/
theorem planAll_ok {c : Call} {m : Machine} {operands : List String} {plan : List Renaming}
    (h : planAll c m suffix direction operands = .ok plan) :
    Planned suffix direction m.root (operands.map m.resolve) plan := by
  unfold planAll at h
  refine Plan.foldlM_invariant
    (I := fun done plan => Planned suffix direction m.root (done.map m.resolve) plan)
    (fun done plan operand plan' hI hstep => ?_) ⟨by simp, by simp, by simp, by simp⟩ h
  obtain ⟨r, hr, hstep⟩ := Plan.bind_eq_ok_iff.mp hstep
  obtain ⟨hpath, hrenamed, hplain⟩ := planOne_ok hr
  split at hstep
  · next hany =>
    cases hstep
    have hmem : m.resolve operand ∈ done.map m.resolve := by
      rw [← hpath, ← hI.covers]
      simpa using hany
    refine { hI with covers := fun p => ?_ }
    rw [hI.covers, List.map_append, List.mem_append, List.map_singleton, List.mem_singleton]
    constructor
    · exact .inl
    · rintro (hp | rfl)
      · exact hp
      · exact hmem
  · next hany =>
    cases hstep
    have hnew : r.path ∉ plan.map Renaming.path := by simpa using hany
    constructor
    case renamed =>
      rw [List.forall_mem_append]
      exact ⟨hI.renamed, by simpa using hrenamed⟩
    case plain =>
      rw [List.forall_mem_append]
      exact ⟨hI.plain, by simpa using hplain⟩
    case paths =>
      rw [List.map_append, List.map_singleton, ← List.concat_eq_append]
      exact List.Nodup.concat hnew hI.paths
    case covers =>
      intro p
      rw [List.map_append, List.map_append, List.mem_append, List.mem_append, hI.covers,
        List.map_singleton, List.map_singleton, hpath]

/-- Renamings that can each be begun: what stands at the paths is no directory, and no two of them
have the same path or the same target. -/
structure Standing (root : Node) (plan : List Renaming) : Prop where
  sibling : ∀ r ∈ plan, ∃ old, r.path = r.parent.child old ∧ old ≠ r.name
  plain : ∀ r ∈ plan, ∃ n, root.get? r.path = some n ∧ n.isDirectory = false
  paths : (plan.map Renaming.path).Nodup
  targets : (plan.map Renaming.target).Nodup

/-- What a plan has checked is enough to begin any of its renamings. -/
theorem Planned.standing {root : Node} {operands : List Path} {plan : List Renaming}
    (h : Planned suffix direction root operands plan) (hs : suffix ≠ "") : Standing root plan where
  sibling r hr := by
    obtain ⟨old, hpath, hold⟩ := h.renamed r hr
    exact ⟨old, hpath, hold.ne hs⟩
  plain := h.plain
  paths := h.paths
  targets := by
    have hpairs : plan.Pairwise fun r s => r.path ≠ s.path := List.pairwise_map.mp h.paths
    refine List.pairwise_map.mpr (hpairs.imp_of_mem fun {r s} hr hs hne htarget => hne ?_)
    obtain ⟨old, hpath, hold⟩ := h.renamed r hr
    obtain ⟨old', hpath', hold'⟩ := h.renamed s hs
    obtain ⟨hparent, hname⟩ := Path.child_injective htarget
    rw [hpath, hpath', hparent, hold.left_unique (hname ▸ hold')]

variable {c : Call} {r : Renaming} {root root' n : Node} {plan : List Renaming}

/-- The node is at the target and no longer at the path, and nothing is left below the target. -/
def Moved (now : DateTime) (r : Renaming) (n root root' : Node) : Prop :=
  ∀ q, root'.bareAt q =
    if q = r.target then some (r.result now n)
    else if r.target <+: q ∨ q = r.path then none
    else root.bareAt q

theorem path_ne_target (hs : ∃ old, r.path = r.parent.child old ∧ old ≠ r.name) :
    r.path ≠ r.target := by
  obtain ⟨old, hpath, hne⟩ := hs
  intro he
  exact hne (Path.child_injective (hpath.symm.trans he)).2

/-- A file can be renamed where it stands, whatever stands at the new name. -/
theorem rename_ok (hs : ∃ old, r.path = r.parent.child old ∧ old ≠ r.name)
    (hn : root.get? r.path = some n) (hd : n.isDirectory = false) :
    ∃ root', rename c r root = .ok () root' ∧ Moved c.now r n root root' := by
  obtain ⟨old, hpath, hne⟩ := hs
  obtain ⟨mid, hmid⟩ : ∃ mid, root.remove r.path = .ok (n, mid) :=
    ⟨_, Node.remove_eq_ok_iff.mpr ⟨r.parent, old, hpath, hn, rfl⟩⟩
  have hparent : mid.isDirectoryAt r.parent = true := by
    rw [Node.isDirectoryAt_congr (Node.shapeAt_remove hmid fun h => ?_)]
    · have hstands : root.contains (r.parent.child old) = true := by
        rw [Node.contains, ← hpath, hn, Option.isSome_some]
      exact Node.isDirectoryAt_of_child hstands
    · have hlen := h.length_le
      rw [hpath, Path.child, List.length_append, List.length_singleton] at hlen
      omega
  obtain ⟨root', hi⟩ := Node.exists_insert hparent (r.result c.now n)
  refine ⟨root', ?_, fun q => ?_⟩
  · rw [rename, Action.bind_apply, Node.removeFor_ok hmid]
    exact Node.insertFor_ok hi _ _
  · have hplain : (r.result c.now n).isDirectory = false := by rw [Renaming.isDirectory_result, hd]
    rw [Node.bareAt_insert_plain hi hplain, Renaming.name_result, Node.bareAt_remove_plain hmid hd]
    change (if q = r.target then _ else if r.target <+: q then _ else _) = _
    split_ifs <;> simp_all

/-- A file that has gone is missed, and the tree is left as it is. -/
theorem rename_missing (c : Call) (hn : root.get? r.path = none) : ∃ fault, rename c r root = .error fault root := by
  cases hr : root.remove r.path with
  | ok p =>
    obtain ⟨parent, name, -, hsome, -⟩ := Node.remove_eq_ok_iff.mp hr
    rw [hn] at hsome
    cases hsome
  | error fault =>
    rw [rename, Action.bind_apply, Node.removeFor_error hr]
    exact ⟨_, rfl⟩

/-- The only directories that are lost are those that stood at the target and below it. -/
theorem Moved.isDirectoryAt_iff (h : Moved c.now r n root root') (hn : root.get? r.path = some n)
    (hd : n.isDirectory = false) (q : Path) :
    root'.isDirectoryAt q = true ↔ root.isDirectoryAt q = true ∧ ¬r.target <+: q := by
  have hq := h q
  split_ifs at hq with htarget hgone
  · rw [Node.isDirectoryAt_of_bareAt_some hq, Renaming.isDirectory_result, hd, htarget]
    simp
  · rw [Node.isDirectoryAt_of_bareAt_none hq]
    rcases hgone with hw | rfl
    · simp [hw]
    · have hplain : root.isDirectoryAt r.path = false := by simp [Node.isDirectoryAt, hn, hd]
      simp [hplain]
  · rw [not_or] at hgone
    rw [Node.isDirectoryAt_congr_bareAt hq]
    simp [hgone.1]

/-- Where no directory gives way, the directories stay. -/
theorem Moved.isDirectoryAt (h : Moved c.now r n root root') (hn : root.get? r.path = some n)
    (hd : n.isDirectory = false) (ht : root.isDirectoryAt r.target = false) (q : Path) :
    root'.isDirectoryAt q = root.isDirectoryAt q := by
  rw [Bool.eq_iff_iff, h.isDirectoryAt_iff hn hd]
  exact ⟨And.left, fun hq => ⟨hq, Node.not_prefix_of_isDirectoryAt ht hq⟩⟩

/-- Where no directory gives way, only the target and the path are seen to change. -/
theorem Moved.bareAt (h : Moved c.now r n root root') (ht : root.isDirectoryAt r.target = false)
    {q : Path} (hq : q ≠ r.target) (hp : q ≠ r.path) : root'.bareAt q = root.bareAt q := by
  rw [h q, if_neg hq]
  split_ifs with hgone
  · have hw := hgone.resolve_right hp
    have hmissing : root.contains q = false := by
      cases hc : root.contains q with
      | false => rfl
      | true =>
        rw [Node.isDirectoryAt_of_prefix hc hw hq.symm] at ht
        cases ht
    exact (Node.bareAt_eq_none_iff.mpr hmissing).symm
  · rfl

/-- What can be begun goes on, once a renaming is made before which no directory gave way. -/
theorem Standing.step (h : Standing root (r :: plan)) (ht : root.isDirectoryAt r.target = false)
    (c : Call) : ∃ n root', root.get? r.path = some n ∧ rename c r root = .ok () root' ∧
      Moved c.now r n root root' ∧ (∀ q, root'.isDirectoryAt q = root.isDirectoryAt q) ∧
        Standing root' plan := by
  obtain ⟨n, hn, hd⟩ := h.plain r List.mem_cons_self
  obtain ⟨root', hrun, hmoved⟩ := rename_ok (h.sibling r List.mem_cons_self) hn hd
  refine ⟨n, root', hn, hrun, hmoved, hmoved.isDirectoryAt hn hd ht, ?_⟩
  constructor
  case sibling => exact fun s hs => h.sibling s (List.mem_cons_of_mem r hs)
  case paths => exact (List.nodup_cons.mp h.paths).2
  case targets => exact (List.nodup_cons.mp h.targets).2
  case plain =>
    intro s hs
    by_cases he : s.path = r.target
    · have hnew := hmoved s.path
      rw [if_pos he, ← Node.get?_eq_some_iff_bareAt (by simp [hd])] at hnew
      exact ⟨_, hnew, by simp [hd]⟩
    · have hother : s.path ≠ r.path := by
        intro hsame
        exact (List.nodup_cons.mp h.paths).1 (hsame ▸ List.mem_map_of_mem hs)
      obtain ⟨k, hk, hkd⟩ := h.plain s (List.mem_cons_of_mem r hs)
      exact ⟨k, Node.get?_of_bareAt_eq hk hkd (hmoved.bareAt ht he hother), hkd⟩

/-- Where no directory is to give way, the plan can be carried out, and all directories stay. -/
theorem Standing.run {done rest : List Renaming} (h : Standing root (done ++ rest))
    (ht : ∀ r ∈ done, root.isDirectoryAt r.target = false) (c : Call) :
    ∃ root', done.forM (rename c) root = .ok () root' ∧ Standing root' rest ∧
      ∀ q, root'.isDirectoryAt q = root.isDirectoryAt q := by
  obtain ⟨root', hrun, hstanding, -, hdirs⟩ := Action.forM_of_invariant
    (I := fun done mid => Standing mid (done ++ rest) ∧
      (∀ r ∈ done, mid.isDirectoryAt r.target = false) ∧
        ∀ q, mid.isDirectoryAt q = root.isDirectoryAt q)
    (fun r rest mid ⟨hstanding, hplain, hdirs⟩ => by
      obtain ⟨n, mid', -, hmid, -, hsame, hstanding'⟩ :=
        hstanding.step (hplain r List.mem_cons_self) c
      refine ⟨mid', hmid, hstanding', fun s hs => ?_, fun q => by rw [hsame, hdirs]⟩
      rw [hsame]
      exact hplain s (List.mem_cons_of_mem r hs))
    done root ⟨h, ht, fun q => rfl⟩
  exact ⟨root', hrun, hstanding, hdirs⟩

theorem Standing.runs (h : Standing root plan)
    (ht : ∀ r ∈ plan, root.isDirectoryAt r.target = false) (c : Call) :
    ∃ root', plan.forM (rename c) root = .ok () root' ∧
      ∀ q, root'.isDirectoryAt q = root.isDirectoryAt q := by
  have hall : Standing root (plan ++ []) := by rwa [List.append_nil]
  obtain ⟨root', hrun, -, hdirs⟩ := hall.run ht c
  exact ⟨root', hrun, hdirs⟩

/-- No directory appears on the way. -/
theorem isDirectoryAt_of_run (hs : ∀ r ∈ plan, ∃ old, r.path = r.parent.child old ∧ old ≠ r.name)
    (hp : ∀ r ∈ plan, root.isDirectoryAt r.path = false) (c : Call) {q : Path}
    (hq : ((plan.forM (rename c)).after root).isDirectoryAt q = true) :
    root.isDirectoryAt q = true := by
  induction plan generalizing root with
  | nil => exact hq
  | cons r rest ih =>
    rw [Action.after_forM_cons] at hq
    cases hn : root.get? r.path with
    | none =>
      obtain ⟨fault, hfault⟩ := rename_missing c hn
      rwa [hfault] at hq
    | some n =>
      have hd : n.isDirectory = false := by
        have hpath := hp r List.mem_cons_self
        rwa [Node.isDirectoryAt, hn] at hpath
      obtain ⟨mid, hmid, hmoved⟩ := rename_ok (c := c) (hs r List.mem_cons_self) hn hd
      have hiff := hmoved.isDirectoryAt_iff hn hd
      rw [hmid] at hq
      refine ((hiff q).mp (ih (fun s hs' => hs s (List.mem_cons_of_mem r hs')) ?_ hq)).1
      intro s hs'
      cases hm : mid.isDirectoryAt s.path with
      | false => rfl
      | true => rw [← hp s (List.mem_cons_of_mem r hs'), ((hiff s.path).mp hm).1]

/-- A directory that is to give way is lost, and it may not be the only one. -/
theorem Standing.lost (h : Standing root plan) (ht : ∃ r ∈ plan, root.isDirectoryAt r.target = true)
    (c : Call) : ∃ q, root.isDirectoryAt q = true ∧
      ((plan.forM (rename c)).after root).isDirectoryAt q = false := by
  induction plan generalizing root with
  | nil => simp at ht
  | cons r rest ih =>
    rw [Action.after_forM_cons]
    cases hr : root.isDirectoryAt r.target with
    | true =>
      obtain ⟨n, hn, hd⟩ := h.plain r List.mem_cons_self
      obtain ⟨mid, hmid, hmoved⟩ := rename_ok (c := c) (h.sibling r List.mem_cons_self) hn hd
      have hiff := hmoved.isDirectoryAt_iff hn hd
      refine ⟨r.target, hr, ?_⟩
      rw [hmid, Bool.eq_false_iff]
      intro hend
      have hstill := isDirectoryAt_of_run (fun s hs => h.sibling s (List.mem_cons_of_mem r hs))
        (fun s hs => ?_) c hend
      · exact ((hiff r.target).mp hstill).2 (List.prefix_refl _)
      · obtain ⟨k, hk, hkd⟩ := h.plain s (List.mem_cons_of_mem r hs)
        rw [Bool.eq_false_iff]
        intro hm
        have hold := ((hiff s.path).mp hm).1
        simp [Node.isDirectoryAt, hk, hkd] at hold
    | false =>
      obtain ⟨n, mid, -, hmid, -, hsame, hstanding⟩ := h.step hr c
      obtain ⟨s, hs, hst⟩ := ht
      have hrest : s ∈ rest := by
        rcases List.mem_cons.mp hs with rfl | hs
        · rw [hr] at hst
          cases hst
        · exact hs
      obtain ⟨q, hq, hlost⟩ := ih hstanding ⟨s, hrest, (hsame _).trans hst⟩
      exact ⟨q, (hsame q).symm.trans hq, by rw [hmid]; exact hlost⟩

/-- What has gone from a place that is no target is not there at the end. -/
theorem Standing.vacant (h : Standing root plan)
    (ht : ∀ r ∈ plan, root.isDirectoryAt r.target = false) (c : Call) {q : Path}
    (hq : root.bareAt q = none) (hnot : ∀ r ∈ plan, r.target ≠ q) :
    ((plan.forM (rename c)).after root).bareAt q = none := by
  induction plan generalizing root with
  | nil => exact hq
  | cons r rest ih =>
    obtain ⟨n, mid, -, hmid, hmoved, hsame, hstanding⟩ := h.step (ht r List.mem_cons_self) c
    rw [Action.after_forM_cons, hmid]
    refine ih hstanding (fun s hs => ?_) ?_ fun s hs => hnot s (List.mem_cons_of_mem r hs)
    · rw [hsame]
      exact ht s (List.mem_cons_of_mem r hs)
    · rw [hmoved q, if_neg (hnot r List.mem_cons_self).symm]
      split_ifs
      · rfl
      · exact hq

/-- A file has gone from its place in the end, unless a later one arrives there. -/
theorem Standing.gone {done rest : List Renaming} (h : Standing root (done ++ r :: rest))
    (ht : ∀ s ∈ done ++ r :: rest, root.isDirectoryAt s.target = false) (c : Call)
    (hnot : ∀ s ∈ rest, s.target ≠ r.path) :
    (((done ++ r :: rest).forM (rename c)).after root).bareAt r.path = none := by
  obtain ⟨mid, hmid, hstanding, hdirs⟩ := h.run (fun s hs => ht s (List.mem_append_left _ hs)) c
  have hplain : ∀ s ∈ r :: rest, mid.isDirectoryAt s.target = false := fun s hs => by
    rw [hdirs]
    exact ht s (List.mem_append_right _ hs)
  obtain ⟨n, mid', -, hstep, hmoved, hsame, hlast⟩ :=
    hstanding.step (hplain r List.mem_cons_self) c
  have hleft : mid'.bareAt r.path = none := by
    rw [hmoved r.path, if_neg (path_ne_target (hstanding.sibling r List.mem_cons_self))]
    simp
  rw [Action.after_forM_append, hmid]
  dsimp only
  rw [Action.after_forM_cons, hstep]
  refine hlast.vacant (fun s hs => ?_) c hleft hnot
  rw [hsame]
  exact hplain s (List.mem_cons_of_mem r hs)

/-- Each new name is free, or an earlier renaming leaves it. -/
def Free (root : Node) (plan : List Renaming) : Prop :=
  ∀ done r rest, plan = done ++ r :: rest → root.contains r.target = true →
    r.target ∈ done.map Renaming.path

/-- What a plan makes of a tree if nothing gives way. -/
structure Carried (now : DateTime) (plan : List Renaming) (root root' : Node) : Prop where
  arrived : ∀ r ∈ plan, ∃ n, root.get? r.path = some n ∧
    root'.get? r.target = some (r.result now n)
  elsewhere : ∀ q, (∀ r ∈ plan, q ≠ r.path ∧ q ≠ r.target) → root'.bareAt q = root.bareAt q

theorem Free.head (h : Free root (r :: plan)) : root.contains r.target = false := by
  rw [Bool.eq_false_iff]
  intro hc
  simpa using h [] r plan rfl hc

/-- A plan that is free stays so. -/
theorem Free.step (h : Free root (r :: plan)) (hs : Standing root (r :: plan))
    (hmoved : Moved c.now r n root root') : Free root' plan := by
  intro done s rest he hc
  have hs' : s ∈ plan := by simp [he]
  have htarget : s.target ≠ r.target := by
    intro hsame
    exact (List.nodup_cons.mp hs.targets).1 (hsame ▸ List.mem_map_of_mem hs')
  have hroot := hmoved s.target
  rw [if_neg htarget] at hroot
  split_ifs at hroot with hgone
  · rw [Node.bareAt_eq_none_iff.mp hroot] at hc
    cases hc
  · rw [not_or] at hgone
    have hold : root.contains s.target = true := by
      rw [← Bool.not_eq_false, ← Node.bareAt_eq_none_iff, ← hroot, Node.bareAt_eq_none_iff, hc]
      simp
    have hmem := h (r :: done) s rest (by rw [he, List.cons_append]) hold
    rw [List.map_cons, List.mem_cons] at hmem
    exact hmem.resolve_left hgone.2

/-- A plan that is free is carried out, and nothing is lost on the way: no file that is still to be
renamed stands where an earlier one arrives. -/
theorem Free.run (h : Free root plan) (hs : Standing root plan) (c : Call) :
    ∃ root', plan.forM (rename c) root = .ok () root' ∧ Carried c.now plan root root' := by
  induction plan generalizing root with
  | nil => exact ⟨root, rfl, ⟨by simp, fun _ _ => rfl⟩⟩
  | cons r rest ih =>
    have hfree := h.head
    have ht : root.isDirectoryAt r.target = false :=
      Node.isDirectoryAt_of_bareAt_none (Node.bareAt_eq_none_iff.mpr hfree)
    obtain ⟨n, mid, hn, hmid, hmoved, -, hstanding⟩ := hs.step ht c
    obtain ⟨root', hrun, hcarried⟩ := ih (h.step hs hmoved) hstanding
    refine ⟨root', by rw [Action.forM_cons, hmid]; exact hrun, ?_⟩
    have hpaths := (List.nodup_cons.mp hs.paths).1
    have htargets := (List.nodup_cons.mp hs.targets).1
    have hfrom : ∀ s ∈ rest, s.path ≠ r.target := by
      intro s hs' he
      obtain ⟨k, hk, -⟩ := hs.plain s (List.mem_cons_of_mem r hs')
      rw [← he, Node.contains, hk] at hfree
      cases hfree
    have hto : ∀ s ∈ rest, s.target ≠ r.target := fun s hs' he =>
      htargets (he ▸ List.mem_map_of_mem hs')
    constructor
    case arrived =>
      intro s hs'
      obtain ⟨k, hk, hkd⟩ := hs.plain s hs'
      rcases List.mem_cons.mp hs' with rfl | hs'
      · have hplain : (s.result c.now k).isDirectory = false := by
          rw [Renaming.isDirectory_result, hkd]
        cases hn.symm.trans hk
        refine ⟨n, hn, ?_⟩
        rw [Node.get?_eq_some_iff_bareAt hplain, hcarried.elsewhere _ fun t ht =>
          ⟨(hfrom t ht).symm, (hto t ht).symm⟩, hmoved s.target, if_pos rfl]
      · obtain ⟨k', hk', harrived⟩ := hcarried.arrived s hs'
        have hother : s.path ≠ r.path := fun he => hpaths (he ▸ List.mem_map_of_mem hs')
        have hk_mid := Node.get?_of_bareAt_eq hk hkd (hmoved.bareAt ht (hfrom s hs') hother)
        cases hk_mid.symm.trans hk'
        exact ⟨k, hk, harrived⟩
    case elsewhere =>
      intro q hq
      rw [List.forall_mem_cons] at hq
      rw [hcarried.elsewhere q hq.2, hmoved.bareAt ht hq.1.2 hq.1.1]

/-- What is made of the tree if nothing is lost: each file that was named is found in its directory
under its new name, as it was but for the time, and any other node is found where it was. -/
structure Recompressed (suffix : String) (direction : Direction) (now : DateTime)
    (operands : List Path) (root root' : Node) : Prop where
  arrived : ∀ p ∈ operands, ∃ (parent : Path) (old new : String) (n : Node),
    p = parent.child old ∧ Renamed suffix direction old new ∧ root.get? p = some n ∧
      root'.get? (parent.child new) = some ((n.renamed new).touch now)
  kept : ∀ q n, root.get? q = some n → q ∉ operands → root'.bareAt q = some n.bare
  apart : ∀ (parent : Path) (old new : String), parent.child old ∈ operands →
    Renamed suffix direction old new → root.contains (parent.child new) = true →
      parent.child new ∈ operands

/-- Read for the operands, a plan that is carried out is what compressing or expanding them is to
do. -/
theorem Carried.recompressed {now : DateTime} {operands : List Path}
    (h : Carried now plan root root') (hplan : Planned suffix direction root operands plan)
    (hfree : Free root plan) : Recompressed suffix direction now operands root root' := by
  have htarget : ∀ r ∈ plan, root.contains r.target = true → r.target ∈ operands := by
    intro r hr hc
    obtain ⟨done, rest, rfl⟩ := List.append_of_mem hr
    rw [← hplan.covers, List.map_append]
    exact List.mem_append_left _ (hfree done r rest rfl hc)
  constructor
  case arrived =>
    intro p hp
    obtain ⟨r, hr, rfl⟩ := List.mem_map.mp ((hplan.covers p).mpr hp)
    obtain ⟨old, hpath, hold⟩ := hplan.renamed r hr
    obtain ⟨n, hn, harrived⟩ := h.arrived r hr
    exact ⟨r.parent, old, r.name, n, hpath, hold, hn, harrived⟩
  case kept =>
    intro q n hn hq
    have hc : root.contains q = true := by rw [Node.contains, hn, Option.isSome_some]
    rw [h.elsewhere q, Node.bareAt, hn, Option.map_some]
    intro r hr
    constructor
    · rintro rfl
      exact hq ((hplan.covers r.path).mp (List.mem_map_of_mem hr))
    · rintro rfl
      exact hq (htarget r hr hc)
  case apart =>
    intro parent old new hp hnew hc
    obtain ⟨r, hr, he⟩ := List.mem_map.mp ((hplan.covers _).mpr hp)
    obtain ⟨old', hpath, hold'⟩ := hplan.renamed r hr
    obtain ⟨rfl, rfl⟩ := Path.child_injective (he.symm.trans hpath)
    rw [hnew.right_unique hold'] at hc ⊢
    exact htarget r hr hc

section Necessity

variable {operands : List Path}
  (h : Recompressed suffix direction c.now operands root ((plan.forM (rename c)).after root))
  (hplan : Planned suffix direction root operands plan) (hs : Standing root plan)

include h hplan hs

/-- If all nodes but the operands are kept, no directory is to give way. -/
theorem Recompressed.isDirectoryAt_target : ∀ r ∈ plan, root.isDirectoryAt r.target = false := by
  by_contra hsome
  obtain ⟨q, hq, hlost⟩ := hs.lost (by simpa using hsome) c
  obtain ⟨k, hk, hkd⟩ := Node.exists_of_isDirectoryAt hq
  have hother : q ∉ operands := by
    rw [← hplan.covers]
    intro hmem
    obtain ⟨r, hr, rfl⟩ := List.mem_map.mp hmem
    obtain ⟨n, hn, hd⟩ := hs.plain r hr
    cases hn.symm.trans hk
    rw [hd] at hkd
    cases hkd
  have hkept := Node.isDirectoryAt_of_bareAt_some (h.kept q k hk hother)
  rw [hlost, Node.isDirectory_bare, hkd] at hkept
  cases hkept

/-- If all operands arrive, what stands at a new name has been moved away before. -/
theorem Recompressed.free : Free root plan := by
  have hnot := h.isDirectoryAt_target hplan hs
  intro done r rest he hc
  have hr : r ∈ plan := by simp [he]
  obtain ⟨old, hpath, hold⟩ := hplan.renamed r hr
  have hoperand : r.path ∈ operands := (hplan.covers _).mp (List.mem_map_of_mem hr)
  have htaken := h.apart r.parent old r.name (hpath ▸ hoperand) hold hc
  obtain ⟨s, hmem, hsr⟩ := List.mem_map.mp ((hplan.covers _).mpr htaken)
  rw [he, List.mem_append, List.mem_cons] at hmem
  rcases hmem with hdone | rfl | hlater
  · exact List.mem_map.mpr ⟨s, hdone, hsr⟩
  · exact absurd hsr (path_ne_target (hs.sibling s hr))
  · -- The later one takes along what has arrived at the new name.
    exfalso
    obtain ⟨between, last, rfl⟩ := List.append_of_mem hlater
    have hcut : plan = (done ++ r :: between) ++ s :: last := by simp [he]
    have hlast : ∀ t ∈ last, t.target ≠ s.path := by
      intro t ht hts
      have hnodup := hs.targets
      rw [hcut, List.map_append] at hnodup
      have hsep := (List.nodup_append.mp hnodup).2.2
      exact hsep r.target (List.mem_map_of_mem (by simp)) t.target
        (List.mem_map_of_mem (List.mem_cons_of_mem s ht)) (hsr.symm.trans hts.symm)
    have hgone := (hcut ▸ hs).gone (by rwa [← hcut]) c hlast
    rw [← hcut, hsr, Node.bareAt_eq_none_iff] at hgone
    obtain ⟨parent, old', new, n, hpath', hnew, -, harrived⟩ := h.arrived r.path hoperand
    obtain ⟨rfl, rfl⟩ := Path.child_injective (hpath.symm.trans hpath')
    rw [← hnew.right_unique hold, Node.contains, harrived] at hgone
    cases hgone

end Necessity

variable {m : Machine} {command : ArchiveCommand}

theorem suffix_ne_empty (h : recompression? command c = some (suffix, direction)) : suffix ≠ "" := by
  cases command <;> cases h <;> decide

theorem run_of_recompression (h : recompression? command c = some (suffix, direction)) :
    run command c m = .ofTree m (recompress suffix direction c m) := by
  cases command <;> cases h <;> rfl

theorem ofTree_recompress_refused {fault : Fault}
    (h : planAll c m suffix direction (c.options "").operands = .error fault) :
    Outcome.ofTree m (recompress suffix direction c m) = ⟨.error fault, m⟩ := by
  simp only [Outcome.ofTree, Outcome.ofAction, Action.onTree, recompress, h, Action.bind_apply,
    Action.ofExcept_error]

theorem root_recompress (h : planAll c m suffix direction (c.options "").operands = .ok plan) :
    (Outcome.ofTree m (recompress suffix direction c m)).machine.root =
      (plan.forM (rename c)).after m.root := by
  rw [Outcome.machine_ofTree, recompress, h, Action.after_bind, Action.ofExcept_ok]
  exact Action.after_bind_pure _ _ _

theorem ofTree_recompress (h : planAll c m suffix direction (c.options "").operands = .ok plan) :
    Outcome.ofTree m (recompress suffix direction c m) =
      match plan.forM (rename c) m.root with
      | .ok _ root => ⟨.ok .empty, { m with root }⟩
      | .error fault root => ⟨.error fault, { m with root }⟩ := by
  simp only [Outcome.ofTree, Outcome.ofAction, Action.onTree, recompress, h, Action.bind_apply,
    Action.ofExcept_ok]
  cases plan.forM (rename c) m.root <;> rfl

end Archive

namespace Command

open Archive

/-- Compressing and expanding files is refused without a change, or loses nothing, just if each new
name is free or is left in time. -/
theorem run_recompresses (x : Context) {name suffix : String} {command : ArchiveCommand}
    {direction : Direction} (args : List String) (m : Machine)
    (hn : ofName? name = some (.archive command))
    (hr : recompression? command (x.call name args) = some (suffix, direction)) :
    ((∃ fault, run x (name :: args) m = ⟨.error fault, m⟩) ∨
      ∃ root', run x (name :: args) m = ⟨.ok .empty, { m with root := root' }⟩ ∧
        Recompressed suffix direction x.now
          (((x.call name args).options "").operands.map m.resolve) m.root root') ↔
      ∀ plan, Renames command (x.call name args) m plan → Free m.root plan := by
  have hrun : run x (name :: args) m =
      .ofTree m (recompress suffix direction (x.call name args) m) := by
    rw [run_plain x args m hn (by simp) (by simp), ← run_of_recompression hr]
    rfl
  rw [hrun]
  constructor
  · rintro hdone plan ⟨suffix', direction', hr', hplan⟩
    cases hr.symm.trans hr'
    have hplanned := planAll_ok hplan
    have hs := hplanned.standing (suffix_ne_empty hr)
    have hroot := root_recompress hplan
    rcases hdone with ⟨fault, hfault⟩ | ⟨root', hok, hdone⟩
    · -- A plan that fails has already lost a directory.
      rw [hfault] at hroot
      have hgives : ∃ r ∈ plan, m.root.isDirectoryAt r.target = true := by
        by_contra hnot
        obtain ⟨root', hrun, -⟩ := hs.runs (by simpa using hnot) (x.call name args)
        rw [ofTree_recompress hplan, hrun] at hfault
        cases hfault
      obtain ⟨q, hq, hlost⟩ := hs.lost hgives (x.call name args)
      rw [← hroot, hq] at hlost
      cases hlost
    · rw [hok] at hroot
      subst hroot
      exact Recompressed.free (c := x.call name args) hdone hplanned hs
  · intro hfree
    cases hplan : planAll (x.call name args) m suffix direction
        ((x.call name args).options "").operands with
    | error fault => exact .inl ⟨fault, ofTree_recompress_refused hplan⟩
    | ok plan =>
      have hplanned := planAll_ok hplan
      have hplanfree := hfree plan ⟨suffix, direction, hr, hplan⟩
      obtain ⟨root', hroot, hcarried⟩ :=
        hplanfree.run (hplanned.standing (suffix_ne_empty hr)) (x.call name args)
      refine .inr ⟨root', ?_, hcarried.recompressed hplanned hplanfree⟩
      rw [ofTree_recompress hplan, hroot]

/-- A machine with a directory under the name that `data.csv` takes when it is compressed. -/
def takenMachine : Machine :=
  let made := (run Sample.context ["mkdir", "data.csv.gz"] Sample.machine).machine
  (run Sample.context ["touch", "data.csv.gz/x"] made).machine

/-- The directory gives way to the first file, and the second one is then missed. -/
theorem run_recompresses_taken :
    (run Sample.context ["gzip", "data.csv", "data.csv.gz/x"] takenMachine).answer =
        .error (.invalid (.treeFault "gzip" "data.csv.gz/x" .notADirectory)) ∧
      ¬((∃ fault, run Sample.context ["gzip", "data.csv", "data.csv.gz/x"] takenMachine =
          ⟨.error fault, takenMachine⟩) ∨
        ∃ root', run Sample.context ["gzip", "data.csv", "data.csv.gz/x"] takenMachine =
            ⟨.ok .empty, { takenMachine with root := root' }⟩ ∧
          Recompressed ".gz" .compress Sample.time
            (["data.csv", "data.csv.gz/x"].map takenMachine.resolve) takenMachine.root root') := by
  have hname : ofName? "gzip" = some (.archive .gzip) := rfl
  have hdirection : recompression? .gzip
      (Sample.context.call "gzip" ["data.csv", "data.csv.gz/x"]) = some (".gz", .compress) := by
    decide +kernel
  have hoperands : ((Sample.context.call "gzip" ["data.csv", "data.csv.gz/x"]).options "").operands =
      ["data.csv", "data.csv.gz/x"] := by decide +kernel
  have hplan : Renames .gzip (Sample.context.call "gzip" ["data.csv", "data.csv.gz/x"])
      takenMachine
      [⟨"data.csv", ["home", "user", "data.csv"], ["home", "user"], "data.csv.gz"⟩,
        ⟨"data.csv.gz/x", ["home", "user", "data.csv.gz", "x"], ["home", "user", "data.csv.gz"],
          "x.gz"⟩] := ⟨".gz", .compress, hdirection, by decide +kernel⟩
  have htaken : takenMachine.root.contains ["home", "user", "data.csv.gz"] = true := by
    decide +kernel
  refine ⟨by decide +kernel, fun h => ?_⟩
  have hiff := run_recompresses Sample.context ["data.csv", "data.csv.gz/x"] takenMachine hname
    hdirection
  rw [hoperands] at hiff
  simpa using hiff.mp h _ hplan [] _ _ rfl htaken

end Command

end PocketUnix
