import PocketUnix.Command.Run
import PocketUnix.Proofs.Command.Editing
import PocketUnix.Proofs.Sample

/-!
# What `mkdir` makes

All operands are checked against the tree and the operands before them, so that directories can be
made within those that are only to be made. What is made then are the missing directories and
nothing else, all of them empty but for each other.
-/

namespace PocketUnix

namespace Editing

variable {c : Call} {m : Machine} {o : Shell.Options} {planned : List Path}

/-- The operands, or with the letter `p` all that is on the ways to them, where nothing stands. -/
def Missing (o : Shell.Options) (m : Machine) (p : Path) : Prop :=
  m.root.contains p = false ∧ ∃ t ∈ named o m, if o.has 'p' = true then p <+: t else p = t

/-- Directories can be made at all operands, or with the letter `p` on all the ways to them. -/
def Makable (o : Shell.Options) (m : Machine) : Prop :=
  if o.has 'p' = true then
    ∀ t ∈ named o m, ∀ q, q <+: t → m.root.contains q = true → m.root.isDirectoryAt q = true
  else Buildable m.root (named o m)

/-- One can pass on all the ways just if no file stands on any of them. -/
theorem passable_ways_iff (hroot : m.root.isDirectory = true) :
    (∀ way ∈ ways o m, Passable m.root way) ↔
      ∀ t ∈ named o m, ∀ q, q <+: t → m.root.contains q = true → m.root.isDirectoryAt q = true := by
  rw [ways, List.forall_mem_flatMap]
  refine forall₂_congr fun t _ => ⟨fun h q hq => ?_, fun h q hq => h q (mem_prefixes.mp hq).2⟩
  by_cases hne : q = []
  · subst hne
    exact fun _ => hroot
  · exact h q (mem_prefixes.mpr ⟨hne, hq⟩)

theorem exists_planMkdir_iff (hroot : m.root.isDirectory = true) :
    (∃ planned, planMkdir o m = .ok planned) ↔ named o m ≠ [] ∧ Makable o m := by
  simp only [planMkdir_eq_ok_iff, Makable]
  split
  · simp [passable_ways_iff hroot]
  · simp

/-- Nothing stands where something can be built. -/
theorem Buildable.not_contains {paths : List Path} (h : Buildable m.root paths) {p : Path}
    (hp : p ∈ paths) : m.root.contains p = false := by
  induction h with
  | nil => cases hp
  | concat _ last ih =>
    rcases List.mem_append.mp hp with hbefore | hlast
    · exact ih hbefore
    · obtain ⟨-, -, -, hfree, -⟩ := last
      rwa [List.mem_singleton.mp hlast]

/-- What is planned is what is missing. -/
theorem mem_planMkdir (h : planMkdir o m = .ok planned) (p : Path) :
    p ∈ planned ↔ Missing o m p := by
  obtain ⟨-, h⟩ := planMkdir_eq_ok_iff.mp h
  unfold Missing
  split at h
  · next hp =>
    obtain ⟨-, rfl⟩ := h
    simp only [mem_foldl_withWay, ways, List.mem_flatMap, mem_prefixes, List.not_mem_nil, false_or,
      if_pos hp]
    constructor
    · rintro ⟨⟨t, ht, -, hway⟩, hfree⟩
      exact ⟨hfree, t, ht, hway⟩
    · rintro ⟨hfree, t, ht, hway⟩
      refine ⟨⟨t, ht, ?_, hway⟩, hfree⟩
      rintro rfl
      cases hfree
  · next hp =>
    obtain ⟨hbuildable, rfl⟩ := h
    simp only [if_neg hp, exists_eq_right']
    exact ⟨fun hp => ⟨hbuildable.not_contains hp, hp⟩, And.right⟩

/-- Once its operands are accepted, `mkdir` makes what is missing. -/
theorem mkdir_of_planMkdir (hroot : m.root.isDirectory = true)
    (h : planMkdir (c.options "m") m = .ok planned) :
    ∃ root', mkdir c m m.root = .ok .empty root' ∧
      Node.Added (fun name => .newDirectory name m.user m.group c.now)
        (Missing (c.options "m") m) m.root root' := by
  obtain ⟨root', hrun, hadded⟩ := (buildable_planMkdir hroot h).added
    (fresh_newDirectory m.user m.group c.now) fun _ => rfl
  refine ⟨root', ?_, hadded.congr (mem_planMkdir h)⟩
  simp only [mkdir, h, Action.bind_apply, Action.ofExcept_ok, hrun]
  rfl

/-- An operand is made, or with the letter `p` it may have been a directory. -/
theorem isDirectoryAt_of_named {owner group : String} {now : DateTime} {root' : Node}
    (hadded : Node.Added (fun name => .newDirectory name owner group now) (Missing o m)
      m.root root')
    (hmakable : Makable o m) {t : Path} (ht : t ∈ named o m) : root'.isDirectoryAt t = true := by
  have hdirectory (name : String) : (Node.newDirectory name owner group now).isDirectory = true :=
    rfl
  unfold Makable at hmakable
  cases hthere : m.root.contains t with
  | false =>
    refine hadded.isDirectoryAt hdirectory ⟨hthere, t, ht, ?_⟩
    split
    · exact List.prefix_rfl
    · rfl
  | true =>
    split at hmakable
    · exact hadded.isDirectoryAt_of_old hdirectory (hmakable t ht t List.prefix_rfl hthere)
    · rw [hmakable.not_contains ht] at hthere
      cases hthere

theorem mkdir_of_planMkdir_error {fault : Fault} (h : planMkdir (c.options "m") m = .error fault) :
    mkdir c m m.root = .error fault m.root := by
  simp only [mkdir, h, Action.bind_apply, Action.ofExcept_error]

end Editing

namespace Command

open Editing (named Missing Makable)

end Command

end PocketUnix
