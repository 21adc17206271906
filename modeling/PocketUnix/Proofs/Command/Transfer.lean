import Mathlib.Data.List.Pairwise
import PocketUnix.Command.Transfer
import PocketUnix.Proofs.Command.Call
import PocketUnix.Proofs.Plan

/-!
# Transfers that keep out of each other's way

`cp` and `mv` check their transfers one against the other before the first is made. An accepted
plan therefore cannot fail on the way, and each of its steps takes from the old tree what it would
take if it were alone.
-/

namespace PocketUnix.Transfer

open PocketUnix.Path (Apart)

/-- Where a source comes to stand: in a destination that is a directory, else in its place. -/
def landing (root : Node) (destination source : Path) : Path :=
  if root.isDirectoryAt destination then destination.child (source.name?.getD "") else destination

/-- A step that a plan for the machine lets pass. -/
structure Accepted (m : Machine) (destination : Path) (s : Step) : Prop where
  source_eq : s.source = m.resolve s.operand
  target_eq : s.target = landing m.root destination s.source
  contains_source : m.root.contains s.source = true
  source_ne_nil : s.source ≠ []
  parent_isDirectory : m.root.isDirectoryAt s.parent = true
  target_outside : ¬s.source <+: s.target
  target_plain : m.root.isDirectoryAt s.target = false

/-- Two steps that one plan lets pass. -/
structure Clear (s t : Step) : Prop where
  sources : Apart s.source t.source
  targets : s.target ≠ t.target

instance : Std.Symm Clear := ⟨fun _ _ h => ⟨h.sources.symm, h.targets.symm⟩⟩

/-- What an accepted plan has been checked for. -/
structure Checked (m : Machine) (destination : Path) (plan : List Step) : Prop where
  accepted : ∀ s ∈ plan, Accepted m destination s
  clear : plan.Pairwise Clear

/-- A plan stays checked when a step is added that is clear of all the others. -/
theorem Checked.concat {m : Machine} {destination : Path} {plan : List Step} {s : Step}
    (h : Checked m destination plan) (hs : Accepted m destination s)
    (hclear : ∀ t ∈ plan, Clear t s) : Checked m destination (plan ++ [s]) := by
  constructor
  · intro t ht
    rcases List.mem_append.mp ht with ht | ht
    · exact h.accepted t ht
    · exact List.mem_singleton.mp ht ▸ hs
  · refine List.pairwise_append.mpr ⟨h.clear, List.pairwise_singleton Clear s, ?_⟩
    intro t ht u hu
    exact List.mem_singleton.mp hu ▸ hclear t ht

/-- The parent is a directory, and the name in it is where the source lands. -/
theorem place_ok {m : Machine} {command : String} {destination source parent : Path}
    {sourceName name : String} (hname : source.name? = some sourceName)
    (h : place m command destination sourceName = .ok (parent, name)) :
    parent.child name = landing m.root destination source ∧
      m.root.isDirectoryAt parent = true := by
  unfold place at h
  unfold landing
  split at h
  · next hd =>
    cases h
    simp [hd, hname]
  · next hd =>
    cases hp : m.root.parentDirectory destination with
    | error fault => simp [hp] at h
    | ok above =>
      simp only [hp, Except.ok.injEq, Prod.mk.injEq] at h
      obtain ⟨rfl, rfl⟩ := h
      obtain ⟨⟨last, rfl⟩, habove⟩ := Node.parentDirectory_eq_ok_iff.mp hp
      simp [hd, habove]

/-- What the check of two steps lets pass is clear. -/
theorem clear_of_conflict {command : String} {step earlier : Step}
    (h : conflict command step earlier = .ok ()) : Clear earlier step := by
  unfold conflict at h
  split at h
  · cases h
  · split at h
    · cases h
    · next hwithin =>
      split at h
      · cases h
      · next hplace =>
        simp only [Bool.or_eq_true, Path.isWithin_iff, not_or] at hwithin
        exact ⟨hwithin, fun he => hplace (Path.child_injective he)⟩

/-- One operand adds one step to the plan. -/
theorem planStep_ok {m : Machine} {command target operand : String} {destination : Path}
    {plan plan' : List Step} (h : planStep m command target destination plan operand = .ok plan') :
    ∃ s : Step, plan' = plan ++ [s] ∧ s.operand = operand ∧ Accepted m destination s ∧
      ∀ t ∈ plan, Clear t s := by
  unfold planStep at h
  dsimp only at h
  split at h
  · cases h
  · cases h
  · next n sourceName hn hname =>
    obtain ⟨⟨parent, name⟩, hplace, h⟩ := Plan.bind_eq_ok_iff.mp h
    dsimp only at h
    split at h
    · cases h
    · split at h
      · cases h
      · next hinto =>
        split at h
        · cases h
        · next hplain =>
          obtain ⟨⟨⟩, hclear, h⟩ := Plan.bind_eq_ok_iff.mp h
          cases h
          obtain ⟨htarget, hparent⟩ := place_ok hname hplace
          refine ⟨_, rfl, rfl, ?_, fun t ht => clear_of_conflict (Plan.forM_eq_ok hclear ht)⟩
          exact {
            source_eq := rfl
            target_eq := htarget
            contains_source := by simp [Node.contains, hn]
            source_ne_nil := by
              intro (he : m.resolve operand = [])
              rw [he] at hname
              cases hname
            parent_isDirectory := hparent
            target_outside := by simpa [Path.isWithin_iff] using hinto
            target_plain := by simpa using hplain }

/-- An accepted plan has a step for each operand, in their order. -/
theorem plan_ok {m : Machine} {command target : String} {sources : List String}
    {steps : List Step} (h : plan m command sources target = .ok steps) :
    steps.map Step.operand = sources ∧ Checked m (m.resolve target) steps ∧
      (1 < sources.length → m.root.isDirectoryAt (m.resolve target) = true) := by
  unfold plan at h
  dsimp only at h
  split at h
  · cases h
  · next hmany =>
    obtain ⟨hoperands, hchecked⟩ := Plan.foldlM_invariant
      (I := fun done steps => steps.map Step.operand = done ∧ Checked m (m.resolve target) steps)
      (fun done before operand after hI hstep => by
        obtain ⟨s, rfl, rfl, hs, hclear⟩ := planStep_ok hstep
        obtain ⟨rfl, hchecked⟩ := hI
        exact ⟨by simp, hchecked.concat hs hclear⟩)
      ⟨rfl, ⟨by simp, List.Pairwise.nil⟩⟩ h
    exact ⟨hoperands, hchecked, fun hlen => by simpa [hlen] using hmany⟩

/-- No source of the plan and no target of it is seen from another one. -/
structure Compatible (root : Node) (plan : List Step) : Prop where
  contains_source : ∀ s ∈ plan, root.contains s.source = true
  source_ne_nil : ∀ s ∈ plan, s.source ≠ []
  parent_isDirectory : ∀ s ∈ plan, root.isDirectoryAt s.parent = true
  source_target : ∀ s ∈ plan, ∀ t ∈ plan, Apart s.source t.target
  sources : plan.Pairwise fun s t => Apart s.source t.source
  targets : plan.Pairwise fun s t => Apart s.target t.target

/-- A node that stands is not below what is no directory. -/
theorem apart_of_plain {root : Node} {p q : Path} (hq : root.contains q = true)
    (hp : root.isDirectoryAt p = false) (hne : p ≠ q) (hqp : ¬q <+: p) : Apart q p := by
  refine ⟨hqp, fun hpq => ?_⟩
  rw [Node.isDirectoryAt_of_prefix hq hpq hne] at hp
  cases hp

theorem Accepted.apart {m : Machine} {destination : Path} {s : Step}
    (h : Accepted m destination s) : Apart s.source s.target :=
  apart_of_plain h.contains_source h.target_plain
    (fun he => h.target_outside (he ▸ List.prefix_refl _)) h.target_outside

section Many

variable {m : Machine} {destination : Path} {s t : Step} (hs : Accepted m destination s)
  (ht : Accepted m destination t) (hd : m.root.isDirectoryAt destination = true)

include hs hd

/-- With many sources each keeps its name. -/
theorem Accepted.target_child :
    ∃ name : String, s.source.name? = some name ∧ s.target = destination.child name := by
  obtain ⟨parent, name, he⟩ := Path.exists_eq_child hs.source_ne_nil
  refine ⟨name, by rw [he, Path.name?_child], ?_⟩
  rw [hs.target_eq, landing, if_pos hd, he, Path.name?_child, Option.getD_some]

include ht

theorem Accepted.apart_targets (hne : s.target ≠ t.target) : Apart s.target t.target := by
  obtain ⟨a, -, ha⟩ := hs.target_child hd
  obtain ⟨b, -, hb⟩ := ht.target_child hd
  rw [ha, hb] at hne ⊢
  exact Path.apart_children fun he => hne (by rw [he])

/-- A source at another one's target would be its own target, and a source above the destination
would have its own target below it. -/
theorem Accepted.apart_other (hne : s.target ≠ t.target) : Apart s.source t.target := by
  obtain ⟨a, hna, ha⟩ := hs.target_child hd
  obtain ⟨b, -, hb⟩ := ht.target_child hd
  have hsource : s.source ≠ t.target := by
    intro he
    rw [he, hb, Path.name?_child, Option.some.injEq] at hna
    exact hne (by rw [ha, hb, hna])
  refine apart_of_plain hs.contains_source ht.target_plain hsource.symm fun hp => ?_
  rw [hb] at hp hsource
  rcases Path.prefix_child_iff.mp hp with hp | hp
  · exact hs.target_outside (ha ▸ hp.trans (Path.prefix_child destination a))
  · exact hsource hp

end Many

/-- The checks of a plan exclude that its steps meet. -/
theorem Checked.compatible {m : Machine} {destination : Path} {plan : List Step}
    (h : Checked m destination plan)
    (hd : 1 < plan.length → m.root.isDirectoryAt destination = true) :
    Compatible m.root plan := by
  have hmany : ∀ s ∈ plan, ∀ t ∈ plan, s ≠ t → m.root.isDirectoryAt destination = true := by
    intro s hs t ht hne
    refine hd ?_
    rcases plan with _ | ⟨u, _ | ⟨v, rest⟩⟩
    · cases hs
    · exact absurd ((List.mem_singleton.mp hs).trans (List.mem_singleton.mp ht).symm) hne
    · simp
  refine
    { contains_source := fun s hs => (h.accepted s hs).contains_source
      source_ne_nil := fun s hs => (h.accepted s hs).source_ne_nil
      parent_isDirectory := fun s hs => (h.accepted s hs).parent_isDirectory
      source_target := fun s hs t ht => ?_
      sources := h.clear.imp Clear.sources
      targets := ?_ }
  · by_cases hne : s = t
    · exact hne ▸ (h.accepted s hs).apart
    · exact (h.accepted s hs).apart_other (h.accepted t ht) (hmany s hs t ht hne)
        (h.clear.forall hs ht hne).targets
  · refine h.clear.imp_of_mem fun {s t} hs ht hc => ?_
    have hne : s ≠ t := fun he => hc.targets (he ▸ rfl)
    exact (h.accepted s hs).apart_targets (h.accepted t ht) (hmany s hs t ht hne) hc.targets

/-- The front of a plan is compatible if the plan is. -/
theorem Compatible.left {root : Node} {plan : List Step} {s : Step}
    (h : Compatible root (plan ++ [s])) : Compatible root plan where
  contains_source t ht := h.contains_source t (List.mem_append_left _ ht)
  source_ne_nil t ht := h.source_ne_nil t (List.mem_append_left _ ht)
  parent_isDirectory t ht := h.parent_isDirectory t (List.mem_append_left _ ht)
  source_target t ht u hu :=
    h.source_target t (List.mem_append_left _ ht) u (List.mem_append_left _ hu)
  sources := (List.pairwise_append.mp h.sources).1
  targets := (List.pairwise_append.mp h.targets).1

/-- What becomes of a node that is transferred to a place of a name. -/
def transferred (c : Call) (m : Machine) (manner : Manner) (name : String) (n : Node) : Node :=
  match manner with
  | .copy => (copied c m n).renamed name
  | .move => n.renamed name

/-- What a plan makes of a tree. -/
structure Carried (c : Call) (m : Machine) (manner : Manner) (plan : List Step)
    (root root' : Node) : Prop where
  arrived : ∀ s ∈ plan,
    root'.get? s.target = (root.get? s.source).map (transferred c m manner s.name)
  gone : manner = .move → ∀ s ∈ plan, root'.get? s.source = none
  elsewhere : ∀ q, (∀ s ∈ plan, Apart s.target q ∧ (manner = .move → Apart s.source q)) →
    root'.get? q = root.get? q
  shape : ∀ q, (∀ s ∈ plan, ¬s.target <+: q ∧ ¬s.source <+: q) → root'.shapeAt q = root.shapeAt q

variable (c : Call) (m : Machine)

theorem carried_nil (manner : Manner) (root : Node) : Carried c m manner [] root root where
  arrived _ h := by cases h
  gone _ _ h := by cases h
  elsewhere _ _ := rfl
  shape _ _ := rfl

@[simp] theorem name_transferred (manner : Manner) (name : String) (n : Node) :
    (transferred c m manner name n).name = name := by
  cases manner <;> simp [transferred]

section Insert

variable {c m} {root root' n : Node} {manner : Manner} {s : Step}
  (h : root.insert s.parent (transferred c m manner s.name n) = .ok root')

include h

theorem get?_target_of_insert : root'.get? s.target = some (transferred c m manner s.name n) := by
  have hnew := Node.get?_insert_self h
  rwa [name_transferred] at hnew

theorem get?_of_insert {q : Path} (hq : Apart s.target q) : root'.get? q = root.get? q :=
  Node.get?_insert_apart h (by rwa [name_transferred])

theorem shapeAt_of_insert {q : Path} (hq : ¬s.target <+: q) :
    root'.shapeAt q = root.shapeAt q :=
  Node.shapeAt_insert h (by rwa [name_transferred])

end Insert

/-- A step can be made whenever its source stands, and its target's directory does. -/
theorem make_step (manner : Manner) {root n : Node} {s : Step} (hn : root.get? s.source = some n)
    (hs : s.source ≠ []) (hapart : Apart s.source s.target)
    (hp : root.isDirectoryAt s.parent = true) :
    ∃ root', make c m manner s root = .ok () root' ∧ Carried c m manner [s] root root' := by
  cases manner with
  | copy =>
    obtain ⟨root', hi⟩ := Node.exists_insert hp (transferred c m .copy s.name n)
    refine ⟨root', by simp only [make, hn]; exact Node.insertFor_ok hi _ _, ?_⟩
    exact {
      arrived := by simpa [hn] using get?_target_of_insert hi
      gone := nofun
      elsewhere := fun q hq => get?_of_insert hi (hq s List.mem_cons_self).1
      shape := fun q hq => shapeAt_of_insert hi (hq s List.mem_cons_self).1 }
  | move =>
    obtain ⟨above, name, hsource⟩ := Path.exists_eq_child hs
    obtain ⟨mid, hmid⟩ : ∃ mid, root.remove s.source = .ok (n, mid) :=
      ⟨_, Node.remove_eq_ok_iff.mpr ⟨above, name, hsource, hn, rfl⟩⟩
    have hparent : mid.isDirectoryAt s.parent = true := by
      rw [Node.isDirectoryAt_congr (Node.shapeAt_remove hmid ?_), hp]
      exact fun h => hapart.1 (h.trans (Path.prefix_child s.parent s.name))
    obtain ⟨root', hi⟩ := Node.exists_insert hparent (transferred c m .move s.name n)
    refine ⟨root', ?_, ?_⟩
    · rw [make, Action.bind_apply, Node.removeFor_ok hmid]
      exact Node.insertFor_ok hi _ _
    · exact {
        arrived := by simpa [hn] using get?_target_of_insert hi
        gone := by
          have hgone := Node.get?_remove_self hmid
          simpa [get?_of_insert hi hapart.symm] using hgone
        elsewhere := fun q hq => by
          obtain ⟨htarget, hsource⟩ := hq s List.mem_cons_self
          rw [get?_of_insert hi htarget, Node.get?_remove_apart hmid (hsource rfl)]
        shape := fun q hq => by
          obtain ⟨htarget, hsource⟩ := hq s List.mem_cons_self
          rw [shapeAt_of_insert hi htarget, Node.shapeAt_remove hmid hsource] }

/-- Steps that do not meet add up. -/
theorem Carried.concat {c : Call} {m : Machine} {manner : Manner} {plan : List Step} {s : Step}
    {root mid root' : Node} (h : Carried c m manner plan root mid)
    (hstep : Carried c m manner [s] mid root') (hc : Compatible root (plan ++ [s])) :
    Carried c m manner (plan ++ [s]) root root' := by
  have hlast : s ∈ plan ++ [s] := by simp
  have hsources := (List.pairwise_append.mp hc.sources).2.2
  have htargets := (List.pairwise_append.mp hc.targets).2.2
  constructor
  case arrived =>
    intro t ht
    rcases List.mem_append.mp ht with ht' | hs
    · rw [hstep.elsewhere, h.arrived t ht']
      simp only [List.forall_mem_singleton]
      exact ⟨(htargets t ht' s (by simp)).symm, fun _ => hc.source_target s hlast t ht⟩
    · cases List.mem_singleton.mp hs
      rw [hstep.arrived s hs, h.elsewhere]
      intro t ht
      exact ⟨(hc.source_target s hlast t (List.mem_append_left _ ht)).symm,
        fun _ => hsources t ht s (by simp)⟩
  case gone =>
    intro hm t ht
    rcases List.mem_append.mp ht with ht' | hs
    · rw [hstep.elsewhere, h.gone hm t ht']
      simp only [List.forall_mem_singleton]
      exact ⟨(hc.source_target t ht s hlast).symm, fun _ => (hsources t ht' s (by simp)).symm⟩
    · exact hstep.gone hm t hs
  case elsewhere =>
    intro q hq
    rw [List.forall_mem_append] at hq
    rw [hstep.elsewhere q hq.2, h.elsewhere q hq.1]
  case shape =>
    intro q hq
    rw [List.forall_mem_append] at hq
    rw [hstep.shape q hq.2, h.shape q hq.1]

/-- The steps of a plan can be made one after the other, each as if it were alone: those before it
have touched neither its source nor the directory of its target. -/
theorem run_plan (manner : Manner) {root : Node} {plan : List Step} (h : Compatible root plan) :
    ∃ root', plan.forM (make c m manner) root = .ok () root' ∧
      Carried c m manner plan root root' := by
  induction plan using List.reverseRecOn with
  | nil => exact ⟨root, rfl, carried_nil c m manner root⟩
  | append_singleton plan s ih =>
    obtain ⟨mid, hmid, hcarried⟩ := ih h.left
    have hs : s ∈ plan ++ [s] := by simp
    have hsource : mid.get? s.source = root.get? s.source := by
      refine hcarried.elsewhere _ fun t ht => ⟨?_, fun _ => ?_⟩
      · exact (h.source_target s hs t (List.mem_append_left _ ht)).symm
      · exact (List.pairwise_append.mp h.sources).2.2 t ht s (by simp)
    have hparent : mid.isDirectoryAt s.parent = true := by
      rw [Node.isDirectoryAt_congr (hcarried.shape s.parent fun t ht => ⟨?_, ?_⟩),
        h.parent_isDirectory s hs]
      · intro hp
        exact ((List.pairwise_append.mp h.targets).2.2 t ht s (by simp)).1
          (hp.trans (Path.prefix_child s.parent s.name))
      · intro hp
        exact (h.source_target t (List.mem_append_left _ ht) s hs).1
          (hp.trans (Path.prefix_child s.parent s.name))
    obtain ⟨n, hn⟩ := Option.isSome_iff_exists.mp (h.contains_source s hs)
    obtain ⟨root', hroot, hstep⟩ := make_step c m manner (hsource.trans hn)
      (h.source_ne_nil s hs) (h.source_target s hs s hs) hparent
    exact ⟨root', by rw [Action.forM_concat, hmid]; exact hroot, hcarried.concat hstep h⟩

/-- The last operand is the target, and all others are sources. -/
theorem planRun_ok {manner : Manner} {o : Shell.Options} {m : Machine} {steps : List Step}
    (h : planRun manner o m = .ok steps) : ∃ sources target, o.operands = sources ++ [target] ∧
      plan m manner.command sources target = .ok steps := by
  unfold planRun at h
  dsimp only at h
  split at h
  · cases h
  · cases h
  · next target hlast _ =>
    obtain ⟨sources, he⟩ := List.getLast?_eq_some_iff.mp hlast
    obtain ⟨plan, hplan, h⟩ := Plan.bind_eq_ok_iff.mp h
    rw [he, List.dropLast_concat] at hplan
    have hsteps : plan = steps := by
      split at h
      · split at h <;> cases h
        rfl
      · cases h
        rfl
    exact ⟨sources, target, he, hsteps ▸ hplan⟩

/-- A plan that is accepted is run to its end. -/
theorem keepsOnFault_run (manner : Manner) (c : Call) (m : Machine) :
    Action.KeepsOnFault (run manner c m) m.root := by
  refine Action.keepsOnFault_planned fun steps hplan => ?_
  obtain ⟨sources, target, -, hsteps⟩ := planRun_ok hplan
  obtain ⟨rfl, hchecked, hd⟩ := plan_ok hsteps
  rw [List.length_map] at hd
  obtain ⟨root', hrun, -⟩ := run_plan c m manner (hchecked.compatible hd)
  exact Action.Succeeds.keepsOnFault ⟨(), root', hrun⟩

/-- What `cp` or `mv` makes of the tree of a machine: each source arrives at its own place, those
that are moved are gone, and nothing else is seen to change. -/
structure Delivered (c : Call) (m : Machine) (manner : Manner) (destination : Path)
    (sources : List Path) (root' : Node) : Prop where
  arrived : ∀ p ∈ sources, ∃ n name, m.root.get? p = some n ∧
    (landing m.root destination p).name? = some name ∧
    root'.get? (landing m.root destination p) = some (transferred c m manner name n)
  left : ∀ p ∈ sources, root'.get? p = match manner with
    | .copy => m.root.get? p
    | .move => none
  elsewhere : ∀ q, (∀ p ∈ sources, Apart (landing m.root destination p) q ∧
    (manner = .move → Apart p q)) → root'.get? q = m.root.get? q
  distinct : sources.Pairwise fun p q =>
    Apart p q ∧ Apart (landing m.root destination p) (landing m.root destination q)
  separate : ∀ p ∈ sources, ∀ q ∈ sources, Apart p (landing m.root destination q)

variable {c m}

/-- Read for the sources, a plan that is carried out is a delivery: the checks tell where each of
them lands. -/
theorem Carried.delivered {manner : Manner} {destination : Path} {plan : List Step}
    {root' : Node} (h : Carried c m manner plan m.root root')
    (hchecked : Checked m destination plan) (hc : Compatible m.root plan) :
    Delivered c m manner destination (plan.map Step.source) root' := by
  have hlanding : ∀ s ∈ plan, landing m.root destination s.source = s.target :=
    fun s hs => (hchecked.accepted s hs).target_eq.symm
  constructor
  case arrived =>
    rw [List.forall_mem_map]
    intro s hs
    obtain ⟨n, hn⟩ := Option.isSome_iff_exists.mp (hc.contains_source s hs)
    refine ⟨n, s.name, hn, ?_, ?_⟩
    · rw [hlanding s hs, Step.target, Path.name?_child]
    · rw [hlanding s hs, h.arrived s hs, hn, Option.map_some]
  case left =>
    rw [List.forall_mem_map]
    intro s hs
    cases manner with
    | copy => exact h.elsewhere _ fun t ht => ⟨(hc.source_target s hs t ht).symm, nofun⟩
    | move => exact h.gone rfl s hs
  case elsewhere =>
    intro q hq
    rw [List.forall_mem_map] at hq
    exact h.elsewhere q fun s hs => by simpa only [hlanding s hs] using hq s hs
  case distinct =>
    rw [List.pairwise_map]
    refine (hc.sources.and hc.targets).imp_of_mem fun hs ht hst => ?_
    rwa [hlanding _ hs, hlanding _ ht]
  case separate =>
    simp only [List.forall_mem_map]
    intro s hs t ht
    rw [hlanding t ht]
    exact hc.source_target s hs t ht

/-- Whatever `cp` or `mv` does without a fault is a delivery of its sources. -/
theorem delivered_of_run {manner : Manner} {operands : List String} {target : String} {r : Reply}
    {root' : Node} (hoperands : (c.options "").operands = operands ++ [target])
    (h : run manner c m m.root = .ok r root') :
    Delivered c m manner (m.resolve target) (operands.map m.resolve) root' := by
  unfold run at h
  cases hplan : planRun manner (c.options "") m with
  | error fault => simp [hplan, Action.bind_apply] at h
  | ok plan =>
    obtain ⟨sources, destination, he, hsteps⟩ := planRun_ok hplan
    obtain ⟨rfl, rfl⟩ : sources = operands ∧ destination = target := by
      simpa using he.symm.trans hoperands
    obtain ⟨rfl, hchecked, hd⟩ := plan_ok hsteps
    rw [List.length_map] at hd
    have hc := hchecked.compatible hd
    obtain ⟨made, hmade, hcarried⟩ := run_plan c m manner hc
    have hroot : made = root' := by
      simp only [hplan, Action.bind_apply, Action.ofExcept_ok, hmade, Action.pure_apply] at h
      cases h
      rfl
    have hsources : plan.map Step.source = (plan.map Step.operand).map m.resolve := by
      rw [List.map_map]
      exact List.map_congr_left fun s hs => (hchecked.accepted s hs).source_eq
    rw [← hroot, ← hsources]
    exact hcarried.delivered hchecked hc

end PocketUnix.Transfer
