import Mathlib.Data.List.Basic
import PocketUnix.Proofs.Command.SoundTrees
import PocketUnix.Proofs.Sample
import PocketUnix.Proofs.Session.Runs

/-!
# The shape of all trees of a session

The tree at the start is sound, and every session keeps its tree so: directories and links show
what they are in their permission texts, and every node stands under its own name.
-/

namespace PocketUnix

open PocketUnix.Node (Fits Sound WellFormed)

namespace Seed

variable {P : String → Prop} (now : DateTime)

/-- A node that can be put under its name. -/
structure Placeable (P : String → Prop) (n : Node) : Prop where
  wellFormed : WellFormed P n
  named : P n.name

/-- A directory of nodes that can be placed is sound, each of them under its name. -/
theorem wellFormed_directory (name owner group : String) {nodes : List Node}
    (h : nodes.Forall (Placeable P)) :
    let d := directory now name owner group nodes
    WellFormed P d ∧ d.isDirectory = true ∧ d.name = name := by
  have hfold : ∀ d : Node, WellFormed P d ∧ d.isDirectory = true ∧ d.name = name →
      let d' := nodes.foldl (fun d n => .withEntry n d) d
      WellFormed P d' ∧ d'.isDirectory = true ∧ d'.name = name := by
    rw [List.forall_iff_forall_mem] at h
    induction nodes with
    | nil => exact fun _ hd => hd
    | cons n rest ih =>
      obtain ⟨hn, hrest⟩ := List.forall_mem_cons.mp h
      rintro d ⟨hwf, hd, hname⟩
      refine ih hrest (.withEntry n d) ⟨hwf.withEntry hn.wellFormed hn.named, ?_, ?_⟩
      · rw [Node.isDirectory_withEntry, hd]
      · rw [Node.name_withEntry, hname]
  exact hfold _ ⟨Node.wellFormed_newDirectory name owner group now, rfl, rfl⟩

theorem placeable_directory {name : String} (h : P name) (owner group : String) {nodes : List Node}
    (hnodes : nodes.Forall (Placeable P)) : Placeable P (directory now name owner group nodes) := by
  obtain ⟨hwf, -, hname⟩ := wellFormed_directory now name owner group hnodes
  exact ⟨hwf, hname.symm ▸ h⟩

theorem placeable_file {name : String} (h : P name) (owner group content : String) :
    Placeable P (.newFile name owner group now content) :=
  ⟨Node.wellFormed_newFile name owner group now content, h⟩

/-- A file may have any permissions behind a letter that is not that of directories or links. -/
theorem placeable_withPermissions {name : String} (h : P name) (owner group content : String)
    (letter : Char) (bits : List Bool) (hlen : bits.length = 9) (hd : letter ≠ 'd')
    (hl : letter ≠ 'l') :
    Placeable P (withPermissions (Permissions.render letter bits)
      (.newFile name owner group now content)) := by
  have hfits : (Node.newFile name owner group now content).Fits
      (Permissions.render letter bits) := by
    refine ⟨⟨letter, bits, hlen, rfl⟩, ?_, ?_⟩
    · simp [hd, Node.newFile, Node.isDirectory]
    · simp [hl, Node.newFile, Node.isLink]
  exact ⟨(Node.wellFormed_newFile name owner group now content).withAttributes hfits, h⟩

theorem placeable_executable {name : String} (h : P name) (owner group content : String) :
    Placeable P (withPermissions Permissions.executable
      (.newFile name owner group now content)) :=
  placeable_withPermissions now h owner group content '-'
    [true, true, true, true, false, true, true, false, true] rfl (by decide) (by decide)

open PocketUnix.Path (IsName)

/-- The homes at the start. -/
theorem placeable_homes : Placeable IsName (homes now) :=
  placeable_directory now (by decide) _ _ <| placeable_directory now (by decide) _ _
    ⟨placeable_file now (by decide) _ _ _,
      placeable_directory now (by decide) _ _
        ⟨placeable_file now (by decide) _ _ _, placeable_file now (by decide) _ _ _⟩,
      placeable_directory now (by decide) _ _ (placeable_executable now (by decide) _ _ _),
      placeable_file now (by decide) _ _ _⟩

theorem placeable_settings (hostname : String) : Placeable IsName (settings now hostname) :=
  placeable_directory now (by decide) _ _
    ⟨placeable_file now (by decide) _ _ _, placeable_file now (by decide) _ _ _,
      placeable_file now (by decide) _ _ _, placeable_file now (by decide) _ _ _,
      placeable_withPermissions now (by decide) _ _ _ '-'
        [true, false, false, true, false, false, false, false, false] rfl (by decide) (by decide)⟩

theorem placeable_logs : Placeable IsName (logs now) :=
  placeable_directory now (by decide) _ _ <| placeable_directory now (by decide) _ _
    ⟨placeable_file now (by decide) _ _ _, placeable_file now (by decide) _ _ _⟩

/-- The devices at the start. -/
theorem placeable_devices : Placeable IsName (devices now) :=
  placeable_directory now (by decide) _ _
    ⟨placeable_withPermissions now (by decide) _ _ _ 'c'
        [true, true, false, true, true, false, true, true, false] rfl (by decide) (by decide),
      placeable_withPermissions now (by decide) _ _ _ 'b'
        [true, true, false, true, true, false, false, false, false] rfl (by decide) (by decide),
      placeable_withPermissions now (by decide) _ _ _ 'b'
        [true, true, false, true, true, false, false, false, false] rfl (by decide) (by decide)⟩

theorem placeable_programs : Placeable IsName (programs now) :=
  placeable_directory now (by decide) _ _
    ⟨placeable_executable now (by decide) _ _ _, placeable_executable now (by decide) _ _ _⟩

/-- The tree at the start is made of directories of such nodes. -/
theorem sound_root (hostname : String) : Sound IsName (root now hostname) := by
  have hproc : Placeable IsName (systemDirectory now "proc" []) :=
    placeable_directory now (by decide) _ _ trivial
  have hnodes : List.Forall (Placeable IsName) [homes now, settings now hostname, logs now,
      systemDirectory now "proc" [], devices now, programs now] :=
    ⟨placeable_homes now, placeable_settings now hostname, placeable_logs now, hproc,
      placeable_devices now, placeable_programs now⟩
  obtain ⟨hwf, hd, hname⟩ := wellFormed_directory now "" "root" "root" hnodes
  exact ⟨hwf, hd, hname⟩

end Seed

namespace Session

/-- A session starts with the machine of its settings, with the editor closed. -/
theorem seed_of_start {config : Config} {clock : Clock} {s : Session}
    (h : start config clock = .ok s) :
    Seed.machine clock.now config = .ok s.machine ∧ s.editor = none := by
  unfold start at h
  cases hvalid : config.validate with
  | error fault => rw [hvalid] at h; cases h
  | ok _ =>
    cases hmachine : Seed.machine clock.now config with
    | error fault => rw [hvalid, hmachine] at h; cases h
    | ok m =>
      rw [hvalid, hmachine] at h
      cases h
      exact ⟨rfl, rfl⟩

theorem root_start {config : Config} {clock : Clock} {s : Session}
    (h : start config clock = .ok s) :
    s.machine.root = Seed.root clock.now config.hostname := by
  have hmachine := (seed_of_start h).1
  unfold Seed.machine at hmachine
  split at hmachine
  · cases hmachine
  · exact congrArg Machine.root (Except.ok.inj hmachine).symm

/-- No job and nothing that is saved does any harm to the shape of the tree. -/
theorem invariant_sound : Invariant (fun _ => True) (fun m => Sound (fun _ => True) m.root)
    fun _ => True where
  run _ _ _ hm _ := Command.sound_run hm fun _ _ => ⟨fun _ _ _ => trivial, fun _ _ => trivial⟩
  edit _ _ _ _ _ _ _ _ _ _ _ _ := trivial
  read _ _ _ := trivial
  save _ _ _ _ _ hm _ hw := Sound.store hm (fun _ _ => trivial) hw

/-- What no step breaks holds after every run. -/
theorem sound_after {config : Config} {clock : Clock} {s : Session}
    (hstart : start config clock = .ok s) (events : List Event) :
    Sound (fun _ => True) (s.after events).machine.root := by
  have hseed : Sound (fun _ => True) s.machine.root := by
    rw [root_start hstart]
    exact (Seed.sound_root clock.now config.hostname).mono fun _ _ => trivial
  have hs : Holds (fun m => Sound (fun _ => True) m.root) (fun _ => True) s :=
    ⟨hseed, fun _ _ _ _ => trivial⟩
  exact (invariant_sound.after hs fun _ _ => trivial).machine

/-- Whatever is done in a session, the root stays a directory without a name, and at every path
the entries of a node stand in order, each under the name that it bears, and its permission text
has ten letters that show what kind of node it is and which rights it grants. -/
theorem shape_after {config : Config} {clock : Clock} {s : Session}
    (hstart : start config clock = .ok s) (events : List Event) :
    let root := (s.after events).machine.root
    root.isDirectory = true ∧ root.name = "" ∧ ∀ p n, root.get? p = some n →
      (n.entries.Pairwise fun a b => a.1 < b.1) ∧ (∀ e ∈ n.entries, e.1 = e.2.name) ∧
      let letters := n.attributes.permissions.toList
      letters.length = 10 ∧ (letters[0]? = some 'd' ↔ n.isDirectory = true) ∧
        (letters[0]? = some 'l' ↔ n.isLink = true) ∧
        ∀ i < 9, letters[i + 1]? = some '-' ∨ letters[i + 1]? = ['r', 'w', 'x'][i % 3]? := by
  have hs : Sound (fun _ => True) (s.after events).machine.root := sound_after hstart events
  refine ⟨hs.isDirectory, hs.name_eq, fun p n hn => ?_⟩
  have hwf : WellFormed (fun _ => True) n := hs.wellFormed.get? hn
  have hfits : n.Fits n.attributes.permissions := hwf.marked
  refine ⟨hwf.sorted, fun e he => (hwf.keyed he).1, hfits.rendered.length_eq, ?_, ?_, ?_⟩
  · rw [hfits.rendered.first, Option.some.injEq, hfits.directory_iff]
  · rw [hfits.rendered.first, Option.some.injEq, hfits.link_iff]
  · intro i hi
    have hright : ['r', 'w', 'x'][i % 3]? = some (Permissions.rightLetter (i % 3)) := by
      have hmod : i % 3 = 0 ∨ i % 3 = 1 ∨ i % 3 = 2 := by omega
      rcases hmod with h | h | h <;> rw [h] <;> rfl
    rw [hright]
    exact hfits.rendered.place hi

/-- A file that is linked, locked and packed, and then edited. -/
theorem shape_after_edit :
    start Sample.config (.startingAt Sample.time) = .ok Sample.session ∧
      (Sample.session.after [.line "ln -s docs here", .line "chmod u-w,o=x data.csv",
        .line "gzip data.csv", .line "vim notes.txt", .key (.char ':'), .key (.char 'w'),
        .key .enter]).machine.root.isDirectory = true :=
  ⟨Sample.start_session, (shape_after Sample.start_session _).1⟩

end Session

end PocketUnix
