import PocketUnix.Command.Run
import PocketUnix.Proofs.Sample
import PocketUnix.Proofs.Tree.WrittenPaths

/-!
# Going to a directory

Whether one goes to a directory and names something from there, or names it with the directory in
front, makes no difference.
-/

namespace PocketUnix

/-- Where `cd` succeeds, it only changes the working directory. -/
theorem Files.machine_cd {c : Call} {m : Machine} {r : Reply} (h : (cd c m).answer = .ok r) :
    (cd c m).machine = { m with cwd := m.resolve (c.args.headD "~") } := by
  unfold cd at h ⊢
  dsimp only at h ⊢
  split
  · rfl
  · next hplain =>
    rw [if_neg hplain] at h
    cases h

namespace Command

/-- A text with a slash and a relative one behind it names what the relative text names from the
place to which the other one leads. So it names the node that is named after going there, and a name
with a way up behind it may be left out. -/
theorem named_from_there {front text : String} (hfront : Text.isBlank front = false)
    (htext : Path.IsRelative text) :
    (∀ cwd user, Path.resolve cwd user (front ++ "/" ++ text) =
        Path.resolve (Path.resolve cwd user front) user text) ∧
      (∀ x m r, (run x ["cd", front] m).answer = .ok r →
        (run x ["cd", front] m).machine.node? text = m.node? (front ++ "/" ++ text)) ∧
      ∀ name, Path.IsName name → name ≠ "~" → ∀ cwd user,
        Path.resolve cwd user (name ++ "/../" ++ text) = Path.resolve cwd user text := by
  have hslash := Path.resolve_slash hfront htext
  refine ⟨hslash, fun x m r h => ?_, fun name hname htilde => ?_⟩
  · have hcd : run x ["cd", front] m = Files.cd (x.call "cd" [front]) m := rfl
    rw [hcd] at h ⊢
    rw [Files.machine_cd h]
    simp only [Machine.node?, Machine.resolve, Machine.user, hslash]
    rfl
  · exact Path.resolve_up_again hname htilde htext

/-- A directory in the home, from which the text goes up, and a name that begins with a tilde. -/
theorem named_from_there_home :
    Path.resolve ["tmp"] "user" ("~/docs/." ++ "/" ++ "..//data.csv") =
        ["home", "user", "data.csv"] ∧
      (run Sample.context ["cd", "~/docs/."] Sample.machine).machine.node? "..//data.csv" =
        Sample.machine.node? ("~/docs/." ++ "/" ++ "..//data.csv") ∧
      Path.resolve ["tmp"] "user" ("~x" ++ "/../" ++ "..//data.csv") = ["data.csv"] := by
  have hfront : Text.isBlank "~/docs/." = false := by decide
  have htext : Path.IsRelative "..//data.csv" := by decide
  have hcd : (run Sample.context ["cd", "~/docs/."] Sample.machine).answer = .ok .empty := by
    decide +kernel
  obtain ⟨hslash, hnode, hup⟩ := named_from_there hfront htext
  refine ⟨?_, hnode _ _ _ hcd, ?_⟩
  · rw [hslash]
    decide +kernel
  · rw [hup "~x" (by decide) (by decide)]
    decide +kernel

end Command

end PocketUnix
