import PocketUnix.Session.Basic

/-!
# A machine to try

The machine of the start at a fixed time, with a context and a session, for the cases of general
theorems.
-/

namespace PocketUnix.Sample

def time : DateTime := ⟨⟨2024, 1, 1⟩, 0, 0⟩

def context : Context := ⟨"", time, []⟩

def machine : Machine where
  root := Seed.root time "terminus"
  system := ⟨Seed.users, Seed.groups, "terminus", "user", Seed.processes, Seed.network⟩
  cwd := Path.home "user"

def config : Config := { hostname := "terminus" }

def session : Session where
  config := config
  clock := .startingAt time
  machine := machine
  transcript := Session.banner
  editor := none
  input := {}
  submitted := []

theorem start_session : Session.start config (.startingAt time) = .ok session := rfl

instance decidableAnswer : DecidableEq (Except Fault Reply)
  | .ok r, .ok r' => decidable_of_iff (r = r') (by simp)
  | .error e, .error e' => decidable_of_iff (e = e') (by simp)
  | .ok _, .error _ => isFalse nofun
  | .error _, .ok _ => isFalse nofun

end PocketUnix.Sample
