/-!
# Tables

A table holds values under texts, sorted by the code points of the texts. Putting a value under a
text that is present replaces the old value.
-/

namespace PocketUnix

abbrev Table (α : Type) := List (String × α)

namespace Table

variable {α : Type}

def get? (name : String) : Table α → Option α
  | [] => none
  | (key, value) :: rest => if key = name then some value else get? name rest

/-- Looks for a name by halving what is left of a table until there is one entry to compare. -/
def search? (name : String) : Table α → Option α
  | [] => none
  | [(key, value)] => if key = name then some value else none
  | first :: second :: rest =>
    let t := first :: second :: rest
    let half := t.length / 2
    have hhalf : half < t.length := by grind
    if name < t[half].1 then search? name (t.take (t.length - half))
    else search? name (t.drop half)
termination_by t => t.length
decreasing_by all_goals grind

def contains (t : Table α) (name : String) : Bool := (get? name t).isSome

def insert (name : String) (value : α) : Table α → Table α
  | [] => [(name, value)]
  | (key, old) :: rest =>
    if key = name then (name, value) :: rest
    else if name < key then (name, value) :: (key, old) :: rest
    else (key, old) :: insert name value rest

def erase (name : String) (t : Table α) : Table α := t.filter fun entry => entry.1 != name

def ofList (entries : List (String × α)) : Table α :=
  entries.foldl (fun t entry => insert entry.1 entry.2 t) []

theorem get?_insert (t : Table α) (name other : String) (value : α) :
    get? other (insert name value t) = if name = other then some value else get? other t := by
  induction t with
  | nil => simp [insert, get?]
  | cons entry rest ih =>
    obtain ⟨key, old⟩ := entry
    unfold insert
    split
    · next h => subst h; by_cases h : key = other <;> simp [get?, h]
    · next hk =>
      split
      · simp [get?]
      · by_cases h : key = other
        · have hn : name ≠ other := fun e => hk (h.trans e.symm)
          simp [get?, h, hn]
        · simp [get?, h, ih]

theorem get?_erase (t : Table α) (name other : String) :
    get? other (erase name t) = if name = other then none else get? other t := by
  induction t with
  | nil => simp [erase, get?]
  | cons entry rest ih =>
    obtain ⟨key, value⟩ := entry
    unfold erase at ih ⊢
    by_cases hk : key = name
    · subst hk
      by_cases h : key = other <;> simp_all [get?]
    · by_cases h : key = other
      · subst h; simp [get?, hk, Ne.symm hk]
      · simp [get?, hk, h, ih]

end Table

end PocketUnix
