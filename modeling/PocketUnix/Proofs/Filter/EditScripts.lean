import PocketUnix.Filter.Diff

/-!
# Edit scripts

The table is opened here once, by its tails: whoever drops the first line of a list has the table of
the lists that are left. The script then has one equation for each step that it can begin with.
-/

namespace PocketUnix.Filter

variable {line : String} {a b : List String} {es : List Edit}

/-- The edits lead from the left lines to the right ones. -/
inductive EditsTo : List String → List String → List Edit → Prop
  | nil : EditsTo [] [] []
  | keep {a b : List String} {es : List Edit} (line : String) (h : EditsTo a b es) :
    EditsTo (line :: a) (line :: b) (.keep line :: es)
  | delete {a b : List String} {es : List Edit} (line : String) (h : EditsTo a b es) :
    EditsTo (line :: a) b (.delete line :: es)
  | insert {a b : List String} {es : List Edit} (line : String) (h : EditsTo a b es) :
    EditsTo a (line :: b) (.insert line :: es)

def Edit.kept? : Edit → Option String
  | .keep line => some line
  | .delete _ | .insert _ => none

/-- The lines that the edits keep. -/
def kept (es : List Edit) : List String := es.filterMap Edit.kept?

/-- How many lines the edits delete or insert. -/
def changeCount (es : List Edit) : Nat := es.countP (·.kept?.isNone)

@[simp] theorem kept_keep : kept (.keep line :: es) = line :: kept es := rfl
@[simp] theorem kept_delete : kept (.delete line :: es) = kept es := rfl
@[simp] theorem kept_insert : kept (.insert line :: es) = kept es := rfl

@[simp] theorem changeCount_nil : changeCount [] = 0 := rfl
@[simp] theorem changeCount_keep : changeCount (.keep line :: es) = changeCount es := by
  simp [changeCount, Edit.kept?]
@[simp] theorem changeCount_delete : changeCount (.delete line :: es) = changeCount es + 1 := by
  simp [changeCount, Edit.kept?]
@[simp] theorem changeCount_insert : changeCount (.insert line :: es) = changeCount es + 1 := by
  simp [changeCount, Edit.kept?]

@[simp] theorem kept_map_insert (b : List String) : kept (b.map .insert) = [] := by
  simp [kept, Function.comp_def, Edit.kept?]

theorem EditsTo.insertAll (b : List String) : EditsTo [] b (b.map .insert) := by
  induction b with
  | nil => exact .nil
  | cons y b ih => exact .insert y ih

theorem EditsTo.kept_sublist_left (h : EditsTo a b es) : (kept es).Sublist a := by
  induction h with
  | nil => exact List.Sublist.slnil
  | keep line _ ih => exact ih.cons_cons line
  | delete line _ ih => exact ih.cons line
  | insert _ _ ih => exact ih

theorem EditsTo.kept_sublist_right (h : EditsTo a b es) : (kept es).Sublist b := by
  induction h with
  | nil => exact List.Sublist.slnil
  | keep line _ ih => exact ih.cons_cons line
  | delete _ _ ih => exact ih
  | insert line _ ih => exact ih.cons line

/-- Every line of the two sides is kept, for both at once, or changed. -/
theorem EditsTo.changeCount_add_kept (h : EditsTo a b es) :
    changeCount es + 2 * (kept es).length = a.length + b.length := by
  induction h with
  | nil => rfl
  | keep _ _ ih =>
    simp only [changeCount_keep, kept_keep, List.length_cons]
    omega
  | delete _ _ ih =>
    simp only [changeCount_delete, kept_delete, List.length_cons]
    omega
  | insert _ _ ih =>
    simp only [changeCount_insert, kept_insert, List.length_cons]
    omega

/-- The row of the table for the whole left list. -/
def row (a b : List String) : List Nat := (commonTable a b).headD []

/-- What the table says of the whole lists. -/
def common (a b : List String) : Nat := (row a b).headD 0

theorem tail_row (a : List String) (y : String) (b : List String) :
    (row a (y :: b)).tail = row a b := by
  induction a with
  | nil => rfl
  | cons x a ih =>
    change commonRow x b (row a (y :: b)).tail = commonRow x b (row a b)
    rw [ih]

/-- Without their first places, the rows are those of the table without the first line on the right.
-/
theorem map_tail_commonTable (a : List String) (y : String) (b : List String) :
    (commonTable a (y :: b)).map List.tail = commonTable a b := by
  induction a with
  | nil => rfl
  | cons x a ih =>
    change (row (x :: a) (y :: b)).tail :: (commonTable a (y :: b)).map List.tail =
      row (x :: a) b :: commonTable a b
    rw [tail_row, ih]

@[simp] theorem common_nil_left (b : List String) : common [] b = 0 := by
  cases b <;> rfl

@[simp] theorem common_nil_right (a : List String) : common a [] = 0 := by
  cases a <;> rfl

theorem common_cons_cons (x y : String) (a b : List String) :
    common (x :: a) (y :: b) =
      if x = y then common a b + 1 else max (common a (y :: b)) (common (x :: a) b) := by
  change (if x = y then (row a (y :: b)).tail.headD 0 + 1
      else max ((row a (y :: b)).headD 0) ((commonRow x b (row a (y :: b)).tail).headD 0)) = _
  rw [tail_row]
  rfl

@[simp] theorem editScript_nil (b : List String) : editScript [] b = b.map .insert := rfl

@[simp] theorem editScript_cons_nil (x : String) (a : List String) :
    editScript (x :: a) [] = .delete x :: editScript a [] := rfl

/-- Equal lines are kept, and else the table says which side may go on without loss. -/
theorem editScript_cons_cons (x y : String) (a b : List String) :
    editScript (x :: a) (y :: b) =
      if x = y then .keep x :: editScript a b
      else if common (x :: a) b ≤ common a (y :: b) then .delete x :: editScript a (y :: b)
      else .insert y :: editScript (x :: a) b := by
  change (if x = y then Edit.keep x :: edits a b ((commonTable a (y :: b)).map List.tail)
    else if (row (x :: a) (y :: b)).tail.headD 0 ≤ common a (y :: b) then
      .delete x :: editScript a (y :: b)
    else .insert y :: editsAt x (edits a) b ((commonTable (x :: a) (y :: b)).map List.tail)) = _
  rw [map_tail_commonTable, map_tail_commonTable, tail_row]
  rfl

/-- The script leads from one list to the other. -/
theorem editsTo_editScript (a b : List String) : EditsTo a b (editScript a b) := by
  induction a generalizing b with
  | nil => exact .insertAll b
  | cons x a iha =>
    induction b with
    | nil => exact .delete x (iha [])
    | cons y b ihb =>
      rw [editScript_cons_cons]
      split
      · next heq =>
        subst heq
        exact .keep x (iha b)
      · split
        · exact .delete x (iha (y :: b))
        · exact .insert y ihb

theorem editScript_self (a : List String) : editScript a a = a.map .keep := by
  induction a with
  | nil => rfl
  | cons x a ih => rw [editScript_cons_cons, if_pos rfl, ih, List.map_cons]

end PocketUnix.Filter
