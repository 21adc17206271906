import PocketUnix.Proofs.Command.Job
import PocketUnix.Proofs.Sample
import PocketUnix.Proofs.Text.Lines
import PocketUnix.Session.Pipeline

/-!
# Lines that are counted behind a filter

`rev`, `sort` and `sed` print a line for each line that they read. The next stage reads them all,
unless the last of them is empty: the newline that would tell of it is not there.
-/

namespace PocketUnix

namespace Chars

variable {c : Char} {old new s : List Char}

/-- Pieces of a text have no letters but those of the text. -/
theorem mem_of_mem_splitAround {sep piece : List Char} {skip : Nat}
    (h : piece ∈ splitAround sep skip s) (hc : c ∈ piece) : c ∈ s := by
  fun_induction splitAround sep skip s generalizing piece with
  | case1 => simp_all
  | case2 skip d cs ih => exact List.mem_cons_of_mem d (ih h hc)
  | case3 d cs hsep ih =>
    rcases List.mem_cons.mp h with rfl | h
    · cases hc
    · exact List.mem_cons_of_mem d (ih h hc)
  | case4 d cs hsep ih =>
    cases hs : splitAround sep 0 cs with
    | nil => simp_all [consFirst]
    | cons first rest =>
      rw [hs] at h ih
      rcases List.mem_cons.mp h with rfl | h
      · rcases List.mem_cons.mp hc with rfl | hc
        · exact List.mem_cons_self
        · exact List.mem_cons_of_mem d (ih List.mem_cons_self hc)
      · exact List.mem_cons_of_mem d (ih (List.mem_cons_of_mem first h) hc)

theorem mem_replaceAll (h : c ∈ replaceAll old new s) : c ∈ new ∨ c ∈ s := by
  refine (mem_of_mem_intercalate h).imp_right ?_
  rintro ⟨piece, hpiece, hc⟩
  exact mem_of_mem_splitAround hpiece hc

/-- A text that is cut at a part is put together again with it. -/
theorem append_of_cutAt? {sep before after : List Char} (h : cutAt? sep s = some (before, after)) :
    before ++ sep ++ after = s := by
  fun_induction cutAt? sep s generalizing before with
  | case1 hsep =>
    cases h
    simpa using hsep
  | case2 => cases h
  | case3 c cs rest hrest =>
    cases h
    exact List.isPrefixOf?_eq_some_iff_append_eq.mp hrest
  | case4 c cs hnone ih =>
    obtain ⟨⟨front, behind⟩, hcut, he⟩ := Option.map_eq_some_iff.mp h
    cases he
    rw [List.cons_append, List.cons_append, ih hcut]

/-- What is put in brings the only letters that were not there. -/
theorem mem_replaceFirst (h : c ∈ replaceFirst old new s) : c ∈ new ∨ c ∈ s := by
  unfold replaceFirst at h
  split at h
  · next before after hcut =>
    rw [← append_of_cutAt? hcut]
    simp only [List.mem_append] at h ⊢
    tauto
  · exact .inr h

end Chars

/-- A substitution leaves a line one line, as what it puts in has no newline. -/
theorem Filter.Substitution.newline_not_mem_apply {s : Substitution} (h : '\n' ∉ s.new.toList)
    {line : String} (hline : '\n' ∉ line.toList) : '\n' ∉ (s.apply line).toList := by
  unfold apply
  split
  · rw [Text.replaceAll, String.toList_ofList]
    exact fun hc => (Chars.mem_replaceAll hc).elim h hline
  · rw [Text.replaceFirst, String.toList_ofList]
    exact fun hc => (Chars.mem_replaceFirst hc).elim h hline

namespace Evaluation

open PocketUnix.Command (run run_plain)

/-- The operand leaves a command with what is piped in. -/
def Piped (operand : Option String) : Prop := operand = none ∨ operand = some "-"

/-- The order in which a call of `sort` asks for its lines. -/
def sortOrder (o : Shell.Options) : Filter.SortOrder :=
  ⟨(o.value? 'k').bind Reading.sortField, o.value? 't', o.has 'n', o.has 'f'⟩

/-- Words that filter what is piped in, and the lines that they make of its lines, of which none is
left out and none is broken up. -/
inductive LineFilter : List String → (List String → List String) → Prop
  | rev {args : List String} (hinput : Piped ((Shell.Options.ofArgs "" args).operand? 0)) :
    LineFilter ("rev" :: args) (List.map Text.reverse)
  | sort {args : List String} {o : Shell.Options} (ho : Shell.Options.ofArgs "kt" args = o)
    (hinput : Piped (o.operand? 0)) (hall : o.has 'u' = false) :
    LineFilter ("sort" :: args) (Filter.sortLines (sortOrder o) (o.has 'r') false)
  | sed {args : List String} {o : Shell.Options} {expression : String} {file : Option String}
    {s : Filter.Substitution} (ho : Shell.Options.ofArgs "e" args = o)
    (hargs : Writing.sedArgs o = some (expression, file)) (hinput : Piped file)
    (hread : Filter.Substitution.read? expression = some s) (hnew : '\n' ∉ s.new.toList)
    (hshown : o.has 'i' = false) : LineFilter ("sed" :: args) (List.map s.apply)

variable {words : List String} {f : List String → List String} {rows : List String}

theorem perm_sortLines (order : Filter.SortOrder) (reversed : Bool) (rows : List String) :
    (Filter.sortLines order reversed false rows).Perm rows := by
  have hsorted := List.mergeSort_perm rows order.le
  cases reversed with
  | false => exact hsorted
  | true => exact (List.reverse_perm _).trans hsorted

theorem LineFilter.length_eq (h : LineFilter words f) (rows : List String) :
    (f rows).length = rows.length := by
  cases h with
  | rev => exact List.length_map _
  | sort => exact (perm_sortLines _ _ rows).length_eq
  | sed => exact List.length_map _

/-- No filter of these breaks a line up. -/
theorem LineFilter.newline_not_mem (h : LineFilter words f)
    (hrows : ∀ row ∈ rows, '\n' ∉ row.toList) : ∀ row ∈ f rows, '\n' ∉ row.toList := by
  intro row hrow
  cases h with
  | rev =>
    obtain ⟨line, hline, rfl⟩ := List.mem_map.mp hrow
    simpa [Text.reverse] using hrows line hline
  | sort => exact hrows row ((perm_sortLines _ _ rows).mem_iff.mp hrow)
  | sed _ _ _ _ hnew =>
    obtain ⟨line, hline, rfl⟩ := List.mem_map.mp hrow
    exact Filter.Substitution.newline_not_mem_apply hnew (hrows line hline)

theorem readInput_of_piped {c : Call} {operand : Option String} (h : Piped operand) (m : Machine) :
    c.readInput m operand = .ok c.stdin := by
  rcases h with rfl | rfl <;> rfl

theorem filtered_of_read {c : Call} {m : Machine} {operand : Option String} {text : String}
    (h : c.readInput m operand = .ok text) (f : String → String) :
    Reading.filtered c m operand f = .ok (.output (f text)) := by
  rw [Reading.filtered, h]
  rfl

theorem filtered_of_piped {c : Call} {operand : Option String} (h : Piped operand) (m : Machine)
    (f : String → String) : Reading.filtered c m operand f = .ok (.output (f c.stdin)) :=
  filtered_of_read (readInput_of_piped h m) f

/-- What `sort` prints of the text that it reads. -/
theorem answer_run_sort (x : Context) {args : List String} {o : Shell.Options} {m : Machine}
    {text : String} (ho : Shell.Options.ofArgs "kt" args = o)
    (hread : (x.call "sort" args).readInput m (o.operand? 0) = .ok text) :
    (run x ("sort" :: args) m).answer = .ok (.output (Text.joinLines
      (Filter.sortLines (sortOrder o) (o.has 'r') (o.has 'u') (Text.lines text)))) := by
  have hn : Command.ofName? "sort" = some (.text .sort) := by decide +kernel
  rw [run_plain x _ m hn nofun nofun]
  change Reading.sort (x.call "sort" args) m = _
  unfold Reading.sort
  rw [show (x.call "sort" args).options "kt" = o from ho]
  exact filtered_of_read hread _

/-- A filter prints its lines, put together. -/
theorem LineFilter.answer_run (h : LineFilter words f) (x : Context) (m : Machine) :
    (run x words m).answer = .ok (.output (Text.joinLines (f (Text.lines x.stdin)))) := by
  cases h with
  | rev hinput =>
    have hn : Command.ofName? "rev" = some (.text .rev) := by decide +kernel
    rw [run_plain x _ m hn nofun nofun]
    exact filtered_of_piped hinput m _
  | sort ho hinput hall => rw [answer_run_sort x ho (readInput_of_piped hinput m), hall]; rfl
  | @sed args o expression file s ho hargs hinput hread hnew hshown =>
    have hn : Command.ofName? "sed" = some (.text .sed) := by decide +kernel
    have hplan : Writing.planSed (x.call "sed" args) m =
        .ok (Text.joinLines ((Text.lines x.stdin).map s.apply), none) := by
      unfold Writing.planSed
      rw [show (x.call "sed" args).options "e" = o from ho]
      simp only [hargs, hread, readInput_of_piped hinput, hshown]
      rfl
    rw [run_plain x _ m hn nofun nofun]
    change (Outcome.ofTree m (Writing.sed (x.call "sed" args) m)).answer = _
    unfold Writing.sed
    rw [hplan]
    rfl

/-- `wc -l` tells how many lines are piped in. -/
theorem answer_run_count (x : Context) (m : Machine) :
    (run x ["wc", "-l"] m).answer = .ok (.output s!"{(Text.lines x.stdin).length}") := by
  have hn : Command.ofName? "wc" = some (.text .wc) := by decide +kernel
  have ho : Shell.Options.ofArgs "" ["-l"] = { flags := ['l'] } := by decide +kernel
  rw [run_plain x _ m hn nofun nofun]
  change Reading.wc (x.call "wc" ["-l"]) m = _
  unfold Reading.wc
  rw [show (x.call "wc" ["-l"]).options "" = { flags := ['l'] } from ho]
  rfl

variable {now : DateTime} {history : List String} {last : Reply} {stage : String} {m : Machine}

/-- What the last two stages answer, if the first of them does not fail. -/
theorem answer_runStages_pair (next : String) {reply : Reply}
    (h : (run ⟨last.text, now, history⟩ (Shell.words stage) m).answer = .ok reply) :
    ∃ m', (runStages now history last [stage, next] m).answer =
      (runStages now history { reply with effect := none } [next] m').answer := by
  refine ⟨(run ⟨last.text, now, history⟩ (Shell.words stage) m).machine, ?_⟩
  rw [runStages]
  simp only [h]

theorem answer_runStages_count :
    (runStages now history last ["wc -l"] m).answer =
      .ok (.output s!"{(Text.lines last.text).length}") := by
  have hwords : Shell.words "wc -l" = ["wc", "-l"] := by decide +kernel
  simp only [runStages, hwords, answer_run_count]
  rfl

theorem toString_injective {k n : Nat} (h : toString k = toString n) : k = n := by
  have hread : ∀ n : Nat, Nat.ofDigitChars 10 (toString n).toList 0 = n := fun n => by
    change Nat.ofDigitChars 10 (String.ofList (Nat.toDigits 10 n)).toList 0 = n
    rw [String.toList_ofList]
    exact Nat.ofDigitChars_toDigits (by decide) (by decide)
  rw [← hread k, h, hread n]

/-- Behind a filter that keeps lines they are counted just as in front of it, unless the last line
that it prints is empty. Then there is one less. -/
theorem counted_through (now : DateTime) (history : List String) (last : Reply) (m : Machine)
    {stage : String} {f : List String → List String} (hf : LineFilter (Shell.words stage) f) :
    let lines := Text.lines last.text
    let direct := (runStages now history last ["wc -l"] m).answer
    let through := (runStages now history last [stage, "wc -l"] m).answer
    direct = .ok (.output s!"{lines.length}") ∧
      through = .ok (.output s!"{lines.length - Text.lostLines (f lines)}") ∧
      (through = direct ↔ (f lines).getLast? ≠ some "") := by
  intro lines direct through
  have hdirect : direct = .ok (.output s!"{lines.length}") := answer_runStages_count
  have hthrough : through = .ok (.output s!"{lines.length - Text.lostLines (f lines)}") := by
    have hfiltered := hf.answer_run ⟨last.text, now, history⟩ m
    obtain ⟨m', hm⟩ := answer_runStages_pair "wc -l" hfiltered
    have hkept : (Text.lines (Text.joinLines (f lines))).length =
        lines.length - Text.lostLines (f lines) := by
      rw [Text.length_lines_joinLines
        (hf.newline_not_mem fun _ => Text.newline_not_mem_of_mem_lines), hf.length_eq]
    rw [show through = _ from hm, answer_runStages_count, ← hkept]
    rfl
  refine ⟨hdirect, hthrough, ?_⟩
  rw [hdirect, hthrough, Text.lostLines]
  constructor
  · intro h hlast
    have hpos : 0 < lines.length := by
      rw [← hf.length_eq, List.length_pos_iff]
      exact fun hnil => by simp [hnil] at hlast
    have htext : toString (lines.length - 1) = toString lines.length := by
      rw [if_pos hlast] at h
      exact congrArg Reply.text (Except.ok.inj h)
    have := toString_injective htext
    omega
  · intro hlast
    rw [if_neg hlast, Nat.sub_zero]

/-- A text of two lines, of which the last is empty. -/
theorem counted_through_blank :
    LineFilter (Shell.words "rev") (List.map Text.reverse) ∧
      (runStages Sample.time [] (.output "ab\n\n") ["wc -l"] Sample.machine).answer =
        .ok (.output "2") ∧
      (runStages Sample.time [] (.output "ab\n\n") ["rev", "wc -l"] Sample.machine).answer =
        .ok (.output "1") := by
  have hwords : Shell.words "rev" = ["rev"] := by decide +kernel
  have hf : LineFilter (Shell.words "rev") (List.map Text.reverse) := by
    rw [hwords]
    exact .rev (.inl rfl)
  obtain ⟨hdirect, hthrough, -⟩ :=
    counted_through Sample.time [] (.output "ab\n\n") Sample.machine hf
  refine ⟨hf, hdirect.trans ?_, hthrough.trans ?_⟩
  all_goals decide +kernel

end Evaluation

end PocketUnix
