import PocketUnix.Proofs.Filter.Sorting
import PocketUnix.Proofs.Session.LineCounts
import PocketUnix.Proofs.Shell.Clusters

/-!
# Lines that are printed by `sort`

`sort` prints the lines that it reads in the order of their keys, each as often as it is there, or
with `-u` without repeats, so long as no line stands between two copies of another one with the same
key.
-/

namespace PocketUnix.Evaluation

open PocketUnix.Command (run)
open PocketUnix.Filter (Ordered Mixed between_reverse mem_dropRepeats nodup_dropRepeats_iff
  ordered_mergeSort sortLines)

variable {args : List String} {o : Shell.Options} {text : String}

theorem ofArgs_reversed (ho : Shell.Options.ofArgs "kt" args = o) :
    Shell.Options.ofArgs "kt" ("-r" :: args) = { o with flags := 'r' :: o.flags } := by
  have hread := Shell.Options.read_single "kt".toList (show 'r' ≠ '-' by decide) args
  rw [if_neg (by decide), show Shell.Options.read "kt".toList args = o from ho] at hread
  exact hread.trans (by simp [Shell.Options.followedBy])

/-- Without `-n` and `-u` the lines are printed in the one order in which their keys ascend and
lines with equal keys stand as in the text; with `-r` just the other way round. -/
theorem sorted_by_sort (x : Context) (args : List String) (m : Machine)
    (ho : Shell.Options.ofArgs "kt" args = o)
    (hread : (x.call "sort" args).readInput m (o.operand? 0) = .ok text)
    (hnumeric : o.has 'n' = false) (hall : o.has 'u' = false) :
    ∃ rows, (∀ rows', Ordered (sortOrder o) (Text.lines text) rows' ↔ rows' = rows) ∧
      (run x ("sort" :: args) m).answer =
        .ok (.output (Text.joinLines (if o.has 'r' then rows.reverse else rows))) ∧
      (run x ("sort" :: "-r" :: args) m).answer =
        .ok (.output (Text.joinLines rows.reverse)) := by
  have hrows := ordered_mergeSort (o := sortOrder o) hnumeric (Text.lines text)
  refine ⟨(Text.lines text).mergeSort (sortOrder o).le, fun rows' => ?_, ?_, ?_⟩
  · exact ⟨fun h => h.unique hrows, fun h => h ▸ hrows⟩
  · rw [answer_run_sort x ho hread, hall]
    rfl
  · rw [answer_run_sort x (ofArgs_reversed ho) hread]
    have hall' : Shell.Options.has { o with flags := 'r' :: o.flags } 'u' = false := by
      simpa [Shell.Options.has] using hall
    rw [hall']
    rfl

/-- Second fields that are the same in lower case, and one that is missing. -/
theorem sorted_by_sort_fields :
    (run ⟨"b,X\na,x\nc\nd,2", Sample.time, []⟩ ["sort", "-ft,", "-k2"] Sample.machine).answer =
        .ok (.output "c\nd,2\nb,X\na,x") ∧
      (run ⟨"b,X\na,x\nc\nd,2", Sample.time, []⟩ ["sort", "-r", "-ft,", "-k2"]
        Sample.machine).answer = .ok (.output "a,x\nb,X\nd,2\nc") := by
  obtain ⟨rows, hrows, hanswer, hreversed⟩ :=
    sorted_by_sort ⟨"b,X\na,x\nc\nd,2", Sample.time, []⟩ ["-ft,", "-k2"] Sample.machine rfl rfl
      (by decide +kernel) (by decide +kernel)
  obtain rfl : ["c", "d,2", "b,X", "a,x"] = rows := (hrows _).mp (by decide +kernel)
  exact ⟨hanswer.trans (by decide +kernel), hreversed.trans (by decide +kernel)⟩

/-- Without `-n` but with `-u` the lines that are printed are those of the text. None is printed
twice if and only if no line of the text stands between two copies of another one with the same
key. -/
theorem repeated_by_sort (x : Context) (args : List String) (m : Machine)
    (ho : Shell.Options.ofArgs "kt" args = o)
    (hread : (x.call "sort" args).readInput m (o.operand? 0) = .ok text)
    (hnumeric : o.has 'n' = false) (hunique : o.has 'u' = true) :
    ∃ rows, (run x ("sort" :: args) m).answer = .ok (.output (Text.joinLines rows)) ∧
      (∀ line, line ∈ rows ↔ line ∈ Text.lines text) ∧
      (rows.Nodup ↔ ¬Mixed (sortOrder o) (Text.lines text)) := by
  have hrows := ordered_mergeSort (o := sortOrder o) hnumeric (Text.lines text)
  refine ⟨_, by rw [answer_run_sort x ho hread, hunique], ?_, ?_⟩
  · intro line
    cases o.has 'r' <;> simp [sortLines, mem_dropRepeats]
  · rw [hrows.mixed_iff]
    cases o.has 'r' with
    | false => exact nodup_dropRepeats_iff
    | true => exact nodup_dropRepeats_iff.trans (not_congr between_reverse)

/-- Between two copies of a line stands one that is the same in lower case. -/
theorem repeated_by_sort_folded :
    ∃ rows, (run ⟨"a\nA\na", Sample.time, []⟩ ["sort", "-u", "-f"] Sample.machine).answer =
        .ok (.output (Text.joinLines rows)) ∧
      (∀ line, line ∈ rows ↔ line = "a" ∨ line = "A") ∧ ¬rows.Nodup := by
  have hread : Call.readInput (Context.call ⟨"a\nA\na", Sample.time, []⟩ "sort" ["-u", "-f"])
      Sample.machine none = .ok "a\nA\na" := rfl
  obtain ⟨rows, hanswer, hmem, hnodup⟩ :=
    repeated_by_sort ⟨"a\nA\na", Sample.time, []⟩ ["-u", "-f"] Sample.machine rfl hread
      (by decide +kernel) (by decide +kernel)
  have hlines : Text.lines "a\nA\na" = ["a", "A", "a"] := by decide +kernel
  rw [hlines] at hmem hnodup
  have hmixed : Mixed (sortOrder (Shell.Options.ofArgs "kt" ["-u", "-f"])) ["a", "A", "a"] :=
    ⟨"a", "A", by decide, by decide +kernel, .refl _⟩
  refine ⟨rows, hanswer, fun line => ?_, fun h => hnodup.mp h hmixed⟩
  rw [hmem]
  simp only [List.mem_cons, List.not_mem_nil, or_false]
  tauto

end PocketUnix.Evaluation
