import DesignTokens.Proofs.Survivors
import Mathlib.Data.List.Lattice

/-!
# Removing names one after the other

Pruning a text twice removes the names of both runs at once, so the order of the runs does not matter. Without names to
remove nothing changes, and the lines of what is left are lines of the text, in order.
-/

namespace DesignTokens

namespace Text

/-- The lines of a text: newlines end them, and after the last newline there is one more unless nothing follows. -/
def lines (s : List Char) : List (List Char) :=
  if (fields '\n' s).getLast? = some [] then (fields '\n' s).dropLast else fields '\n' s

theorem lines_filter_sublist {keep : List Char → Bool} (hkeep : keep [] = true) (s : List Char) :
    (lines (join ['\n'] ((fields '\n' s).filter keep))).Sublist (lines s) := by
  by_cases hnil : (fields '\n' s).filter keep = []
  · rw [hnil]
    exact List.nil_sublist _
  unfold lines
  rw [fields_join_filter hnil]
  generalize fields '\n' s = fs
  by_cases hlast : fs.getLast? = some []
  · obtain ⟨front, rfl⟩ := List.getLast?_eq_some_iff.1 hlast
    rw [List.filter_append, List.filter_cons_of_pos hkeep, List.filter_nil, List.getLast?_concat, List.getLast?_concat,
      if_pos rfl, if_pos rfl, List.dropLast_concat, List.dropLast_concat]
    exact List.filter_sublist
  · rw [if_neg hlast]
    split
    · exact (List.dropLast_sublist _).trans List.filter_sublist
    · exact List.filter_sublist

/-- Fields that are picked out of a text in two steps are picked out at once. -/
theorem join_filter_filter (sep : Char) (s : List Char) (keep more : List Char → Bool) :
    join [sep] ((fields sep (join [sep] ((fields sep s).filter keep))).filter more) =
      join [sep] ((fields sep s).filter fun f => more f && keep f) := by
  rw [← List.filter_filter]
  by_cases hnil : (fields sep s).filter keep = []
  · -- Nothing is left but the empty text, which has one field that is empty as well.
    rw [hnil]
    cases hmore : more [] <;> simp [join, fields, hmore]
  · rw [fields_join_filter hnil]

end Text

namespace Legacy

variable {names more : List String}

theorem keepsLine_of_no_names (line : List Char) : keepsLine [] line = true := by
  unfold keepsLine
  split <;> rfl

theorem keepsLine_union (names more : List String) (line : List Char) :
    keepsLine (names ∪ more) line = (keepsLine names line && keepsLine more line) := by
  unfold keepsLine
  split
  · rw [Bool.eq_iff_iff]
    simp
  · rfl

theorem prune_congr (h : ∀ line, keepsLine names line = keepsLine more line) (text : String) :
    prune text names = prune text more := by
  rw [prune, prune, funext h]

theorem prune_prune (text : String) (names more : List String) :
    prune (prune text names) more = prune text (names ∪ more) := by
  have hkeeps : keepsLine (names ∪ more) = fun line => keepsLine more line && keepsLine names line :=
    funext fun line => (keepsLine_union names more line).trans (Bool.and_comm ..)
  simp only [prune, String.toList_ofList]
  rw [Text.join_filter_filter, hkeeps]

/-- A text of which something is left has no other lines left than its own, empty ones included. -/
theorem fields_prune_sublist {text : String} (h : prune text names ≠ "") :
    (Text.fields '\n' (prune text names).toList).Sublist (Text.fields '\n' text.toList) := by
  have hne : (Text.fields '\n' text.toList).filter (keepsLine names) ≠ [] := by
    intro hnil
    rw [prune, hnil, Text.join, String.ofList_nil] at h
    exact h rfl
  rw [prune, String.toList_ofList, Text.fields_join_filter hne]
  exact List.filter_sublist

/-- Pruning composes: the names of two runs are removed as by one run, in whatever order. What is left are lines of the
text, in order. Counted by the newlines between them they are so as well, as long as anything is left. -/
theorem prune_composes (text : String) (names more : List String) :
    prune (prune text names) more = prune text (names ∪ more) ∧
      prune (prune text names) names = prune text names ∧
      prune (prune text names) more = prune (prune text more) names ∧
      prune text [] = text ∧
      (Text.lines (prune text names).toList).Sublist (Text.lines text.toList) ∧
      (prune text names ≠ "" →
        (Text.fields '\n' (prune text names).toList).Sublist (Text.fields '\n' text.toList)) := by
  refine ⟨prune_prune text names more, ?_, ?_, ?_, ?_, fields_prune_sublist⟩
  · rw [prune_prune]
    exact prune_congr (fun line => by rw [keepsLine_union, Bool.and_self]) text
  · rw [prune_prune, prune_prune]
    exact prune_congr (fun line => by rw [keepsLine_union, keepsLine_union, Bool.and_comm]) text
  · exact prune_eq_self fun line _ => keepsLine_of_no_names line
  · rw [prune, String.toList_ofList]
    exact Text.lines_filter_sublist rfl text.toList

example : prune "--a: 1px;" ["--a"] = "" ∧ Text.lines [] = [] := by decide +kernel

end Legacy

end DesignTokens
