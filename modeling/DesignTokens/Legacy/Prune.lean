import DesignTokens.Legacy.Coverage
import DesignTokens.RawPath

/-!
Removing lines whose declarations are covered, and the report on it.
-/

namespace DesignTokens

namespace Legacy

/-- Whether a line stays when names are removed: it goes if it holds nothing but a declaration of one of them. -/
def keepsLine (names : List String) (line : List Char) : Bool :=
  match Declaration.declaredBy? line with
  | some name => !names.contains name
  | none => true

/-- The text without the lines that hold nothing but a declaration of one of the names. -/
def prune (text : String) (names : List String) : String :=
  .ofList (Text.join ['\n'] ((Text.fields '\n' text.toList).filter (keepsLine names)))

end Legacy

/-- What a run may write: nothing, a file beside the legacy one, or the legacy file. -/
inductive PrunePolicy where
  | reportOnly
  | newFile
  | inPlace
  deriving DecidableEq

/-- The policy of two flags; without `write` nothing is written. -/
def PrunePolicy.ofFlags (write inPlace : Bool) : PrunePolicy :=
  if write then (if inPlace then .inPlace else .newFile) else .reportOnly

/-- The name for what pruning leaves of a file: `.pruned` comes before the ending `.scss`, or else last. -/
def prunedName (name : String) : String :=
  let name := name.toList
  let ending := ['.', 's', 'c', 's', 's']
  let mark := ['.', 'p', 'r', 'u', 'n', 'e', 'd']
  let stem := name.take (name.length - ending.length)
  .ofList (if name = stem ++ ending then stem ++ mark ++ ending else name ++ mark)

/-- Where the pruned text of a legacy file goes. -/
def prunedPath (legacy : Path) : Path := legacy.withFileName (prunedName (legacy.fileName?.getD ""))

/-- Where the pruned text of a legacy file goes; a name that is no text is marked as the text that it is read as. -/
def RawPath.pruned (legacy : RawPath) : RawPath :=
  legacy.withFileName (Text.utf8 (prunedName (Text.decode (legacy.fileName?.getD []))))

/-- What a run found and wrote. -/
structure PruneReport where
  legacyPath : Path
  generatedPaths : List Path
  policy : PrunePolicy
  classification : Classification
  written : Option Path
  deriving DecidableEq

namespace PruneReport

/-- How many conflicts are listed. -/
def listedConflicts : Nat := 50

/-- How many missing names are listed. -/
def listedMissing : Nat := 80

/-- The lines on the conflicts. -/
def conflictLines (conflicts : List Conflict) : List String :=
  if conflicts.isEmpty then []
  else
    ["", "Conflicts (review these before deleting):"] ++
      (conflicts.take listedConflicts).flatMap (fun c =>
        ["- " ++ c.name, "  legacy:    " ++ c.legacy, "  generated: " ++ c.generated]) ++
      if listedConflicts < conflicts.length then
        ["  ...and " ++ toString (conflicts.length - listedConflicts) ++ " more"]
      else []

/-- The lines on the missing names. -/
def missingLines (missing : List String) : List String :=
  if missing.isEmpty then []
  else
    ["", "Missing vars (still only in legacy):"] ++ (missing.take listedMissing).map ("- " ++ ·) ++
      if listedMissing < missing.length then ["...and " ++ toString (missing.length - listedMissing) ++ " more"]
      else []

/-- The lines on what was written. -/
def outcomeLines (policy : PrunePolicy) (written : Option Path) : List String :=
  match policy, written with
  | .reportOnly, _ =>
    ["DRY RUN only. Add --write to output a pruned legacy file.",
     "Tip: also add --in-place to overwrite the legacy file."]
  | .inPlace, some path => ["Wrote pruned legacy file in place: " ++ path.text]
  | _, some path => ["Wrote pruned legacy file: " ++ path.text]
  | _, none => []

/-- The report as text. -/
def render (r : PruneReport) : String :=
  let c := r.classification
  let lines :=
    ["=== Token Prune Report ===",
     "Legacy file:     " ++ r.legacyPath.text,
     "Generated files: " ++ ", ".intercalate (r.generatedPaths.map Path.text),
     "",
     "Covered by generated (safe to delete from legacy): " ++ toString c.covered.length,
     "Still missing (must remain in legacy for now):      " ++ toString c.missing.length,
     "Conflicts (same name, different value):             " ++ toString c.conflicts.length] ++
      conflictLines c.conflicts ++ missingLines c.missing ++ [""] ++ outcomeLines r.policy r.written
  String.join (lines.map (· ++ "\n"))

end PruneReport

end DesignTokens
