import DesignTokens.Disk.Basic
import DesignTokens.Layout.Basic
import DesignTokens.Text.Search

/-!
What the router must say.
-/

namespace DesignTokens

/-- Whether a text occurs in another. -/
def mentions (source piece : String) : Bool := Text.contains source.toList piece.toList

/-- A text in quotes. -/
def quoted (s : String) : String := "\"" ++ s ++ "\""

/-- What a router lacks: each marker that it does not have, and a hint if it has none of them. -/
def RouterContract.violations (contract : RouterContract) (source : String) : List String :=
  (contract.requiredMarkers.filter fun m => !mentions source m).map
      ("Missing required executor marker/snippet: " ++ quoted ·) ++
    if contract.safelistHints.any (mentions source) then []
    else
      ["Safelist branching not detected (expected one of: " ++
        ", ".intercalate (contract.safelistHints.map quoted) ++ ")"]

/-- Whether the router keeps its contract. -/
inductive RouterOutcome where
  | holds
  | missing (path : Path)
  | violated (violations : List String)
  deriving DecidableEq

/-- The text of a file, if there is one. -/
def Disk.textOf? (d : Disk) (p : Path) : Option String := (d.readText p).toOption

/-- Checks the router at a path below `root`. -/
def Disk.checkRouter (d : Disk) (root router : Path) (contract : RouterContract) : RouterOutcome :=
  match d.textOf? (root.join router) with
  | none => .missing router
  | some source =>
    match contract.violations source with
    | [] => .holds
    | violations => .violated violations

end DesignTokens
