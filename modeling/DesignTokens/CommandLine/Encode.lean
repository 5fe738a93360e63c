import DesignTokens.Contract.Report
import DesignTokens.Contract.Router
import DesignTokens.Layout.Writer
import DesignTokens.Contract.Fallback
import DesignTokens.Project.Build

/-!
Results as JSON values.
-/

namespace DesignTokens

/-- A number without fraction. -/
def Json.ofNat (n : Nat) : Json := .number (.integer n)

/-- A written stylesheet. -/
def EmittedFile.toJson (f : EmittedFile) : Json :=
  .object [("namespace", .text f.layer.name), ("path", f.path.toJson), ("variables", .ofNat f.count),
    ("digest", .text f.digest)]

/-- What a build did. -/
def BuildSummary.toJson (s : BuildSummary) : Json :=
  .object [("engine_version", .text s.engineVersion), ("source_digest", .text s.sourceDigest),
    ("files", .array (s.files.map EmittedFile.toJson))]

/-- Whether the router keeps its contract. -/
def RouterOutcome.toJson : RouterOutcome → Json
  | holds => .object [("status", .text "holds")]
  | missing path => .object [("status", .text "missing"), ("path", path.toJson)]
  | violated violations => .object [("status", .text "violated"), ("violations", .texts violations)]

/-- A file with fallbacks, its members in alphabetical order. -/
def FallbackHit.toJson (h : FallbackHit) : Json :=
  .object [("count", .ofNat h.count), ("file", h.file.toJson), ("matches", .texts h.lookups)]

/-- The result of a check, its members in alphabetical order. -/
def CheckResult.toJson (r : CheckResult) : Json :=
  .object [("detail", (r.detail.map Json.text).getD .null), ("label", .text r.label),
    ("status", .text r.status.name)]

/-- The counts of a report, in alphabetical order. -/
def Summary.toJson (s : Summary) : Json :=
  .object [("fail", .ofNat s.fail), ("pass", .ofNat s.pass), ("warn", .ofNat s.warn)]

end DesignTokens
