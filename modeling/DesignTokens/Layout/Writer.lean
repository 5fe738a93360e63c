import DesignTokens.Json.Writer
import DesignTokens.Layout.Basic

/-!
Layouts as JSON values with all fields in order.
-/

namespace DesignTokens

/-- A path as a text. -/
def Path.toJson (p : Path) : Json := .text p.text

/-- Texts as an array. -/
def Json.texts (ss : List String) : Json := .array (ss.map .text)

/-- The members of collaborators. -/
def Collaborators.members (c : Collaborators) : List (String × Json) :=
  [("executor", c.executor.toJson), ("richtext", c.richtext.toJson), ("figure", c.figure.toJson),
    ("siteConfig", c.siteConfig.toJson), ("contract", c.contract.toJson)]

/-- The members of a scope. -/
def FallbackScope.members (s : FallbackScope) : List (String × Json) :=
  [("dirs", .array (s.dirs.map Path.toJson)), ("extensions", .texts s.extensions)]

/-- The members of a router's contract. -/
def RouterContract.members (r : RouterContract) : List (String × Json) :=
  [("requiredMarkers", .texts r.requiredMarkers), ("safelistHints", .texts r.safelistHints)]

/-- The members of a layout. -/
def Layout.members (l : Layout) : List (String × Json) :=
  [("tokens", l.tokens.toJson), ("stylesheetDir", l.stylesheetDir.toJson), ("primitivesFile", .text l.primitivesFile),
    ("semanticFile", .text l.semanticFile), ("componentFile", .text l.componentFile),
    ("legacyFile", .text l.legacyFile), ("reportDir", l.reportDir.toJson),
    ("collaborators", .object l.collaborators.members), ("fallbackScan", .object l.fallbackScan.members),
    ("knownTypos", .texts l.knownTypos), ("router", .object l.router.members)]

/-- A layout as a JSON value. -/
def Layout.toJson (l : Layout) : Json := .object l.members

end DesignTokens
