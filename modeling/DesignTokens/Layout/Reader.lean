import DesignTokens.Fault
import DesignTokens.Json.Record
import DesignTokens.Layout.Basic

/-!
Layouts from JSON texts. A text names the fields that differ from the default layout.
-/

namespace DesignTokens

/-- A path as a value. -/
def Path.item (size : Nat) : Json.Reader Path := (Json.textItem size).map Path.mk

namespace Collaborators

/-- The fields in order. -/
def fields : List (Json.Field Collaborators) := [
  .of "executor" Path.item fun c v => { c with executor := v },
  .of "richtext" Path.item fun c v => { c with richtext := v },
  .of "figure" Path.item fun c v => { c with figure := v },
  .of "siteConfig" Path.item fun c v => { c with siteConfig := v },
  .of "contract" Path.item fun c v => { c with contract := v }]

end Collaborators

namespace FallbackScope

/-- The fields in order. -/
def fields : List (Json.Field FallbackScope) := [
  .of "dirs" (Json.listItem Path.item) fun s v => { s with dirs := v },
  .of "extensions" (Json.listItem Json.textItem) fun s v => { s with extensions := v }]

end FallbackScope

namespace RouterContract

/-- The fields in order. -/
def fields : List (Json.Field RouterContract) := [
  .of "requiredMarkers" (Json.listItem Json.textItem) fun r v => { r with requiredMarkers := v },
  .of "safelistHints" (Json.listItem Json.textItem) fun r v => { r with safelistHints := v }]

end RouterContract

namespace Layout

/-- The fields in order. -/
def fields : List (Json.Field Layout) := [
  .of "tokens" Path.item fun l v => { l with tokens := v },
  .of "stylesheetDir" Path.item fun l v => { l with stylesheetDir := v },
  .of "primitivesFile" Json.textItem fun l v => { l with primitivesFile := v },
  .of "semanticFile" Json.textItem fun l v => { l with semanticFile := v },
  .of "componentFile" Json.textItem fun l v => { l with componentFile := v },
  .of "legacyFile" Json.textItem fun l v => { l with legacyFile := v },
  .of "reportDir" Path.item fun l v => { l with reportDir := v },
  .of "collaborators" (Json.recordItem Collaborators.fields {}) fun l v => { l with collaborators := v },
  .of "fallbackScan" (Json.recordItem FallbackScope.fields {}) fun l v => { l with fallbackScan := v },
  .of "knownTypos" (Json.listItem Json.textItem) fun l v => { l with knownTypos := v },
  .of "router" (Json.recordItem RouterContract.fields {}) fun l v => { l with router := v }]

/-- The layout of a text. -/
def ofText (text : String) : Except Fault Layout :=
  (Json.whole (Json.recordItem fields {}) text).mapError .json

end Layout

end DesignTokens
