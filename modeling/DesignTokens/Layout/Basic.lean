import DesignTokens.Path
import DesignTokens.Token.Layer

/-!
The layout of a project: where its inputs lie and where its outputs go. All paths are relative to the project root.
-/

namespace DesignTokens

/-- The files written by hand that the contract is about. -/
structure Collaborators where
  executor : Path := ⟨"src/_includes/layouts/content-cell.njk"⟩
  richtext : Path := ⟨"src/_includes/components/richtext.njk"⟩
  figure : Path := ⟨"src/_includes/components/figure.njk"⟩
  siteConfig : Path := ⟨".eleventy.js"⟩
  contract : Path := ⟨"CONTRACT.md"⟩
  deriving DecidableEq

/-- Where to look for lookups with fallbacks: directories, and endings of file names. -/
structure FallbackScope where
  dirs : List Path := [⟨"src/assets/scss"⟩, ⟨"src/_includes"⟩]
  extensions : List String := ["scss", "css", "njk", "html"]
  deriving DecidableEq

/-- What the router must say: all of the markers, and one of the hints at a safelist. -/
structure RouterContract where
  requiredMarkers : List String := ["EXECUTOR_ERROR", "UNKNOWN_INCLUDE", "item.include"]
  safelistHints : List String := ["elseif item.include", "if item.include"]
  deriving DecidableEq

/-- Where the inputs of a project lie and where its outputs go. -/
structure Layout where
  tokens : Path := ⟨"tokens/tokens.json"⟩
  stylesheetDir : Path := ⟨"src/assets/scss"⟩
  primitivesFile : String := "_tokens--primitives.scss"
  semanticFile : String := "_tokens--semantic.scss"
  componentFile : String := "_tokens--component.scss"
  legacyFile : String := "_tokens--legacy.scss"
  reportDir : Path := ⟨"_docs/generated"⟩
  collaborators : Collaborators := {}
  fallbackScan : FallbackScope := {}
  knownTypos : List String := ["--scale--"]
  router : RouterContract := {}
  deriving DecidableEq

namespace Layout

/-- The name of the stylesheet of a layer. -/
def generatedFile (l : Layout) : Layer → String
  | .primitives => l.primitivesFile
  | .semantic => l.semanticFile
  | .component => l.componentFile

/-- The stylesheet of a layer. -/
def generatedPath (l : Layout) (layer : Layer) : Path := l.stylesheetDir.join ⟨l.generatedFile layer⟩

/-- The stylesheets of all layers. -/
def generatedPaths (l : Layout) : List Path := Layer.all.map l.generatedPath

/-- The stylesheet written by hand. -/
def legacyPath (l : Layout) : Path := l.stylesheetDir.join ⟨l.legacyFile⟩

end Layout

end DesignTokens
