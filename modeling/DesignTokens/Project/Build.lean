import DesignTokens.Digest.Sha256
import DesignTokens.Project.Basic
import DesignTokens.Sheet.Compile
import DesignTokens.Token.Document

/-!
Building a project: all stylesheets are compiled before the first one is written.
-/

namespace DesignTokens

/-- The version of the compiler. -/
def engineVersion : String := "1.0.0"

/-- A stylesheet that was written, with the number of its variables. -/
structure EmittedFile where
  layer : Layer
  path : Path
  count : Nat
  digest : String
  deriving DecidableEq

/-- What a build did: the digest of the document, and the stylesheets. -/
structure BuildSummary where
  engineVersion : String
  sourceDigest : String
  files : List EmittedFile
  deriving DecidableEq

/-- The digest of the value of a document, which does not depend on how the document is written. -/
def documentDigest (j : Json) : String := Digest.ofText j.canonical

namespace Project

/-- The digest and the stylesheets of the project's document. -/
def compiled (p : Project) (document : String) : Except Fault (String × List Sheet) := do
  let json ← readDocument document
  let graph ← Graph.ofJson json
  return (documentDigest json, ← graph.compile p.layout.generatedFile p.layout.tokens.text)

/-- Writes a stylesheet to its place. -/
def emit (p : Project) (sheet : Sheet) : Job EmittedFile := do
  let path := p.layout.generatedPath sheet.layer
  Job.writeText (p.root.join path) sheet.contents
  return ⟨sheet.layer, path, sheet.vars.length, Digest.ofText sheet.contents⟩

/-- Compiles the token document and writes the stylesheets. -/
def build (p : Project) : Job BuildSummary := do
  let document ← Job.loadText (p.root.join p.layout.tokens)
  let (digest, sheets) ← Job.ofExcept (p.compiled document)
  Job.makeDirectories (p.root.join p.layout.stylesheetDir)
  return ⟨engineVersion, digest, ← sheets.mapM p.emit⟩

end Project

end DesignTokens
