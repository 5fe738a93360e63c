import DesignTokens.Contract.Router
import DesignTokens.Docs
import DesignTokens.Project.Basic

/-!
The generated documents of a project.
-/

namespace DesignTokens.Project

/-- The name of the document on the router. -/
def routerMapFile : Path := ⟨"ROUTER_MAP.md"⟩

/-- The name of the document on the stylesheets. -/
def snapshotFile : Path := ⟨"TOKENS_SNAPSHOT.md"⟩

/-- The document on the project's router. -/
def routerMap (p : Project) (d : Disk) : String :=
  let router := p.layout.collaborators.executor
  Docs.routerMap router (d.textOf? (p.root.join router))

/-- The document on the project's stylesheets. -/
def snapshot (p : Project) (d : Disk) : String :=
  Docs.tokensSnapshot (p.layout.generatedPaths.map fun path => (path, d.textOf? (p.root.join path)))

/-- Writes a text to a path, which is the answer. -/
def writeDoc (path : Path) (text : String) : Job Path := do
  Job.writeText path text
  return path

/-- Writes both documents; their texts are those of the disk once the directory is made. -/
def docs (p : Project) : Job (List Path) := do
  let dir := p.root.join p.layout.reportDir
  Job.makeDirectories dir
  let texts ← Job.inspect fun d => .ok (p.routerMap d, p.snapshot d)
  let first ← writeDoc (dir.join routerMapFile) texts.1
  let second ← writeDoc (dir.join snapshotFile) texts.2
  return [first, second]

/-- Removes the directory of the documents. -/
def cleanDocs (p : Project) : Job Unit := Job.removeDirectory (p.root.join p.layout.reportDir)

end DesignTokens.Project
