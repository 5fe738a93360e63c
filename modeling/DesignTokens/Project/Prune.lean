import DesignTokens.Legacy.Prune
import DesignTokens.Project.Basic

/-!
Pruning the stylesheet of a project that is written by hand.
-/

namespace DesignTokens.Project

/-- The texts of the generated stylesheets, each with a line break after it. -/
def generatedText (p : Project) (d : Disk) : Except Fault String := do
  let texts ← p.layout.generatedPaths.mapM fun path => d.loadText (p.root.join path)
  return String.join (texts.map (· ++ "\n"))

/-- The path that a policy writes, below the root and from the top. -/
def pruneTarget (p : Project) : PrunePolicy → Option (Path × Path)
  | .reportOnly => none
  | .newFile => some (prunedPath p.layout.legacyPath, prunedPath (p.root.join p.layout.legacyPath))
  | .inPlace => some (p.layout.legacyPath, p.root.join p.layout.legacyPath)

/-- Classifies what is written by hand, and writes what is left of it where the policy says. -/
def prune (p : Project) (policy : PrunePolicy) : Job PruneReport := do
  let legacy ← Job.loadText (p.root.join p.layout.legacyPath)
  let generated ← Job.inspect p.generatedText
  let classification := Classification.ofTexts legacy generated
  if let some (_, target) := p.pruneTarget policy then
    Job.writeText target (Legacy.prune legacy classification.covered)
  return ⟨p.layout.legacyPath, p.layout.generatedPaths, policy, classification, (p.pruneTarget policy).map Prod.fst⟩

end DesignTokens.Project
