import DesignTokens.Contract.Checks
import DesignTokens.Contract.Report
import DesignTokens.Project.Basic

/-!
Checking the contract of a project.
-/

namespace DesignTokens.Project

/-- The name of the report. -/
def reportFile : Path := ⟨"REPORT.md"⟩

/-- The results of all checks. -/
def checkResults (p : Project) (d : Disk) : List CheckResult :=
  Check.battery.flatMap fun check => check.run d p.root p.layout

/-- The report on all checks. -/
def contractReport (p : Project) (now : Instant) (d : Disk) : ContractReport :=
  .ofResults now (p.checkResults d)

/-- Writes a report; the answer is its path below the root. -/
def writeReport (p : Project) (report : ContractReport) : Job Path := do
  let dir := p.root.join p.layout.reportDir
  Job.makeDirectories dir
  Job.writeText (dir.join reportFile) report.markdown
  return p.layout.reportDir.join reportFile

/-- Runs all checks and writes the report. -/
def check (p : Project) (now : Instant) : Job (Path × ContractReport) := do
  let report ← Job.inspect fun d => .ok (p.contractReport now d)
  return (← p.writeReport report, report)

/-- The lookups with fallbacks in the project. -/
def scanFallbacks (p : Project) (d : Disk) : List FallbackHit := d.scanFallbacks p.root p.layout.fallbackScan

/-- Whether the project's router keeps its contract. -/
def checkRouter (p : Project) (d : Disk) : RouterOutcome :=
  d.checkRouter p.root p.layout.collaborators.executor p.layout.router

end DesignTokens.Project
