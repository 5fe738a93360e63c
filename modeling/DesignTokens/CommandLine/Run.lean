import DesignTokens.CommandLine.Arguments
import DesignTokens.CommandLine.Encode
import DesignTokens.Project.Check
import DesignTokens.Project.Docs
import DesignTokens.Project.Prune

/-!
Running commands: what they print, and the exit code. A fault or a failed check exits with 1 and wrong usage with 2.
-/

namespace DesignTokens.CommandLine

/-- What a run prints and its exit code. -/
structure Outcome where
  exit : Nat
  stdout : String
  stderr : String
  deriving DecidableEq

namespace Outcome

/-- Nothing to say. -/
def silent : Outcome := ⟨0, "", ""⟩

/-- Arguments that ask for nothing known. -/
def usage : Outcome := ⟨2, "", ""⟩

/-- A fault, with what was being done; the words of the system or of the parser are left out. -/
def fault (context : String) (f : Fault) : Outcome := ⟨1, "", "error: " ++ context ++ ": " ++ f.message ++ "\n"⟩

/-- A result as JSON, which is good or not. -/
def result (j : Json) (good : Bool) : Outcome := ⟨if good then 0 else 1, j.pretty ++ "\n", ""⟩

end Outcome

/-- Runs a job, whose faults are told with what was being done. -/
def report {α : Type} (context : String) (job : Job α) (good : α → Outcome) (d : Disk) : Outcome × Disk :=
  match job d with
  | (.ok a, d) => (good a, d)
  | (.error f, d) => (.fault context f, d)

/-- What is printed of the lookups with fallbacks. -/
def fallbackOutcome (hits : List FallbackHit) : Outcome :=
  let shown :=
    Outcome.result (.object [("files", .array (hits.map FallbackHit.toJson)), ("pass", .bool hits.isEmpty)])
      hits.isEmpty
  if hits.isEmpty then shown
  else
    { shown with
      stderr := "FAIL: CSS var() fallbacks detected. Remove fallbacks and resolve token sources.\n" }

/-- What is printed of a report. -/
def reportOutcome (path : Path) (r : ContractReport) : Outcome :=
  .result
    (.object [("report", path.toJson), ("results", .array (r.results.map CheckResult.toJson)),
      ("summary", r.summary.toJson)])
    (!r.hasFailures)

/-- Runs a command on a project. -/
def Command.run (p : Project) (now : Instant) : Command → Disk → Outcome × Disk
  | .build => report "token build failed" p.build fun s => .result s.toJson true
  | .prune policy => report "prune failed" (p.prune policy) fun r => ⟨0, r.render, ""⟩
  | .check => report "failed to write report" (p.check now) fun (path, r) => reportOutcome path r
  | .scanFallbacks => fun d => (fallbackOutcome (p.scanFallbacks d), d)
  | .checkRouter => fun d =>
    let outcome := p.checkRouter d
    (.result outcome.toJson (outcome == .holds), d)
  | .docs => report "docs generation failed" p.docs fun paths => .result (.array (paths.map Path.toJson)) true
  | .cleanDocs => report "clean failed" p.cleanDocs fun _ => .silent

/-- Runs what the arguments ask for. -/
def run (args : List String) (now : Instant) (d : Disk) : Outcome × Disk :=
  match Invocation.ofArguments args with
  | none => (.usage, d)
  | some i =>
    match Layout.load d i.root i.config with
    | .error f => (.fault "failed to load layout" f, d)
    | .ok layout => i.command.run ⟨i.root, layout⟩ now d

end DesignTokens.CommandLine
