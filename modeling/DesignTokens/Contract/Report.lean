import DesignTokens.Calendar
import DesignTokens.Contract.Result
import DesignTokens.Text.Fields

/-!
The report on all checks: failures first, then warnings, then passes, each in the order of the checks.
-/

namespace DesignTokens

/-- How many results there are of each status. -/
structure Summary where
  fail : Nat
  warn : Nat
  pass : Nat
  deriving DecidableEq

/-- The report on results in order. -/
structure ContractReport where
  generatedAt : Instant
  results : List CheckResult
  deriving DecidableEq

namespace ContractReport

/-- The report on the results of the checks. -/
def ofResults (generatedAt : Instant) (results : List CheckResult) : ContractReport :=
  ⟨generatedAt, results.mergeSort fun a b => a.status.rank ≤ b.status.rank⟩

/-- How many results have a status. -/
def count (r : ContractReport) (status : Status) : Nat := r.results.countP (·.status == status)

/-- How many results there are of each status. -/
def summary (r : ContractReport) : Summary := ⟨r.count .fail, r.count .warn, r.count .pass⟩

/-- Whether any check failed. -/
def hasFailures (r : ContractReport) : Bool := r.results.any (·.status == .fail)

/-- The line of a result. -/
def resultLine (r : CheckResult) : String :=
  "- [" ++ r.status.name ++ "] " ++ r.label ++
    match r.detail with
    | some detail => " — " ++ detail
    | none => ""

/-- The report as a document. -/
def markdown (r : ContractReport) : String :=
  let s := r.summary
  Text.joinWith '\n'
    (["This report is generated from repository state.",
      "If any FAIL appears, code must be reconciled with CONTRACT.md before proceeding.",
      "",
      "# Stabilization Report (Generated)",
      "Generated on: " ++ r.generatedAt.text,
      "",
      "## Summary",
      "- FAIL: " ++ toString s.fail,
      "- WARN: " ++ toString s.warn,
      "- PASS: " ++ toString s.pass,
      "",
      "## Checks"] ++ r.results.map resultLine ++ [""])

end ContractReport

end DesignTokens
