/-!
The results of contract checks.
-/

namespace DesignTokens

/-- How grave a result is. -/
inductive Status where
  | fail
  | warn
  | pass
  deriving DecidableEq

namespace Status

/-- The status in capitals. -/
def name : Status → String
  | fail => "FAIL"
  | warn => "WARN"
  | pass => "PASS"

/-- Failures come first, then warnings. -/
def rank : Status → Nat
  | fail => 0
  | warn => 1
  | pass => 2

end Status

/-- The result of one check. -/
structure CheckResult where
  status : Status
  label : String
  detail : Option String := none
  deriving DecidableEq

namespace CheckResult

/-- A pass without detail. -/
def pass (label : String) : CheckResult := { status := .pass, label }

/-- A pass when `ok` holds, and otherwise the given status; an empty detail is none. -/
def gate (ok : Bool) (label : String) (status : Status) (detail : String) : CheckResult :=
  if ok then pass label else ⟨status, label, if detail = "" then none else some detail⟩

end CheckResult

end DesignTokens
