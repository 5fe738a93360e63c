/-!
The variables of a stylesheet: their order, and names that occur twice.
-/

namespace DesignTokens

/-- A declaration of a stylesheet with the path of the token that it comes from. -/
structure Variable where
  name : String
  value : String
  sourcePath : String
  deriving DecidableEq

namespace Variable

/-- Variables are ordered by name, and by source path where names are equal. -/
def order (a b : Variable) : Ordering := (compare a.name b.name).then (compare a.sourcePath b.sourcePath)

/-- The variables in order; those that are equal in it stay as they were. -/
def sort (vars : List Variable) : List Variable := vars.mergeSort fun a b => (order a b).isLE

/-- The first variable whose name occurred in `seen` or before, after the one that had the name. -/
def repeatAfter? (seen : List Variable) : List Variable → Option (Variable × Variable)
  | [] => none
  | v :: rest =>
    match seen.find? (·.name == v.name) with
    | some first => some (first, v)
    | none => repeatAfter? (v :: seen) rest

/-- The first variable whose name occurred before, after the one that had the name. -/
def firstRepeat? (vars : List Variable) : Option (Variable × Variable) := repeatAfter? [] vars

end Variable

end DesignTokens
