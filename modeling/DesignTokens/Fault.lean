import DesignTokens.Disk.Basic
import DesignTokens.Json.Lexeme
import DesignTokens.Sheet.Variable
import DesignTokens.Token.Layer

/-!
What can stop a run, and how it is told.
-/

namespace DesignTokens

/-- Why a JSON value is no token document. -/
inductive DocumentFlaw where
  | noObject
  | unknownKey (key : String)
  | missingLayer (layer : Layer)
  | layerNoObject (layer : Layer)
  deriving DecidableEq

/-- What can stop a run. -/
inductive Fault where
  | disk (path : Path) (flaw : Disk.Flaw)
  | json (flaw : Json.Flaw)
  | document (flaw : DocumentFlaw)
  | unsupportedValue (path : String)
  | unresolvedReference (reference context : String)
  | referenceCycle (chain : List String)
  | duplicateVariable (layer : Layer) (first second : Variable)
  deriving DecidableEq

/-- The flaw of a document in words. -/
def DocumentFlaw.message : DocumentFlaw → String
  | noObject => "top level must be an object"
  | unknownKey key => "unknown top-level key \"" ++ key ++ "\" (expected primitives, semantic, component)"
  | missingLayer layer => "missing namespace \"" ++ layer.name ++ "\""
  | layerNoObject layer => "namespace \"" ++ layer.name ++ "\" must be an object"

/-- The fault in words. Where the disk or a JSON text is at fault, the words of the system or of the parser for it come
last, if they are given. -/
def Fault.message (f : Fault) (words : Option String := none) : String :=
  let source := (words.map (": " ++ ·)).getD ""
  match f with
  | disk path _ => "I/O error on " ++ path.text ++ source
  | json _ => "Invalid JSON" ++ source
  | document flaw => "Invalid token document: " ++ flaw.message
  | unsupportedValue path =>
    "Unsupported value for token " ++ path ++ " (expected string, number or boolean)"
  | unresolvedReference reference context => "Unresolved reference: " ++ reference ++ " (in " ++ context ++ ")"
  | referenceCycle chain => "Reference cycle: " ++ " -> ".intercalate chain
  | duplicateVariable layer first second =>
    "[" ++ layer.name ++ "] Duplicate CSS var \"" ++ second.name ++ "\"\n- " ++ first.sourcePath ++ " => " ++
      first.value ++ "\n- " ++ second.sourcePath ++ " => " ++ second.value

end DesignTokens
