import DesignTokens.Reference.Cycle
import DesignTokens.Sheet.Expression
import DesignTokens.Sheet.Render

/-!
From a token graph to its three stylesheets. Values are compiled before cycles are looked for, and these before
names that occur twice.
-/

namespace DesignTokens

/-- A stylesheet of one layer. -/
structure Sheet where
  layer : Layer
  vars : List Variable
  contents : String
  deriving DecidableEq

/-- Refuses variables of which two have one name. -/
def Variable.assertUnique (layer : Layer) (vars : List Variable) : Except Fault Unit :=
  match Variable.firstRepeat? vars with
  | some (first, second) => .error (.duplicateVariable layer first second)
  | none => .ok ()

namespace Graph

/-- The variable of an entry. -/
def variableOf (g : Graph) (e : Entry) : Except Fault Variable :=
  (g.compileValue e.leaf.value e.address.path).map fun v => ⟨e.address.variableName, v, e.address.path⟩

/-- The variables of a layer in the order of its tokens. -/
def layerVariables (g : Graph) (layer : Layer) : Except Fault (List Variable) := (g.entries layer).mapM g.variableOf

end Graph

/-- The stylesheet of variables of a layer, which are put in order and must have different names. -/
def Sheet.ofVariables (layer : Layer) (fileLabel sourceLabel : String) (vars : List Variable) :
    Except Fault Sheet := do
  let vars := Variable.sort vars
  Variable.assertUnique layer vars
  return ⟨layer, vars, Sheet.render layer fileLabel sourceLabel vars⟩

/-- The stylesheets of a graph; `fileLabel` names the file of each layer and `sourceLabel` the document. -/
def Graph.compile (g : Graph) (fileLabel : Layer → String) (sourceLabel : String) :
    Except Fault (List Sheet) := do
  let collected ← Layer.all.mapM fun layer => (g.layerVariables layer).map fun vars => (layer, vars)
  g.checkCycles
  collected.mapM fun c => Sheet.ofVariables c.1 (fileLabel c.1) sourceLabel c.2

end DesignTokens
