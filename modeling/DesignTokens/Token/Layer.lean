/-!
The three layers of design tokens and the addresses of tokens in them.
-/

namespace DesignTokens

/-- The layers, from raw values to the parts of single components. -/
inductive Layer where
  | primitives
  | semantic
  | component
  deriving DecidableEq

namespace Layer

/-- The layers in the order in which references search them. -/
def all : List Layer := [primitives, semantic, component]

/-- The key of the layer in a document. -/
def name : Layer → String
  | primitives => "primitives"
  | semantic => "semantic"
  | component => "component"

/-- The layer of a name. -/
def ofName? (s : String) : Option Layer := all.find? (·.name == s)

theorem ofName?_name (l : Layer) : ofName? l.name = some l := by cases l <;> decide

theorem name_of_ofName? {s : String} {l : Layer} (h : ofName? s = some l) : l.name = s := by
  simpa using List.find?_some h

theorem mem_all (l : Layer) : l ∈ all := by cases l <;> decide

end Layer

/-- Where a token stands: its layer and the keys on the way to it. -/
structure Address where
  layer : Layer
  segments : List String
  deriving DecidableEq

/-- The keys below a path, each after a point. -/
def dotted (path : String) (segments : List String) : String := segments.foldl (fun p s => p ++ "." ++ s) path

/-- The address in one text: the name of the layer and the keys, separated by points. -/
def Address.path (a : Address) : String := dotted a.layer.name a.segments

end DesignTokens
