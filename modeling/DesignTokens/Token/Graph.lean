import DesignTokens.Assoc
import DesignTokens.Token.Layer

/-!
Token graphs: trees of keys in each layer, with tokens as their leaves.
-/

namespace DesignTokens

/-- The value of a token: a text, which may hold references, or a number or truth value as it is written. -/
inductive TokenValue where
  | text (s : String)
  | scalar (s : String)
  deriving DecidableEq

/-- A token. -/
structure Leaf where
  value : TokenValue
  kind : Option String
  deriving DecidableEq

/-- A token, or a group of nodes by key. -/
inductive Node where
  | leaf (token : Leaf)
  | group (children : List (String × Node))

namespace Node

/-- At every depth, the keys of a group increase. -/
inductive Ordered : Node → Prop where
  | leaf (token : Leaf) : Ordered (leaf token)
  | group {children : List (String × Node)} :
      Assoc.Sorted children → (∀ b ∈ children, Ordered b.2) → Ordered (group children)

/-- The token, if the node is one. -/
def leaf? : Node → Option Leaf
  | leaf token => some token
  | group _ => none

/-- The node that keys lead to below `children`; there must be at least one key. -/
def descend? (children : List (String × Node)) : List String → Option Node
  | [] => none
  | [k] => children.lookup k
  | k :: ks =>
    match children.lookup k with
    | some (group below) => descend? below ks
    | _ => none

mutual

/-- The tokens of a node with the keys that lead to them, in key order. -/
def tokens : Node → List (List String × Leaf)
  | leaf token => [([], token)]
  | group children => tokensBelow children

/-- The tokens below a list of children. -/
def tokensBelow : List (String × Node) → List (List String × Leaf)
  | [] => []
  | (k, node) :: rest => (tokens node).map (fun t => (k :: t.1, t.2)) ++ tokensBelow rest

end

end Node

/-- A tree of keys for each layer. -/
structure Graph where
  roots : Layer → List (String × Node)
  ordered : ∀ layer, Node.Ordered (.group (roots layer))

/-- A token with its address. -/
structure Entry where
  address : Address
  leaf : Leaf
  deriving DecidableEq

namespace Graph

/-- The node at an address. -/
def get? (g : Graph) (a : Address) : Option Node := Node.descend? (g.roots a.layer) a.segments

/-- The token at an address. -/
def leaf? (g : Graph) (a : Address) : Option Leaf := (g.get? a).bind Node.leaf?

/-- The tokens of a layer, in key order. -/
def entries (g : Graph) (layer : Layer) : List Entry :=
  (Node.tokensBelow (g.roots layer)).map fun t => ⟨⟨layer, t.1⟩, t.2⟩

/-- The tokens of all layers. -/
def allEntries (g : Graph) : List Entry := Layer.all.flatMap g.entries

/-- How many tokens there are. -/
def leafCount (g : Graph) : Nat := g.allEntries.length

end Graph

end DesignTokens
