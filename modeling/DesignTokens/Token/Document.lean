import DesignTokens.Fault
import DesignTokens.Json.Reader
import DesignTokens.Json.Writer
import DesignTokens.Token.Graph

/-!
Token documents: JSON objects with one member for each layer. Keys that begin with `$` are metadata, apart from
`$value` and `$type` in a token.
-/

namespace DesignTokens.Document

/-- Whether a key begins with the sign of metadata. -/
def isMetadata (key : String) : Bool := key.toList.head? == some '$'

/-- The member that makes an object a token: `$value`, or else a `value` that is no object. -/
def rawValue? (members : List (String × Json)) : Option Json :=
  members.lookup "$value" <|> (members.lookup "value").filter (!·.isObject)

/-- The kind of a token: the text of `$type`, or of `type` where there is no `$type`. -/
def kind? (members : List (String × Json)) : Option String :=
  (members.lookup "$type" <|> members.lookup "type").bind Json.text?

/-- The value of the token at `path`. -/
def tokenValue (path : String) : Json → Except Fault TokenValue
  | .text s => .ok (.text s)
  | .number n => .ok (.scalar (.ofList n.text))
  | .bool b => .ok (.scalar (if b then "true" else "false"))
  | _ => .error (.unsupportedValue path)

mutual

/-- The node of a member at `path`; values other than objects make none. -/
def node? (path : String) : Json → Except Fault (Option Node)
  | .object members =>
    match rawValue? members with
    | some raw => (tokenValue path raw).map fun v => some (.leaf ⟨v, kind? members⟩)
    | none => (children path members).map fun below => some (.group below)
  | _ => .ok none

/-- The nodes of the members below `path`, metadata left out. -/
def children (path : String) : List (String × Json) → Except Fault (List (String × Node))
  | [] => .ok []
  | (key, json) :: rest =>
    if isMetadata key then children path rest
    else
      match node? (path ++ "." ++ key) json with
      | .error e => .error e
      | .ok none => children path rest
      | .ok (some node) => (children path rest).map (Assoc.insert key node)

end

mutual

theorem ordered_of_node? {path : String} {json : Json} {node : Node} (h : node? path json = .ok (some node)) :
    node.Ordered := by
  match json with
  | .object members =>
    simp only [node?] at h
    split at h
    · next raw _ =>
      cases ht : tokenValue path raw with
      | error e => simp [ht, Except.map] at h
      | ok v => simp [ht, Except.map] at h; subst h; exact .leaf _
    · cases hc : children path members with
      | error e => simp [hc, Except.map] at h
      | ok below => simp [hc, Except.map] at h; subst h; exact ordered_of_children hc
  | .null | .bool _ | .number _ | .text _ | .array _ => simp [node?] at h

theorem ordered_of_children {path : String} {members : List (String × Json)} {below : List (String × Node)}
    (h : children path members = .ok below) : Node.Ordered (.group below) := by
  match members with
  | [] => cases h; exact .group .nil (by simp)
  | (key, json) :: rest =>
    simp only [children] at h
    split at h
    · exact ordered_of_children h
    · split at h
      · cases h
      · exact ordered_of_children h
      · next node hn =>
        cases hc : children path rest with
        | error e => simp [hc, Except.map] at h
        | ok more =>
          simp [hc, Except.map] at h
          subst h
          cases ordered_of_children hc with
          | group hs hm =>
            refine .group (Assoc.sorted_insert hs) fun b hb => ?_
            rcases Assoc.mem_insert hb with rfl | hb
            · exact ordered_of_node? hn
            · exact hm b hb

end

/-- The tree of a layer. -/
def root (top : List (String × Json)) (layer : Layer) :
    Except Fault { children : List (String × Node) // Node.Ordered (.group children) } :=
  match top.lookup layer.name with
  | none => .error (.document (.missingLayer layer))
  | some (.object members) =>
    match h : children layer.name members with
    | .ok below => .ok ⟨below, ordered_of_children h⟩
    | .error e => .error e
  | some _ => .error (.document (.layerNoObject layer))

/-- What the tree of a layer is made from. -/
theorem map_val_root (top : List (String × Json)) (layer : Layer) :
    (root top layer).map Subtype.val =
      match top.lookup layer.name with
      | none => .error (.document (.missingLayer layer))
      | some (.object members) => children layer.name members
      | some _ => .error (.document (.layerNoObject layer)) := by
  rw [root]
  cases top.lookup layer.name with
  | none => rfl
  | some j =>
      cases j with
      | object members =>
          dsimp only
          split <;> next h => exact h.symm
      | null | bool _ | number _ | text _ | array _ => rfl

/-- The first key at the top that is neither metadata nor the name of a layer. -/
def unknownKey? (top : List (String × Json)) : Option String :=
  (top.map Prod.fst).find? fun key => !isMetadata key && (Layer.ofName? key).isNone

end Document

/-- The graph of a token document. -/
def Graph.ofJson : Json → Except Fault Graph
  | .object top =>
    match Document.unknownKey? top with
    | some key => .error (.document (.unknownKey key))
    | none => do
      let primitives ← Document.root top .primitives
      let semantic ← Document.root top .semantic
      let component ← Document.root top .component
      let tree : Layer → { children : List (String × Node) // Node.Ordered (.group children) }
        | .primitives => primitives
        | .semantic => semantic
        | .component => component
      return ⟨fun layer => (tree layer).1, fun layer => (tree layer).2⟩
  | _ => .error (.document .noObject)

/-- The JSON value of a document text. -/
def readDocument (text : String) : Except Fault Json := (Json.read text).mapError .json

/-- The graph of a document text. -/
def Graph.ofText (text : String) : Except Fault Graph := readDocument text >>= Graph.ofJson

end DesignTokens
