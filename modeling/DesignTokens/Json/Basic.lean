import DesignTokens.Number.Binary64

/-!
JSON values.
-/

namespace DesignTokens

/-- A number: integers from -2^63 to 2^64 - 1 are kept exactly, all others in binary. -/
inductive Json.Number where
  | integer (value : Int)
  | binary (value : Number.Binary64)

/-- A JSON value; an object binds its keys in code-point order. -/
inductive Json where
  | null
  | bool (value : Bool)
  | number (value : Json.Number)
  | text (value : String)
  | array (items : List Json)
  | object (members : List (String × Json))

namespace Json

/-- The members of an object. -/
def members? : Json → Option (List (String × Json))
  | object ms => some ms
  | _ => none

/-- Whether the value is an object. -/
def isObject (j : Json) : Bool := j.members?.isSome

/-- The contents of a text. -/
def text? : Json → Option String
  | text s => some s
  | _ => none

end Json

end DesignTokens
