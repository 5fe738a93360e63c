import DesignTokens.Token.Layer

/-!
The names of custom properties: `--` and letters, digits, dashes and underscores. Some addresses have names of their
own, all others the kebab-case name of their keys.
-/

namespace DesignTokens.Name

/-- The characters of names. -/
def isLegal (c : Char) : Bool := c.isAlphanum || c == '-' || c == '_'

/-- A key with a dash for each character that names do not have. -/
def sanitize (key : String) : List Char := key.toList.map fun c => if isLegal c then c else '-'

/-- Keys one after the other with dashes between them. -/
def dashed : List String → List Char
  | [] => []
  | [key] => sanitize key
  | key :: more :: rest => sanitize key ++ '-' :: dashed (more :: rest)

/-- A capital becomes a dash and the small letter. -/
def kebab (c : Char) : List Char := if c.isUpper then ['-', c.toLower] else [c]

/-- Shortens runs of dashes to two, when `run` dashes stand before. -/
def squeeze : (run : Nat) → List Char → List Char
  | _, [] => []
  | run, c :: s =>
    if c = '-' then (if run < 2 then c :: squeeze (run + 1) s else squeeze run s)
    else c :: squeeze 0 s

/-- The name made of the keys alone; a name without letters is called `--token`. -/
def ofKeys (segments : List String) : String :=
  let name := squeeze 0 (('-' :: '-' :: dashed segments).flatMap kebab)
  if name.length = 2 then .ofList (name ++ ['t', 'o', 'k', 'e', 'n']) else .ofList name

/-- A word and keys, each key after a dash. -/
def compound (word : List Char) (keys : List String) : String :=
  .ofList ('-' :: '-' :: word ++ keys.flatMap fun key => '-' :: sanitize key)

end DesignTokens.Name

namespace DesignTokens.Address

/-- The name of the variable of a token. -/
def variableName : Address → String
  | ⟨.primitives, ["color", hue, step]⟩ => Name.compound ['c', 'o', 'l', 'o', 'r'] [hue, step]
  | ⟨.primitives, ["scale", "base"]⟩ => "--scale-base"
  | ⟨.primitives, ["scale", step]⟩ => Name.compound ['s', 'c', 'a', 'l', 'e'] [step]
  | ⟨.semantic, ["space", size]⟩ => Name.compound ['s', 'p', 'a', 'c', 'i', 'n', 'g'] [size]
  | ⟨.semantic, ["radius", size]⟩ => Name.compound ['c', 'o', 'r', 'n', 'e', 'r'] [size]
  | ⟨.semantic, ["type", "web", "paragraph", "size"]⟩ => "--web---paragraph"
  | a => Name.ofKeys a.segments

/-- The lookup of the variable of a token. -/
def lookup (a : Address) : String := "var(" ++ a.variableName ++ ")"

end DesignTokens.Address
