import DesignTokens.Assoc
import DesignTokens.Json.Basic
import DesignTokens.Number.Shortest
import DesignTokens.Text.Fields

/-!
Writing JSON: compact, and laid out over lines.
-/

namespace DesignTokens.Json

/-- A hexadecimal digit in lower case. -/
def hexDigit (n : Nat) : Char := (Nat.toDigits 16 n).headD '0'

/-- A character inside a string: quotes, backslashes and the controls below U+0020 are escaped. -/
def escapeChar (c : Char) : List Char :=
  match c with
  | '"' => ['\\', '"']
  | '\\' => ['\\', '\\']
  | '\x08' => ['\\', 'b']
  | '\t' => ['\\', 't']
  | '\n' => ['\\', 'n']
  | '\x0c' => ['\\', 'f']
  | '\r' => ['\\', 'r']
  | c => if c.toNat < 0x20 then ['\\', 'u', '0', '0', hexDigit (c.toNat / 16), hexDigit (c.toNat % 16)] else [c]

/-- A string with its quotes. -/
def quote (s : String) : List Char := '"' :: s.toList.flatMap escapeChar ++ ['"']

/-- A number as text. -/
def Number.text : Number → List Char
  | .integer n => if n < 0 then '-' :: Nat.toDigits 10 n.natAbs else Nat.toDigits 10 n.natAbs
  | .binary x => x.text

/-- The text of a value that has no parts. -/
def atomText : Json → List Char
  | null => ['n', 'u', 'l', 'l']
  | bool b => if b then ['t', 'r', 'u', 'e'] else ['f', 'a', 'l', 's', 'e']
  | number n => n.text
  | text s => quote s
  | array _ => ['[', ']']
  | object _ => ['{', '}']

mutual

/-- The text of a value without blanks. -/
def compact : Json → List Char
  | array items => '[' :: compactItems items ++ [']']
  | object members => '{' :: compactMembers members ++ ['}']
  | j => atomText j

/-- Items with commas between them. -/
def compactItems : List Json → List Char
  | [] => []
  | [j] => compact j
  | j :: k :: rest => compact j ++ ',' :: compactItems (k :: rest)

/-- Members with commas between them. -/
def compactMembers : List (String × Json) → List Char
  | [] => []
  | [(k, j)] => quote k ++ ':' :: compact j
  | (k, j) :: m :: rest => quote k ++ ':' :: compact j ++ ',' :: compactMembers (m :: rest)

end

mutual

/-- The value with the members of each object in the order of their keys. -/
def sorted : Json → Json
  | array items => array (sortedItems items)
  | object members => object (Assoc.ofList (sortedMembers members))
  | j => j

/-- The items, each put in order. -/
def sortedItems : List Json → List Json
  | [] => []
  | j :: rest => sorted j :: sortedItems rest

/-- The members, their values put in order. -/
def sortedMembers : List (String × Json) → List (String × Json)
  | [] => []
  | (k, j) :: rest => (k, sorted j) :: sortedMembers rest

end

/-- The text of a value without blanks, whatever order its members are in. -/
def canonical (j : Json) : String := .ofList (compact (sorted j))

/-- A line break and two blanks per level. -/
def newline (level : Nat) : List Char := '\n' :: List.replicate (2 * level) ' '

mutual

/-- The text of a value with each part on a line of its own, indented by its level. -/
def indented (level : Nat) : Json → List Char
  | array [] => ['[', ']']
  | array (j :: rest) =>
    '[' :: newline (level + 1) ++ indentedItems (level + 1) (j :: rest) ++ newline level ++ [']']
  | object [] => ['{', '}']
  | object (m :: rest) =>
    '{' :: newline (level + 1) ++ indentedMembers (level + 1) (m :: rest) ++ newline level ++ ['}']
  | j => atomText j

/-- Items with commas between them, each on a line. -/
def indentedItems (level : Nat) : List Json → List Char
  | [] => []
  | [j] => indented level j
  | j :: k :: rest => indented level j ++ ',' :: newline level ++ indentedItems level (k :: rest)

/-- Members with commas between them, each on a line. -/
def indentedMembers (level : Nat) : List (String × Json) → List Char
  | [] => []
  | [(k, j)] => quote k ++ ':' :: ' ' :: indented level j
  | (k, j) :: m :: rest =>
    quote k ++ ':' :: ' ' :: indented level j ++ ',' :: newline level ++ indentedMembers level (m :: rest)

end

/-- The text of a value over lines. -/
def pretty (j : Json) : String := .ofList (indented 0 j)

end DesignTokens.Json
