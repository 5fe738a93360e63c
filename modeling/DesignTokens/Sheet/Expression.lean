import DesignTokens.Reference.Basic
import DesignTokens.Text.Search

/-!
Token values as stylesheet expressions. A lookup alone stays as it is although names have dashes, a bare number gets
its unit, and arithmetic is wrapped.
-/

namespace DesignTokens.Sheet

/-- The unit of bare numbers. -/
def baseUnit : List Char := ['p', 'x']

/-- Whether a text is the lookup of one variable and nothing else. -/
def isLookup (s : List Char) : Bool :=
  match Text.dropLit? ['v', 'a', 'r', '(', '-', '-'] s with
  | some r => r.takeWhile Name.isLegal != [] && r.dropWhile Name.isLegal == [')']
  | none => false

/-- Whether a text is digits, or digits on both sides of a point. -/
def isNumber (s : List Char) : Bool :=
  s.takeWhile Char.isDigit != [] &&
    match s.dropWhile Char.isDigit with
    | [] => true
    | c :: places => c == '.' && places != [] && places.all Char.isDigit

/-- The signs of arithmetic. -/
def isOperator (c : Char) : Bool := c == '+' || c == '-' || c == '*' || c == '/'

/-- The expression of a text whose references are replaced. -/
def expression (s : List Char) : List Char :=
  let bare := Text.trim s
  if isLookup bare then bare
  else if isNumber bare then bare ++ baseUnit
  else if s.any isOperator then ['c', 'a', 'l', 'c', '('] ++ s ++ [')']
  else s

end DesignTokens.Sheet

namespace DesignTokens

/-- The expression of a text whose references are replaced. -/
def compileText (s : String) : String := .ofList (Sheet.expression s.toList)

/-- The expression of a token value; `context` is the path of the token. -/
def Graph.compileValue (g : Graph) (value : TokenValue) (context : String) : Except Fault String :=
  match value with
  | .scalar s => .ok s
  | .text s => (g.substitute s context).map compileText

end DesignTokens
