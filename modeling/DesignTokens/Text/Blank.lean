/-!
White space: the White_Space property of characters, trimming, and runs of white space written as one space.
-/

namespace DesignTokens.Text

/-- The characters with the Unicode property White_Space. -/
def isBlank (c : Char) : Bool :=
  let n := c.toNat
  (9 ≤ n && n ≤ 13) || n == 0x20 || n == 0x85 || n == 0xA0 || n == 0x1680 ||
    (0x2000 ≤ n && n ≤ 0x200A) || n == 0x2028 || n == 0x2029 || n == 0x202F || n == 0x205F || n == 0x3000

/-- The text from its first character that is not blank. -/
def trimStart (s : List Char) : List Char := s.dropWhile isBlank

/-- The text up to its last character that is not blank. -/
def trimEnd (s : List Char) : List Char := (s.reverse.dropWhile isBlank).reverse

/-- The text without the white space around it. -/
def trim (s : List Char) : List Char := trimEnd (trimStart s)

/-- Collapses runs of white space, where `inRun` tells that the character before was blank. -/
def collapseFrom (inRun : Bool) : List Char → List Char
  | [] => []
  | c :: s =>
    if isBlank c then (if inRun then collapseFrom true s else ' ' :: collapseFrom true s)
    else c :: collapseFrom false s

/-- Each run of white space becomes one space. -/
def collapse (s : List Char) : List Char := collapseFrom false s

/-- The text without the white space in front, if it has some there. -/
def dropBlanks? : List Char → Option (List Char)
  | [] => none
  | c :: s => if isBlank c then some (trimStart s) else none

end DesignTokens.Text
