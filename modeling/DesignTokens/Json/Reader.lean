import DesignTokens.Assoc
import DesignTokens.Json.Lexeme

/-!
Reading JSON texts.
-/

namespace DesignTokens.Json

variable {α : Type}

/-- Items with commas between them, up to `close`; `fuel` bounds their number. -/
def itemsUntil (close : Char) (item : Reader α) : (fuel : Nat) → Reader (List α)
  | 0 => throw .malformed
  | fuel + 1 => do
    let a ← item
    match ← peek with
    | none => throw .unfinished
    | some c =>
      if c = close then do advance; return [a]
      else if c = ',' then do advance; return a :: (← itemsUntil close item fuel)
      else throw .malformed

/-- Items with commas between them, or none, up to `close`. -/
def listUntil (close : Char) (fuel : Nat) (item : Reader α) : Reader (List α) := do
  match ← peek with
  | none => throw .unfinished
  | some c => if c = close then do advance; return [] else itemsUntil close item fuel

/-- A key and the colon after it. -/
def key : Reader String := do
  match ← peek with
  | none => throw .unfinished
  | some c => if c = '"' then do advance; stringLexeme else throw .malformed

/-- The colon between a key and its value. -/
def colon : Reader Unit := do
  match ← peek with
  | none => throw .unfinished
  | some c => if c = ':' then advance else throw .malformed

/-- A value without parts whose first character is `c`. -/
def atom (c : Char) : Reader Json :=
  if c = 'n' then do word ['n', 'u', 'l', 'l']; return null
  else if c = 't' then do word ['t', 'r', 'u', 'e']; return bool true
  else if c = 'f' then do word ['f', 'a', 'l', 's', 'e']; return bool false
  else if c = '"' then do advance; return text (← stringLexeme)
  else if c = '-' || c.isDigit then return number (← numberLexeme)
  else throw .malformed

/-- A member of an object, its value read by `item`. -/
def member (item : Reader α) : Reader (String × α) := do
  let k ← key
  colon
  return (k, ← item)

/-- A value in which brackets nest at most `depth` deep, from a text of at most `size` characters. Of the members of
an object with the same key the last one counts. -/
def value (size : Nat) : (depth : Nat) → Reader Json
  | 0 => do
    match ← peek with
    | none => throw .unfinished
    | some c => atom c
  | depth + 1 => do
    match ← peek with
    | none => throw .unfinished
    | some c =>
      if c = '[' then do
        advance
        return array (← listUntil ']' (size + 1) (value size depth))
      else if c = '{' then do
        advance
        return object (Assoc.ofList (← listUntil '}' (size + 1) (member (value size depth))))
      else atom c

/-- The greatest depth to which brackets may nest. -/
def maxDepth : Nat := 127

/-- Applies a reader to a whole text, after which only blanks may follow. -/
def whole (item : Nat → Reader α) (s : String) : Except Flaw α :=
  let s := s.toList
  match (do let a ← item s.length; return (a, ← peek) : Reader (α × Option Char)) s with
  | .ok ((a, none), _) => .ok a
  | .ok ((_, some _), _) => .error .malformed
  | .error e => .error e

/-- The value of a JSON text. -/
def read (s : String) : Except Flaw Json := whole (fun size => value size maxDepth) s

/-! ## Values of no interest -/

/-- Skips the rest of a string, after the quote that opens it: code units need not form characters. -/
def skipString (s : List Char) : Except Flaw (Unit × List Char) :=
  match s with
  | [] => .error .unfinished
  | '"' :: rest => .ok ((), rest)
  | '\\' :: c :: rest =>
    if c = 'u' then
      match _h : hexUnit rest with
      | .ok (_, rest') => skipString rest'
      | .error e => .error e
    else if (escaped? c).isSome then skipString rest
    else .error .malformed
  | ['\\'] => .error .unfinished
  | c :: rest => if c.toNat < 0x20 then .error .malformed else skipString rest
termination_by s.length
decreasing_by
  · have := length_lt_of_hexUnit _h; simp only [List.length_cons]; omega
  · simp only [List.length_cons]; omega
  · simp

/-- Skips a number: it may have any size, but its text must not end within it. -/
def skipNumber : Reader Unit := fun s =>
  match numeral s with
  | .ok (_, rest) => .ok ((), rest)
  | .error _ => .error .malformed

/-- Skips a value in which brackets may nest to any depth; `fuel` is at least the number of characters. -/
def skipValue : (fuel : Nat) → Reader Unit
  | 0 => throw .malformed
  | fuel + 1 => do
    match ← peek with
    | none => throw .unfinished
    | some c =>
      if c = 'n' then word ['n', 'u', 'l', 'l']
      else if c = 't' then word ['t', 'r', 'u', 'e']
      else if c = 'f' then word ['f', 'a', 'l', 's', 'e']
      else if c = '"' then do advance; skipString
      else if c = '-' || c.isDigit then skipNumber
      else if c = '[' then do
        advance
        discard (listUntil ']' (fuel + 1) (skipValue fuel))
      else if c = '{' then do
        advance
        discard (listUntil '}' (fuel + 1) (do
          match ← peek with
          | none => throw .unfinished
          | some c => if c = '"' then do advance; skipString else throw .malformed
          colon
          skipValue fuel))
      else throw .malformed

end DesignTokens.Json
