import DesignTokens.Json.Reader

/-!
Records with optional members, read straight from a text: an object whose unknown members are skipped, or the array of
the values in the order of the fields. What is left out keeps its value.
-/

namespace DesignTokens.Json

variable {α ρ : Type}

/-- A field: its key, and how its value is read into the record from a text of at most `size` characters. -/
structure Field (ρ : Type) where
  key : String
  read : (size : Nat) → ρ → Reader ρ

/-- The field of a key whose value is read by `item`. -/
def Field.of (key : String) (item : Nat → Reader α) (set : ρ → α → ρ) : Field ρ where
  key := key
  read size r := (item size).map (set r)

/-- Refuses a value, but not before its text: the flaws of a malformed atom come first. -/
def mismatch (c : Char) : Reader α := do
  if c = '[' || c = '{' then throw .mismatched
  else do
    discard (atom c)
    throw .mismatched

/-- A string as a value. -/
def textItem (_size : Nat) : Reader String := do
  match ← peek with
  | none => throw .unfinished
  | some c => if c = '"' then do advance; stringLexeme else mismatch c

/-- An array of items as a value. -/
def listItem (item : Nat → Reader α) (size : Nat) : Reader (List α) := do
  match ← peek with
  | none => throw .unfinished
  | some c => if c = '[' then do advance; listUntil ']' (size + 1) (item size) else mismatch c

/-- The members of a record, of which `seen` were read before; no known key may come twice. -/
def recordMembers (size : Nat) (fields : List (Field ρ)) : (fuel : Nat) → (seen : List String) → ρ → Reader ρ
  | 0, _, _ => throw .malformed
  | fuel + 1, seen, r => do
    let k ← key
    let r ← match fields.find? (·.key == k) with
      | some f => if seen.contains k then throw .mismatched else do colon; f.read size r
      | none => do colon; skipValue (size + 1); pure r
    match ← peek with
    | none => throw .unfinished
    | some c =>
      if c = '}' then do advance; return r
      else if c = ',' then do advance; recordMembers size fields fuel (k :: seen) r
      else throw .malformed

/-- The items of a record; those that are missing at the end keep their values. -/
def recordItems (size : Nat) : List (Field ρ) → (first : Bool) → ρ → Reader ρ
  | [], _, r => do
    match ← peek with
    | none => throw .unfinished
    | some c => if c = ']' then do advance; return r else throw .malformed
  | f :: rest, first, r => do
    match ← peek with
    | none => throw .unfinished
    | some c =>
      if c = ']' then do advance; return r
      else if first then do recordItems size rest false (← f.read size r)
      else if c = ',' then do advance; recordItems size rest false (← f.read size r)
      else throw .malformed

/-- A record as a value; `r` holds the values of what is left out. -/
def recordItem (fields : List (Field ρ)) (r : ρ) (size : Nat) : Reader ρ := do
  match ← peek with
  | none => throw .unfinished
  | some c =>
    if c = '{' then do
      advance
      match ← peek with
      | none => throw .unfinished
      | some c => if c = '}' then do advance; return r else recordMembers size fields (size + 1) [] r
    else if c = '[' then do advance; recordItems size fields true r
    else mismatch c

end DesignTokens.Json
