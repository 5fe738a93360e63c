/-!
Texts as bytes, and the texts that bytes are read as where they need not be those of a text.
-/

namespace DesignTokens.Text

/-- The bytes of a text in UTF-8. -/
def utf8 (s : String) : List UInt8 := s.toList.flatMap String.utf8EncodeChar

/-- The character whose bytes come first. -/
def decodeChar? (bs : List UInt8) : Option Char := bs.toByteArray.utf8DecodeChar? 0

/-- The bounds of the bytes of a character that come after its first one. -/
def tailBounds (first : UInt8) : List (UInt8 × UInt8) :=
  if first < 0xC2 then []
  else if first < 0xE0 then [(0x80, 0xBF)]
  else if first < 0xF0 then
    [(if first = 0xE0 then 0xA0 else 0x80, if first = 0xED then 0x9F else 0xBF), (0x80, 0xBF)]
  else if first < 0xF5 then
    [(if first = 0xF0 then 0x90 else 0x80, if first = 0xF4 then 0x8F else 0xBF), (0x80, 0xBF), (0x80, 0xBF)]
  else []

/-- How many of the bytes are within the bounds, up to the first one that is not. -/
def countWithin : List (UInt8 × UInt8) → List UInt8 → Nat
  | (low, high) :: bounds, b :: bs => if low ≤ b && b ≤ high then countWithin bounds bs + 1 else 0
  | _, _ => 0

/-- Decodes the bytes after the first `skip` ones. Where no character comes first, the longest piece that one could
begin with is replaced. -/
def decodeAfter : (skip : Nat) → List UInt8 → List Char
  | _, [] => []
  | skip + 1, _ :: bs => decodeAfter skip bs
  | 0, b :: bs =>
    match decodeChar? (b :: bs) with
    | some c => c :: decodeAfter (c.utf8Size - 1) bs
    | none => '\uFFFD' :: decodeAfter (countWithin (tailBounds b) bs) bs

/-- The text that bytes are read as: each piece of them that is no character is replaced by U+FFFD. -/
def decode (bs : List UInt8) : String := .ofList (decodeAfter 0 bs)

end DesignTokens.Text
