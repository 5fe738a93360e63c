import DesignTokens.Path
import DesignTokens.Text.Utf8

/-!
Paths of any bytes, as a system has them. Only slashes and points mean anything in a path, and each of them is a byte;
so a path of bytes is taken apart like the path that has a character of the same number for each byte.
-/

namespace DesignTokens

/-- A path as the bytes it is written with. -/
structure RawPath where
  bytes : List UInt8
  deriving DecidableEq

namespace RawPath

/-- The text with a character of the same number for each byte. -/
def spell (bs : List UInt8) : String := .ofList (bs.map Char.ofUInt8)

/-- The bytes of a text that spells them. -/
def unspell (s : String) : List UInt8 := s.toList.map Char.toUInt8

/-- The path that spells the bytes of this one. -/
def spelled (p : RawPath) : Path := ⟨spell p.bytes⟩

/-- The path whose bytes are spelled. -/
def ofSpelled (p : Path) : RawPath := ⟨unspell p.text⟩

/-- Whether the path starts at the top and not at a given directory. -/
def isAbsolute (p : RawPath) : Bool := p.spelled.isAbsolute

/-- What the path says: its start, if it tells one, and all parts that lead somewhere. -/
def components (p : RawPath) : List (List UInt8) := p.spelled.components.map unspell

/-- The path with another one below it; an absolute one stands for itself. -/
def join (p q : RawPath) : RawPath := ofSpelled (p.spelled.join q.spelled)

/-- The last component, if it is a name. -/
def fileName? (p : RawPath) : Option (List UInt8) := p.spelled.fileName?.map unspell

/-- The path with another name in place of its last one, or below it if it has no name. -/
def withFileName (p : RawPath) (name : List UInt8) : RawPath := ofSpelled (p.spelled.withFileName (spell name))

end RawPath

/-- The path as bytes. -/
def Path.raw (p : Path) : RawPath := ⟨Text.utf8 p.text⟩

end DesignTokens
