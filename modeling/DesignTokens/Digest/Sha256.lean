/-!
The digest SHA-256 of a sequence of bytes.
-/

namespace DesignTokens.Digest

/-- The eight chaining words. -/
structure State where
  a : UInt32
  b : UInt32
  c : UInt32
  d : UInt32
  e : UInt32
  f : UInt32
  g : UInt32
  h : UInt32
  deriving DecidableEq

/-- The chaining words before the first block: fractional parts of the square roots of the first primes. -/
def State.start : State :=
  ⟨0x6a09e667, 0xbb67ae85, 0x3c6ef372, 0xa54ff53a,
    0x510e527f, 0x9b05688c, 0x1f83d9ab, 0x5be0cd19⟩

/-- The round constants: fractional parts of the cube roots of the first primes. -/
def roundConstants : List UInt32 := [
    0x428a2f98, 0x71374491, 0xb5c0fbcf, 0xe9b5dba5, 0x3956c25b, 0x59f111f1, 0x923f82a4, 0xab1c5ed5,
    0xd807aa98, 0x12835b01, 0x243185be, 0x550c7dc3, 0x72be5d74, 0x80deb1fe, 0x9bdc06a7, 0xc19bf174,
    0xe49b69c1, 0xefbe4786, 0x0fc19dc6, 0x240ca1cc, 0x2de92c6f, 0x4a7484aa, 0x5cb0a9dc, 0x76f988da,
    0x983e5152, 0xa831c66d, 0xb00327c8, 0xbf597fc7, 0xc6e00bf3, 0xd5a79147, 0x06ca6351, 0x14292967,
    0x27b70a85, 0x2e1b2138, 0x4d2c6dfc, 0x53380d13, 0x650a7354, 0x766a0abb, 0x81c2c92e, 0x92722c85,
    0xa2bfe8a1, 0xa81a664b, 0xc24b8b70, 0xc76c51a3, 0xd192e819, 0xd6990624, 0xf40e3585, 0x106aa070,
    0x19a4c116, 0x1e376c08, 0x2748774c, 0x34b0bcb5, 0x391c0cb3, 0x4ed8aa4a, 0x5b9cca4f, 0x682e6ff3,
    0x748f82ee, 0x78a5636f, 0x84c87814, 0x8cc70208, 0x90befffa, 0xa4506ceb, 0xbef9a3f7, 0xc67178f2]

/-- Rotation to the right, for 0 < `n` < 32. -/
def rotateRight (x : UInt32) (n : UInt32) : UInt32 := (x >>> n) ||| (x <<< (32 - n))

/-- One round with its constant and its word of the schedule. -/
def State.round (s : State) (k w : UInt32) : State :=
  let t₁ := s.h + (rotateRight s.e 6 ^^^ rotateRight s.e 11 ^^^ rotateRight s.e 25) +
    ((s.e &&& s.f) ^^^ (~~~s.e &&& s.g)) + k + w
  let t₂ := (rotateRight s.a 2 ^^^ rotateRight s.a 13 ^^^ rotateRight s.a 22) +
    ((s.a &&& s.b) ^^^ (s.a &&& s.c) ^^^ (s.b &&& s.c))
  ⟨t₁ + t₂, s.a, s.b, s.c, s.d + t₁, s.e, s.f, s.g⟩

/-- Adds two states word by word. -/
def State.add (s t : State) : State :=
  ⟨s.a + t.a, s.b + t.b, s.c + t.c, s.d + t.d, s.e + t.e, s.f + t.f, s.g + t.g, s.h + t.h⟩

/-- Groups bytes to words, the first byte being the highest. -/
def words : List UInt8 → List UInt32
  | a :: b :: c :: d :: rest =>
    (a.toUInt32 <<< 24 ||| b.toUInt32 <<< 16 ||| c.toUInt32 <<< 8 ||| d.toUInt32) :: words rest
  | _ => []

/-- The four bytes of a word, the highest first. -/
def bytes (w : UInt32) : List UInt8 :=
  [(w >>> 24).toUInt8, (w >>> 16).toUInt8, (w >>> 8).toUInt8, w.toUInt8]

/-- The word of the schedule after `w`, which ends with the last sixteen. -/
def nextWord (w : Array UInt32) : UInt32 :=
  let back (n : Nat) := w.getD (w.size - n) 0
  let x := back 15
  let y := back 2
  back 16 + (rotateRight x 7 ^^^ rotateRight x 18 ^^^ (x >>> 3)) + back 7 +
    (rotateRight y 17 ^^^ rotateRight y 19 ^^^ (y >>> 10))

/-- The sixty-four words of the schedule of a block. -/
def schedule (block : List UInt32) : Array UInt32 :=
  (List.range 48).foldl (fun w _ => w.push (nextWord w)) block.toArray

/-- Takes a block of sixteen words into the state. -/
def State.absorb (s : State) (block : List UInt32) : State :=
  s.add ((roundConstants.zip (schedule block).toList).foldl (fun t kw => t.round kw.1 kw.2) s)

/-- The bytes after a message of `n` bytes: a one bit, zeros, and the length in bits as eight bytes, up to a multiple
of sixty-four. -/
def padding (n : Nat) : List UInt8 :=
  let bits := n * 8
  let lengthBytes := (List.range 8).map fun i => (bits >>> (8 * (7 - i))).toUInt8
  0x80 :: (List.replicate ((119 - n % 64) % 64) 0 ++ lengthBytes)

/-- Takes words into the state, sixteen at a time, `count` times. -/
def absorbAll : (count : Nat) → State → List UInt32 → State
  | 0, s, _ => s
  | n + 1, s, ws => absorbAll n (s.absorb (ws.take 16)) (ws.drop 16)

/-- The thirty-two bytes of the digest. -/
def sha256 (message : List UInt8) : List UInt8 :=
  let ws := words (message ++ padding message.length)
  let s := absorbAll (ws.length / 16) State.start ws
  [s.a, s.b, s.c, s.d, s.e, s.f, s.g, s.h].flatMap bytes

/-- Bytes as two hexadecimal digits each, in lower case. -/
def hex (message : List UInt8) : String :=
  .ofList (message.flatMap fun b =>
    [(Nat.toDigits 16 (b.toNat / 16)).headD '0', (Nat.toDigits 16 (b.toNat % 16)).headD '0'])

/-- The digest of bytes, in hexadecimal. -/
def ofBytes (message : ByteArray) : String := hex (sha256 message.toList)

/-- The digest of a text in UTF-8, in hexadecimal. -/
def ofText (text : String) : String := ofBytes text.toUTF8

end DesignTokens.Digest
