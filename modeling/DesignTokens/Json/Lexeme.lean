import DesignTokens.Json.Basic

/-!
The lexemes of JSON: white space, fixed words, numbers and strings. A reader takes a lexeme off the front of a text
and leaves what follows, or tells why no text that begins so is well-formed.
-/

namespace DesignTokens.Json

/-- Why a text was refused: it ends too early, has a character that fits nowhere, or has the wrong type. -/
inductive Flaw where
  | unfinished
  | malformed
  | mismatched
  deriving DecidableEq

/-- Takes a value off the front of a text. -/
abbrev Reader := StateT (List Char) (Except Flaw)

theorem Reader.bind_eq_ok {α β : Type} {x : Reader α} {f : α → Reader β} {s r : List Char} {b : β} :
    (x >>= f) s = .ok (b, r) ↔ ∃ a s', x s = .ok (a, s') ∧ f a s' = .ok (b, r) := by
  simp only [bind, StateT.bind, Except.bind]
  cases x s with
  | error e => simp
  | ok p => exact ⟨fun h => ⟨p.1, p.2, rfl, h⟩, fun ⟨_, _, hp, h⟩ => by cases hp; exact h⟩

theorem Reader.pure_eq_ok {α : Type} {a b : α} {s r : List Char} :
    (pure a : Reader α) s = .ok (b, r) ↔ a = b ∧ s = r := by
  constructor
  · intro h; cases h; exact ⟨rfl, rfl⟩
  · rintro ⟨rfl, rfl⟩; rfl

/-- JSON knows four blank characters. -/
def isSpace (c : Char) : Bool := c == ' ' || c == '\t' || c == '\n' || c == '\r'

/-- Skips blanks and tells the character after them, which stays. -/
def peek : Reader (Option Char) := fun s =>
  let s := s.dropWhile isSpace
  .ok (s.head?, s)

/-- Skips one character. -/
def advance : Reader Unit := fun s => .ok ((), s.drop 1)

/-- Reads the characters of `word`. -/
def word : List Char → Reader Unit
  | [], s => .ok ((), s)
  | _ :: _, [] => .error .unfinished
  | a :: rest, c :: s => if a = c then word rest s else .error .malformed

/-! ## Numbers -/

/-- A number as it is written. -/
structure Numeral where
  negative : Bool
  whole : List Char
  fraction : Option (List Char)
  exponent : Option (Bool × List Char)
  deriving DecidableEq

/-- At least one digit. -/
def digits : Reader (List Char) := fun s =>
  match s.takeWhile Char.isDigit, s.dropWhile Char.isDigit with
  | [], [] => .error .unfinished
  | [], _ :: _ => .error .malformed
  | ds, rest => .ok (ds, rest)

/-- Digits before the point: a zero stands alone. -/
def wholeDigits : Reader (List Char) := fun s =>
  match s with
  | '0' :: rest => if rest.head?.any Char.isDigit then .error .malformed else .ok (['0'], rest)
  | _ => digits s

/-- A point and digits, if there is a point. -/
def fractionDigits : Reader (Option (List Char)) := fun s =>
  match s with
  | '.' :: rest => (digits.map some) rest
  | _ => .ok (none, s)

/-- The mark of an exponent, its sign and its digits, if there is a mark. -/
def exponentDigits : Reader (Option (Bool × List Char)) := fun s =>
  match s with
  | c :: rest =>
    if c = 'e' || c = 'E' then
      match rest with
      | '-' :: rest => (digits.map fun ds => some (true, ds)) rest
      | '+' :: rest => (digits.map fun ds => some (false, ds)) rest
      | _ => (digits.map fun ds => some (false, ds)) rest
    else .ok (none, s)
  | [] => .ok (none, [])

/-- A number as it is written. -/
def numeral : Reader Numeral := fun s =>
  let (negative, s) := match s with
    | '-' :: rest => (true, rest)
    | _ => (false, s)
  (do return ⟨negative, ← wholeDigits, ← fractionDigits, ← exponentDigits⟩ : Reader Numeral) s

/-- The number that digits stand for. -/
def digitsValue (ds : List Char) : Nat := ds.foldl (fun n c => 10 * n + (c.toNat - '0'.toNat)) 0

/-- Appends digits to a number while it stays below 2^64; with the digits that are left. -/
def appendDigits (n : Nat) : List Char → Nat × List Char
  | [] => (n, [])
  | c :: ds =>
    let m := 10 * n + (c.toNat - '0'.toNat)
    if m < 18446744073709551616 then appendDigits m ds else (n, c :: ds)

/-- The significand of a numeral, of at most 64 bits, and the power of ten by which it is too small, the exponent of the
numeral left aside. Digits that do not fit are dropped; those before the point still count for the power. -/
def Numeral.decimal (n : Numeral) : Nat × Int :=
  let places := n.fraction.getD []
  let (m, skipped) := appendDigits 0 n.whole
  let (m, dropped) := appendDigits m places
  (m, skipped.length + dropped.length - places.length)

/-- The value of a numeral: an integer of the exact range, except for -0, or else a binary number, of which there is
none when it is too large. -/
def Numeral.value? (n : Numeral) : Option Number :=
  let whole := digitsValue n.whole
  let binary (shift : Int) :=
    (Number.Binary64.ofDecimal? n.negative n.decimal.1 (n.decimal.2 + shift)).map Number.binary
  match n.fraction, n.exponent with
  | none, none =>
    if n.negative then
      if 0 < whole && whole ≤ 9223372036854775808 then some (.integer (-whole)) else binary 0
    else if whole < 18446744073709551616 then some (.integer whole) else binary 0
  | some _, none => binary 0
  | _, some (isNegative, ds) => binary (if isNegative then -(digitsValue ds : Int) else digitsValue ds)

/-- A number. -/
def numberLexeme : Reader Number := do
  match (← numeral).value? with
  | some n => return n
  | none => throw .malformed

/-! ## Strings -/

/-- The value of a hexadecimal digit. -/
def hexValue? (c : Char) : Option Nat :=
  if c.isDigit then some (c.toNat - '0'.toNat)
  else if 'a' ≤ c && c ≤ 'f' then some (c.toNat - 'a'.toNat + 10)
  else if 'A' ≤ c && c ≤ 'F' then some (c.toNat - 'A'.toNat + 10)
  else none

/-- Four hexadecimal digits; a text of fewer than four bytes ends too early whatever stands there. -/
def hexUnit : Reader Nat := fun s =>
  if (String.ofList (s.take 4)).utf8ByteSize < 4 then .error .unfinished
  else
    match s with
    | a :: b :: c :: d :: rest =>
      match hexValue? a, hexValue? b, hexValue? c, hexValue? d with
      | some a, some b, some c, some d => .ok (((a * 16 + b) * 16 + c) * 16 + d, rest)
      | _, _, _, _ => .error .malformed
    | _ => .error .malformed

/-- The character of an escape by one letter. -/
def escaped? (c : Char) : Option Char :=
  match c with
  | '"' => some '"'
  | '\\' => some '\\'
  | '/' => some '/'
  | 'b' => some '\x08'
  | 'f' => some '\x0c'
  | 'n' => some '\n'
  | 'r' => some '\r'
  | 't' => some '\t'
  | _ => none

/-- The character above U+FFFF that two code units stand for. -/
def pairedUnits (high low : Nat) : Char := Char.ofNat (0x10000 + (high - 0xD800) * 0x400 + (low - 0xDC00))

/-- The character of an escape by code units, after its first unit: a unit from U+D800 to U+DBFF must be followed
by the escape of one from U+DC00 to U+DFFF, and these must not stand alone. -/
def unitsLexeme : Reader Char := do
  let high ← hexUnit
  if 0xDC00 ≤ high && high ≤ 0xDFFF then throw .malformed
  else if 0xD800 ≤ high && high ≤ 0xDBFF then
    word ['\\', 'u']
    let low ← hexUnit
    if 0xDC00 ≤ low && low ≤ 0xDFFF then return pairedUnits high low else throw .malformed
  else return Char.ofNat high

/-- The character of an escape, after the backslash. -/
def escapeLexeme : Reader Char := fun s =>
  match s with
  | [] => .error .unfinished
  | c :: rest =>
    if c = 'u' then unitsLexeme rest
    else
      match escaped? c with
      | some d => .ok (d, rest)
      | none => .error .malformed

theorem length_lt_of_hexUnit {s r : List Char} {n : Nat} (h : hexUnit s = .ok (n, r)) :
    r.length < s.length := by
  simp only [hexUnit] at h
  repeat' split at h
  all_goals first | cases h; simp only [List.length_cons]; omega | cases h

theorem append_of_word {w s r : List Char} (h : word w s = .ok ((), r)) : w ++ r = s := by
  induction w generalizing s with
  | nil => cases h; rfl
  | cons a w ih =>
    cases s with
    | nil => cases h
    | cons c s =>
      simp only [word] at h
      split at h
      · next hac => rw [List.cons_append, ih h, hac]
      · cases h

theorem length_lt_of_unitsLexeme {s r : List Char} {c : Char} (h : unitsLexeme s = .ok (c, r)) :
    r.length < s.length := by
  rw [unitsLexeme, Reader.bind_eq_ok] at h
  obtain ⟨high, s₁, h₁, h⟩ := h
  have h₁ := length_lt_of_hexUnit h₁
  split at h
  · cases h
  · split at h
    · rw [Reader.bind_eq_ok] at h
      obtain ⟨_, s₂, h₂, h⟩ := h
      rw [Reader.bind_eq_ok] at h
      obtain ⟨low, s₃, h₃, h⟩ := h
      have h₂ := congrArg List.length (append_of_word h₂)
      have h₃ := length_lt_of_hexUnit h₃
      simp only [List.length_append] at h₂
      split at h
      · obtain ⟨_, rfl⟩ := Reader.pure_eq_ok.1 h
        omega
      · cases h
    · obtain ⟨_, rfl⟩ := Reader.pure_eq_ok.1 h
      exact h₁

theorem length_lt_of_escapeLexeme {s r : List Char} {c : Char} (h : escapeLexeme s = .ok (c, r)) :
    r.length < s.length := by
  cases s with
  | nil => cases h
  | cons a s =>
    simp only [escapeLexeme] at h
    split at h
    · have := length_lt_of_unitsLexeme h; simp only [List.length_cons]; omega
    · split at h
      · cases h; simp
      · cases h

/-- The characters of a string up to the quote that closes it. -/
def contents (s : List Char) : Except Flaw (List Char × List Char) :=
  match s with
  | [] => .error .unfinished
  | '"' :: rest => .ok ([], rest)
  | '\\' :: rest =>
    match _h : escapeLexeme rest with
    | .ok (c, rest') => (contents rest').map fun p => (c :: p.1, p.2)
    | .error e => .error e
  | c :: rest =>
    if c.toNat < 0x20 then .error .malformed else (contents rest).map fun p => (c :: p.1, p.2)
termination_by s.length
decreasing_by
  · have := length_lt_of_escapeLexeme _h; simp only [List.length_cons]; omega
  · simp

/-- A string, after the quote that opens it. -/
def stringLexeme : Reader String := StateT.map String.ofList contents

end DesignTokens.Json
