/-!
Scanning a text from left to right for the items of a pattern.
-/

namespace DesignTokens.Text

/-- A way to read an item off the front of a text. -/
structure Pattern (α : Type) where
  /-- The item at the front, and what follows it. -/
  read : List Char → Option (α × List Char)
  /-- An item as it stands in the text. -/
  text : α → List Char
  text_append : ∀ {s a r}, read s = some (a, r) → text a ++ r = s
  text_ne_nil : ∀ {s a r}, read s = some (a, r) → text a ≠ []

theorem Pattern.length_lt {α : Type} (p : Pattern α) {s a r} (h : p.read s = some (a, r)) :
    r.length < s.length := by
  have := p.text_append h
  have hne : 0 < (p.text a).length := List.length_pos_iff.2 (p.text_ne_nil h)
  rw [← this, List.length_append]
  omega

/-- A piece of a scanned text: a character that begins no item, or an item. -/
inductive Piece (α : Type) where
  | plain (c : Char)
  | hit (item : α)

namespace Piece

/-- The piece as it stands in the text. -/
def text {α : Type} (p : Pattern α) : Piece α → List Char
  | plain c => [c]
  | hit a => p.text a

/-- The item, if the piece is one. -/
def hit? {α : Type} : Piece α → Option α
  | plain _ => none
  | hit a => some a

end Piece

namespace Pattern

variable {α : Type} (p : Pattern α)

/-- Cuts a text into pieces: the leftmost item, then the leftmost one after it, and so on. -/
def pieces : List Char → List (Piece α)
  | [] => []
  | c :: s =>
    match _h : p.read (c :: s) with
    | some (a, r) => .hit a :: pieces r
    | none => .plain c :: pieces s
termination_by s => s.length
decreasing_by
  · exact p.length_lt _h
  · simp

/-- The items of a text, leftmost first and without overlap. -/
def hits (s : List Char) : List α := (p.pieces s).filterMap Piece.hit?

theorem pieces_nil : p.pieces [] = [] := by rw [pieces]

theorem pieces_of_read {s a r} (h : p.read s = some (a, r)) : p.pieces s = .hit a :: p.pieces r := by
  cases s with
  | nil => exact absurd (List.append_eq_nil_iff.1 (p.text_append h)).1 (p.text_ne_nil h)
  | cons c s =>
    rw [pieces]
    split
    · next a' r' h' => rw [h] at h'; cases h'; rfl
    · next h' => rw [h] at h'; cases h'

theorem pieces_cons {c s} (h : p.read (c :: s) = none) : p.pieces (c :: s) = .plain c :: p.pieces s := by
  rw [pieces]
  split
  · next h' => rw [h] at h'; cases h'
  · rfl

end Pattern

end DesignTokens.Text
