/-!
Literal pieces of text: what follows a literal, whether and how often one occurs, and occurrences that depend on
the character before them.
-/

namespace DesignTokens.Text

/-- What follows `lit` at the front of a text. -/
def dropLit? : List Char → List Char → Option (List Char)
  | [], s => some s
  | _ :: _, [] => none
  | a :: lit, c :: s => if a = c then dropLit? lit s else none

theorem dropLit?_eq_some_iff {lit s r : List Char} : dropLit? lit s = some r ↔ s = lit ++ r := by
  induction lit generalizing s with
  | nil => simp [dropLit?, eq_comm]
  | cons a lit ih =>
    cases s with
    | nil => simp [dropLit?]
    | cons c s =>
      by_cases h : a = c
      · simp [dropLit?, h, ih]
      · simp [dropLit?, h, Ne.symm h]

/-- Whether `p` holds somewhere in the text, the end included; `p` sees the character before and the rest. -/
def holdsAt (p : Option Char → List Char → Bool) (before : Option Char) : List Char → Bool
  | [] => p before []
  | c :: s => p before (c :: s) || holdsAt p (some c) s

/-- Whether `p` holds of some end part of the text. -/
def holdsSomewhere (p : List Char → Bool) (s : List Char) : Bool := holdsAt (fun _ => p) none s

/-- Whether `lit` occurs in the text. -/
def contains (s lit : List Char) : Bool := holdsSomewhere (fun r => (dropLit? lit r).isSome) s

/-- How often a literal occurs from left to right without overlap, when `skip` characters belong to the last one. -/
def countFrom (lit : List Char) : Nat → List Char → Nat
  | _, [] => if lit = [] then 1 else 0
  | skip, c :: s =>
    match skip with
    | k + 1 => countFrom lit k s
    | 0 => if (dropLit? lit (c :: s)).isSome then countFrom lit (lit.length - 1) s + 1 else countFrom lit 0 s

/-- How often `lit` occurs from left to right without overlap; the empty literal lies between all characters. -/
def count (s lit : List Char) : Nat := countFrom lit 0 s

end DesignTokens.Text
