import DesignTokens.Legacy.Declaration

/-!
How the names of a stylesheet written by hand are covered by generated ones: with the same value, with another value,
or not at all.
-/

namespace DesignTokens

/-- How a name written by hand is covered. -/
inductive Coverage where
  | covered
  | conflict
  | missing
  deriving DecidableEq

/-- A name with the first value written by hand that differs from the generated one. -/
structure Conflict where
  name : String
  legacy : String
  generated : String
  deriving DecidableEq

/-- The names written by hand, by coverage. -/
structure Classification where
  covered : List String
  conflicts : List Conflict
  missing : List String
  deriving DecidableEq

/-- What a name's values by hand are next to the generated one: the same, or else the first that differs. -/
def Conflict.first? (name : String) (legacy : List String) (generated : String) : Option Conflict :=
  (legacy.find? (· != generated)).map fun v => ⟨name, v, generated⟩

namespace Classification

/-- Puts a name with its values by hand in front of those classified. -/
def add (generated : List (String × String)) (b : String × List String) (c : Classification) : Classification :=
  match generated.lookup b.1 with
  | none => { c with missing := b.1 :: c.missing }
  | some v =>
    match Conflict.first? b.1 b.2 v with
    | none => { c with covered := b.1 :: c.covered }
    | some conflict => { c with conflicts := conflict :: c.conflicts }

/-- Classifies all names written by hand. A name is covered if every value by hand is the generated one. -/
def classify (legacy : List (String × List String)) (generated : List (String × String)) : Classification :=
  legacy.foldr (add generated) ⟨[], [], []⟩

/-- The class of a name. -/
def coverage? (c : Classification) (name : String) : Option Coverage :=
  if c.covered.contains name then some .covered
  else if c.conflicts.any (·.name == name) then some .conflict
  else if c.missing.contains name then some .missing
  else none

/-- The classification of the names of one text against the declarations of another. -/
def ofTexts (legacy generated : String) : Classification :=
  classify (Declaration.allValues legacy) (Declaration.lastValues generated)

end Classification

end DesignTokens
