import DesignTokens.Number.Binary64

/-!
The text of a binary number: the fewest decimal digits that are rounded to the number, of these the nearest ones,
written positionally when the point lies near them.
-/

namespace DesignTokens.Number

/-- Digits with the exponent of the first one: `digits` = [d₀, d₁, …] stands for d₀.d₁… · 10^`exponent`. -/
structure Decimal where
  digits : List Char
  exponent : Int
  deriving DecidableEq

/-- How many decimal digits a number has. -/
def decimalLength (n : Nat) : Nat := (Nat.toDigits 10 n).length

/-- The exponent of the first decimal digit of the positive `n / d`. -/
def decimalExponent (n d : Nat) : Int :=
  if d ≤ n then (decimalLength (n / d) : Int) - 1
  else
    let j := decimalLength (d / n)
    if d = n * Nat.pow 10 (j - 1) then 1 - (j : Int) else -(j : Int)

/-- Whether n₁/d₁ ≤ n₂/d₂. -/
def fractionLe (a b : Nat × Nat) : Bool := a.1 * b.2 ≤ b.1 * a.2

/-- The distance of two fractions. -/
def fractionDist (a b : Nat × Nat) : Nat × Nat :=
  (max (a.1 * b.2) (b.1 * a.2) - min (a.1 * b.2) (b.1 * a.2), a.2 * b.2)

namespace Binary64

/-- The magnitude as a fraction, in units of a quarter of the last place. -/
def quarters (x : Binary64) (count : Nat) : Nat × Nat := scale 2 (x.exponent - 2) count 1

/-- Whether a fraction is rounded to the magnitude of `x`: it lies within half a unit of the last place, the half
included for an even significand. Below a power of two the units are half as large. -/
def roundsTo (x : Binary64) (f : Nat × Nat) : Bool :=
  let narrow := 2 * x.significand = significandLimit && -1074 < x.exponent
  let low := x.quarters (4 * x.significand - if narrow then 1 else 2)
  let high := x.quarters (4 * x.significand + 2)
  if x.significand % 2 = 0 then fractionLe low f && fractionLe f high
  else !fractionLe f low && !fractionLe high f

/-- Of the neighbours of `x` on the grid of 10^`g`, the nearest one that is rounded to `x`, as a multiple of the
grid; of two equally near, the even one. -/
def onGrid? (x : Binary64) (g : Int) : Option Nat :=
  let v := x.quarters (4 * x.significand)
  let (n, d) := scale 10 (-g) v.1 v.2
  let below := n / d
  let point (k : Nat) := scale 10 g k 1
  match x.roundsTo (point below), x.roundsTo (point (below + 1)) with
  | true, true =>
    let down := fractionDist v (point below)
    let up := fractionDist v (point (below + 1))
    if fractionLe down up && (!fractionLe up down || below % 2 == 0) then some below else some (below + 1)
  | true, false => some below
  | false, true => some (below + 1)
  | false, false => none

/-- Tries the grids of `fuel` more digits, beginning with the one of 10^`g`. -/
def search (x : Binary64) : Nat → Int → Nat × Int
  | 0, g => (((x.onGrid? g).getD 0), g)
  | fuel + 1, g =>
    match x.onGrid? g with
    | some k => (k, g)
    | none => search x fuel (g - 1)

/-- The shortest decimal that reads back as the magnitude of `x`; seventeen digits are always enough. -/
def shortest (x : Binary64) : Decimal :=
  if x.significand = 0 then ⟨['0'], 0⟩
  else
    let v := x.quarters (4 * x.significand)
    let (k, g) := x.search 17 (decimalExponent v.1 v.2)
    let digits := Nat.toDigits 10 k
    ⟨(digits.reverse.dropWhile (· == '0')).reverse, g + digits.length - 1⟩

end Binary64

/-- A decimal as text: positional with at least one digit on each side of the point when the exponent is from -5
to 15, and otherwise with one digit before the point and a signed exponent. -/
def Decimal.text (d : Decimal) : List Char :=
  let n := d.digits.length
  if 0 ≤ d.exponent && d.exponent ≤ 15 then
    let whole := d.exponent.toNat + 1
    if n ≤ whole then d.digits ++ List.replicate (whole - n) '0' ++ ['.', '0']
    else d.digits.take whole ++ '.' :: d.digits.drop whole
  else if -5 ≤ d.exponent && d.exponent < 0 then
    '0' :: '.' :: List.replicate ((-d.exponent).toNat - 1) '0' ++ d.digits
  else
    let mantissa := if n ≤ 1 then d.digits else d.digits.take 1 ++ '.' :: d.digits.drop 1
    let sign := if 0 ≤ d.exponent then '+' else '-'
    mantissa ++ 'e' :: sign :: Nat.toDigits 10 d.exponent.natAbs

/-- A binary number as text. -/
def Binary64.text (x : Binary64) : List Char :=
  if x.negative then '-' :: x.shortest.text else x.shortest.text

end DesignTokens.Number
