/-!
Binary floating-point numbers of 64 bits: the nearest one to a fraction, products and quotients that are rounded so, and
the number that a decimal is read as, which need not be the nearest one.
-/

namespace DesignTokens.Number

/-- The finite number ±`significand` · 2^`exponent` with a significand of at most 53 bits. -/
structure Binary64 where
  negative : Bool
  significand : Nat
  exponent : Int
  deriving DecidableEq

namespace Binary64

/-- The zero of either sign. -/
def zero (negative : Bool) : Binary64 := ⟨negative, 0, -1074⟩

end Binary64

/-- The first number that has too many binary digits for a significand. -/
def significandLimit : Nat := Nat.pow 2 53

/-- The fraction n/d · `base`^`e`. -/
def scale (base : Nat) (e : Int) (n d : Nat) : Nat × Nat :=
  if 0 ≤ e then (n * Nat.pow base e.toNat, d) else (n, d * Nat.pow base (-e).toNat)

/-- The integer nearest to `n / d`; of two equally near, the even one. -/
def roundEven (n d : Nat) : Nat :=
  let q := n / d
  let r := n % d
  if 2 * r > d || (2 * r == d && q % 2 == 1) then q + 1 else q

/-- The exponent for which `n / d` has 53 bits before the point, but at least that of the subnormal numbers. -/
def binaryExponent (n d : Nat) : Int :=
  let least : Int := (n.log2 : Int) - d.log2 - 53
  let (n', d') := scale 2 (-least) n d
  max (if n' < d' * significandLimit then least else least + 1) (-1074)

/-- The number nearest to the positive `n / d`, of two the even one; none beyond the greatest. -/
def Binary64.ofFraction? (negative : Bool) (n d : Nat) : Option Binary64 :=
  let e := binaryExponent n d
  let (n', d') := scale 2 (-e) n d
  let m := roundEven n' d'
  let (m, e) := if m = significandLimit then (significandLimit / 2, e + 1) else (m, e)
  if 971 < e then none else some ⟨negative, m, e⟩

namespace Binary64

/-- The number nearest to ±`n / d` · 2^`e`; none beyond the greatest. -/
def round? (negative : Bool) (e : Int) (n d : Nat) : Option Binary64 :=
  if n = 0 then some (zero negative)
  else
    let (n', d') := scale 2 e n d
    ofFraction? negative n' d'

/-- The product with a positive number, rounded; none beyond the greatest. -/
def mul? (x y : Binary64) : Option Binary64 :=
  round? x.negative (x.exponent + y.exponent) (x.significand * y.significand) 1

/-- The quotient by a positive number, rounded; none beyond the greatest. -/
def div? (x y : Binary64) : Option Binary64 :=
  round? x.negative (x.exponent - y.exponent) x.significand y.significand

/-- The number nearest to a power of ten; none beyond 10^308. -/
def tenPower? (e : Nat) : Option Binary64 := round? false 0 (Nat.pow 10 e) 1

/-- The quotient by 10^308, `steps` times, and by 10^`rest`, rounded each time. -/
def divTenPower? (x : Binary64) : (steps rest : Nat) → Option Binary64
  | 0, rest => do x.div? (← tenPower? rest)
  | steps + 1, rest => do divTenPower? (← x.div? (← tenPower? 308)) steps rest

/-- The number that ±`n` · 10^`e` is read as, where `n` has at most 64 bits: `n` and the power of ten are rounded, and
their product or quotient is rounded again; none beyond the greatest. A power that is no number is divided by in steps,
of which three leave nothing. -/
def ofDecimal? (negative : Bool) (n : Nat) (e : Int) : Option Binary64 :=
  if n = 0 then some (zero negative)
  else if 308 < e then none
  else if e < -924 then some (zero negative)
  else do
    let x ← round? negative 0 n 1
    if 0 ≤ e then x.mul? (← tenPower? e.toNat)
    else
      let steps := ((-e).toNat - 1) / 308
      x.divTenPower? steps ((-e).toNat - 308 * steps)

end Binary64

end DesignTokens.Number
