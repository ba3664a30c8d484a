import Homoicon.Decimal.Binary64

/-!
# Shortest digits

The fewest decimal digits that still read back as a given binary64 number.  All arithmetic is on
exact natural numbers.
-/

namespace Homoicon.Decimal

/-- The digits `digits` with the decimal point before the last `scale` of them, or `-scale` zeros
after them when `scale` is negative: the number `digits * 10 ^ (-scale)`. -/
structure Digits where
  digits : Nat
  scale : Int
  deriving DecidableEq

/-- The reals that read back as a number: from `low` to `high` over the common denominator `den`,
around the number `mid`.  The ends belong to it exactly when the mantissa is even. -/
structure Basin where
  low : Nat
  mid : Nat
  high : Nat
  den : Nat
  closed : Bool
  deriving DecidableEq

/-- The basin of a magnitude.  Below a power of two the gap to the next smaller number is half as
wide. -/
def Magnitude.basin (a : Magnitude) : Basin :=
  let below := if a.mantissa = normalMantissa then 1 else 2
  let unit := if 0 ≤ a.exponent then Nat.pow 2 a.exponent.toNat else 1
  let den := if 0 ≤ a.exponent then 4 else 4 * Nat.pow 2 (-a.exponent).toNat
  { low := (4 * a.mantissa - below) * unit
    mid := 4 * a.mantissa * unit
    high := (4 * a.mantissa + 2) * unit
    den := den
    closed := a.mantissa % 2 == 0 }

/-- Whether `num / den` of the basin's own denominator times `scale` lies in the basin. -/
def Basin.holds (b : Basin) (num scale : Nat) : Bool :=
  if b.closed then decide (b.low * scale ≤ num ∧ num ≤ b.high * scale)
  else decide (b.low * scale < num ∧ num < b.high * scale)

/-- The point of the grid of step `10 ^ (-scale)` that reads back as the basin's number and is
nearest to it, a tie going up, if the grid has one. -/
def Basin.onGrid (b : Basin) (scale : Int) : Option Nat :=
  -- a grid point `d` stands for `d * step / fine`
  let fine := Nat.pow 10 scale.toNat
  let step := Nat.pow 10 (-scale).toNat
  let lower := b.mid * fine / (b.den * step)
  let upper := lower + 1
  let lowerIn := b.holds (lower * b.den * step) fine
  let upperIn := b.holds (upper * b.den * step) fine
  let above := upper * b.den * step - b.mid * fine
  let below := b.mid * fine - lower * b.den * step
  let nearUpper := decide (above ≤ below)
  if lowerIn && upperIn then some (if nearUpper then upper else lower)
  else if lowerIn then some lower
  else if upperIn then some upper
  else none

/-- The first grid, from `scale` on and at most `fuel` grids finer, with a point in the basin. -/
def Basin.firstGrid (b : Basin) : Nat → Int → Option Digits
  | 0, _ => none
  | fuel + 1, scale =>
    match b.onGrid scale with
    | some d => some ⟨d, scale⟩
    | none => b.firstGrid fuel (scale + 1)

/-- The number of decimal digits before the point of `num / den`, or minus the number of zeros
directly after it. -/
def pointPosition (num den : Nat) : Int :=
  if den ≤ num then ((Nat.toDigits 10 (num / den)).length : Int)
  else 1 - ((Nat.toDigits 10 ((den - 1) / num)).length : Int)

/-- The fewest digits that read back as the magnitude `a`, which is not zero.  The search starts at
the power of ten just above the number; seventeen digits always read back. -/
def Magnitude.shortest (a : Magnitude) : Digits :=
  let b := a.basin
  (b.firstGrid 18 (-pointPosition b.mid b.den)).getD ⟨0, 0⟩

end Homoicon.Decimal
