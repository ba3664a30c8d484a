/-!
# Binary64 numbers as exact fractions

A finite binary64 number is a natural mantissa times a power of two.  This module takes a number
apart into those two, and rounds an exact fraction to the nearest binary64 number, a half going to
the even mantissa; integers turn into decimals that way.
-/

namespace Homoicon.Decimal

/-- The size of a finite binary64 number: `mantissa * 2 ^ exponent`. -/
structure Magnitude where
  mantissa : Nat
  exponent : Int
  deriving DecidableEq

def leastExponent : Int := -1074

/-- The smallest mantissa of a binary64 number that is not subnormal. -/
def normalMantissa : Nat := Nat.pow 2 52

/-- Whether the sign bit of `x` is set, for zeros and for what is no number too. -/
def isNegative (x : Float) : Bool := x.toBits.toNat / Nat.pow 2 63 == 1

def magnitude (x : Float) : Magnitude :=
  let bits := x.toBits.toNat % Nat.pow 2 63
  let field : Nat := bits / Nat.pow 2 52
  let fraction : Nat := bits % Nat.pow 2 52
  if field = 0 then ⟨fraction, leastExponent⟩ else ⟨fraction + normalMantissa, (field : Int) - 1075⟩

def Magnitude.fraction (a : Magnitude) : Nat × Nat :=
  if 0 ≤ a.exponent then (a.mantissa * Nat.pow 2 a.exponent.toNat, 1)
  else (a.mantissa, Nat.pow 2 (-a.exponent).toNat)

def Magnitude.isWhole (a : Magnitude) : Bool :=
  let (num, den) := a.fraction
  num % den == 0

/-- The bits of positive infinity: every finite number has smaller ones. -/
def infinityBits : Nat := 2047 * Nat.pow 2 52

/-- The quotient rounded to the nearest natural number, a half to the even one. -/
def roundHalfEven (num den : Nat) : Nat :=
  let floor := num / den
  let rest := 2 * (num % den)
  if den < rest || (rest == den && floor % 2 == 1) then floor + 1 else floor

/-- The bits of the binary64 number nearest to `num / den`, or of infinity. -/
def nearestBits (num den : Nat) : Nat :=
  if num = 0 then 0
  else
    let spread : Int := (num.log2 : Int) - den.log2
    let trial := max (spread - 53) leastExponent
    let scaled (q : Int) : Nat × Nat :=
      if 0 ≤ q then (num, den * Nat.pow 2 q.toNat) else (num * Nat.pow 2 (-q).toNat, den)
    let wide := (scaled trial).1 / (scaled trial).2
    let exponent := if Nat.pow 2 53 ≤ wide then trial + 1 else trial
    let mantissa := roundHalfEven (scaled exponent).1 (scaled exponent).2
    min ((exponent - leastExponent).toNat * Nat.pow 2 52 + mantissa) infinityBits

def ofSignBits (negative : Bool) (bits : Nat) : Float :=
  Float.ofBits (UInt64.ofNat (if negative then bits + Nat.pow 2 63 else bits))

/-- The binary64 number nearest to an integer. -/
def ofInteger (n : Int64) : Float := ofSignBits (n.toInt < 0) (nearestBits n.toInt.natAbs 1)

end Homoicon.Decimal
