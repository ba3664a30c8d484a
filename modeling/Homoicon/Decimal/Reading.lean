import Homoicon.Decimal.Binary64

/-!
# Reading a decimal

A decimal is an optional sign, digits with an optional point among them and an optional exponent,
or one of the names of infinity and of what is no number.  The value is the binary64 number nearest
to the decimal fraction.
-/

namespace Homoicon.Decimal

def digitsValue (cs : List Char) : Nat :=
  cs.foldl (fun n c => 10 * n + (c.toNat - '0'.toNat)) 0

/-- An unsigned decimal as read: `digits * 10 ^ exponent`. -/
structure Scientific where
  digits : Nat
  exponent : Int
  deriving DecidableEq

/-- Takes an optional sign from the front; `true` stands for minus. -/
def splitSign : List Char → Bool × List Char
  | '-' :: cs => (true, cs)
  | '+' :: cs => (false, cs)
  | cs => (false, cs)

/-- The exponent part: nothing, or `e` with an optional sign and at least one digit. -/
def readExponent? : List Char → Option Int
  | [] => some 0
  | c :: cs =>
    if c = 'e' || c = 'E' then
      let (negative, digits) := splitSign cs
      if digits.isEmpty || !digits.all Char.isDigit then none
      else some (if negative then -(digitsValue digits : Int) else digitsValue digits)
    else none

/-- An unsigned decimal: at least one digit, a point anywhere among the digits, an exponent. -/
def readScientific? (cs : List Char) : Option Scientific :=
  let whole := cs.takeWhile Char.isDigit
  let rest := cs.dropWhile Char.isDigit
  let (fraction, tail) :=
    match rest with
    | '.' :: more => (more.takeWhile Char.isDigit, more.dropWhile Char.isDigit)
    | _ => ([], rest)
  if whole.isEmpty && fraction.isEmpty then none
  else (readExponent? tail).map fun e => ⟨digitsValue (whole ++ fraction), e - fraction.length⟩

/-- The bits of the number nearest to a decimal.  Exponents far outside the range of the format
are decided by the size alone. -/
def Scientific.nearestBits (s : Scientific) : Nat :=
  let top := ((Nat.toDigits 10 s.digits).length : Int) + s.exponent
  if s.digits = 0 || top < -400 then 0
  else if 400 < top then infinityBits
  else if 0 ≤ s.exponent then Decimal.nearestBits (s.digits * Nat.pow 10 s.exponent.toNat) 1
  else Decimal.nearestBits s.digits (Nat.pow 10 (-s.exponent).toNat)

/-- The bits of the size that an unsigned text stands for: a number, or a name in any case. -/
def readSize? (cs : List Char) : Option Nat :=
  match readScientific? cs with
  | some s => some s.nearestBits
  | none =>
    let name := String.ofList (cs.map Char.toLower)
    if name = "inf" || name = "infinity" then some infinityBits
    else if name = "nan" then some (infinityBits + Nat.pow 2 51)
    else none

def read? (s : String) : Option Float :=
  let (negative, size) := splitSign s.toList
  (readSize? size).map (ofSignBits negative)

end Homoicon.Decimal
