import Homoicon.Decimal.Shortest

/-!
# The written form of a decimal

A decimal is written without an exponent.  A whole number is written out exactly and followed by
`.0`; any other number has the fewest digits that read back.
-/

namespace Homoicon.Decimal

def zeros (n : Nat) : String := String.ofList (List.replicate n '0')

def Digits.positional (d : Digits) : String :=
  let text := Nat.toDigits 10 d.digits
  if d.scale ≤ 0 then String.ofList text ++ zeros (-d.scale).toNat
  else
    let places := d.scale.toNat
    if text.length ≤ places then
      "0." ++ zeros (places - text.length) ++ String.ofList text
    else
      String.ofList (text.take (text.length - places)) ++ "."
        ++ String.ofList (text.drop (text.length - places))

def Magnitude.written (a : Magnitude) : String :=
  if a.isWhole then Nat.repr (a.fraction.1 / a.fraction.2) ++ ".0" else a.shortest.positional

def written (x : Float) : String :=
  if x.isNaN then "NaN"
  else
    let size := if x.isInf then "inf" else (magnitude x).written
    if isNegative x then "-" ++ size else size

end Homoicon.Decimal
