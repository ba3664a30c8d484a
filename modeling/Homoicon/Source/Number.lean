import Homoicon.Decimal.Reading
import Homoicon.Value.Basic

/-!
# Numbers in source text

A run that begins like a number is an integer if it is one and fits 64 bits, else a decimal if it
can be read as one; any other run is no number.
-/

namespace Homoicon.Source

def integer64? (n : Int) : Option Int64 :=
  if Int64.minValue.toInt ≤ n ∧ n ≤ Int64.maxValue.toInt then some (Int64.ofInt n) else none

def readInteger? (cs : List Char) : Option Int64 :=
  let (negative, digits) := Decimal.splitSign cs
  if digits.isEmpty || !digits.all Char.isDigit then none
  else
    let size : Int := Decimal.digitsValue digits
    integer64? (if negative then -size else size)

/-- Whether a run, its sign left out, begins like a number: with a digit, or with a point that
something follows. -/
def beginsNumber (cs : List Char) : Bool :=
  match (Decimal.splitSign cs).2 with
  | c :: rest => c.isDigit || (c = '.' && !rest.isEmpty)
  | [] => false

def readNumber? (cs : List Char) : Option Value :=
  if beginsNumber cs then
    match readInteger? cs with
    | some n => some (.integer n)
    | none => (Decimal.read? (String.ofList cs)).map .decimal
  else none

end Homoicon.Source
