import Homoicon.Evaluate.Call

/-!
# Comparison

Equality is defined for all values.  Numbers are ordered among themselves across integers and
decimals, texts among themselves by code points.
-/

namespace Homoicon

def compareDecimals (a b : Float) : Option Ordering :=
  if a < b then some .lt else if b < a then some .gt else if a == b then some .eq else none

def compareTexts (a b : String) : Ordering :=
  if a < b then .lt else if a = b then .eq else .gt

namespace CallState

/-- An order that was found, or the fault of slots that have none. -/
def orderly (c : CallState) : Option Ordering → Except Fault Ordering
  | some o => .ok o
  | none =>
    .error (.of (.native ("cannot compare " ++ (c.slot 0).mold ++ " with " ++ (c.slot 1).mold)))

def ordering (c : CallState) : Except Fault Ordering :=
  match c.slot 0, c.slot 1 with
  | .integer a, .integer b => .ok (compare a.toInt b.toInt)
  | .integer a, .decimal b => c.orderly (compareDecimals (Decimal.ofInteger a) b)
  | .decimal a, .integer b => c.orderly (compareDecimals a (Decimal.ofInteger b))
  | .decimal a, .decimal b => c.orderly (compareDecimals a b)
  | .text a, .text b => .ok (compareTexts a b)
  | .text _, _ => .error (c.mismatch 1)
  | _, .text _ => .error (c.mismatch 0)
  | _, _ => c.orderly none

end CallState

def Comparison.run (op : Comparison) (c : CallState) : Except Fault Value :=
  match op with
  | .equal negated => .ok (.logic ((c.slot 0).same (c.slot 1) != negated))
  | .lesser orEqual => do
    let o ← c.ordering
    return .logic (o == .lt || (orEqual && o == .eq))
  | .greater orEqual => do
    let o ← c.ordering
    return .logic (o == .gt || (orEqual && o == .eq))
  | .not => .ok (.logic !(c.slot 0).isTruthy)

end Homoicon
