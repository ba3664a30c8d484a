import Homoicon.Evaluate.Call
import Homoicon.Source.Number

/-!
# Arithmetic

Integer arithmetic is exact or refused; as soon as a decimal is involved, it is binary64 arithmetic.
The quotient of two integers is an integer when it is exact.
-/

namespace Homoicon

namespace Arithmetic

def symbol : Arithmetic → String
  | .add => "+"
  | .subtract => "-"
  | .multiply => "*"
  | .divide => "/"
  | .negate => "negate"

/-- The exact result on integers of the three ring operations. -/
def exact : Arithmetic → Int → Int → Int
  | .subtract, a, b => a - b
  | .multiply, a, b => a * b
  | _, a, b => a + b

def approximate : Arithmetic → Float → Float → Float
  | .subtract, a, b => a - b
  | .multiply, a, b => a * b
  | _, a, b => a + b

end Arithmetic

def Value.asDecimal? : Value → Option Float
  | .integer n => some (Decimal.ofInteger n)
  | .decimal x => some x
  | _ => none

def overflow (text : String) : Fault := .of (.native ("integer overflow: " ++ text))

namespace CallState

def decimals (c : CallState) : Except Fault (Float × Float) :=
  match (c.slot 0).asDecimal?, (c.slot 1).asDecimal? with
  | some x, some y => .ok (x, y)
  | none, _ => .error (c.mismatch 0)
  | some _, none => .error (c.mismatch 1)

def ringResult (c : CallState) (op : Arithmetic) : Except Fault Value :=
  match c.slot 0, c.slot 1 with
  | .integer a, .integer b =>
    match Source.integer64? (op.exact a.toInt b.toInt) with
    | some n => .ok (.integer n)
    | none => .error (overflow (integerText a ++ " " ++ op.symbol ++ " " ++ integerText b))
  | _, _ => do
    let (x, y) ← c.decimals
    return .decimal (op.approximate x y)

/-- The quotient of two integers, if it is an integer within 64 bits. -/
def exactQuotient? (a b : Int64) : Option Int64 :=
  if b.toInt ≠ 0 ∧ a.toInt.tmod b.toInt = 0 then Source.integer64? (a.toInt.tdiv b.toInt) else none

def quotient (c : CallState) : Except Fault Value := do
  let (x, y) ← c.decimals
  if y == 0.0 then .error (.of (.native "attempt to divide by zero"))
  else
    match c.slot 0, c.slot 1 with
    | .integer a, .integer b =>
      match exactQuotient? a b with
      | some q => return .integer q
      | none => return .decimal (x / y)
    | _, _ => return .decimal (x / y)

def negated (c : CallState) : Except Fault Value :=
  match c.slot 0 with
  | .integer n =>
    match Source.integer64? (-n.toInt) with
    | some m => .ok (.integer m)
    | none => .error (overflow ("negate " ++ integerText n))
  | .decimal x => .ok (.decimal (-x))
  | _ => .error (c.mismatch 0)

end CallState

def Arithmetic.run (op : Arithmetic) (c : CallState) : Except Fault Value :=
  match op with
  | .add | .subtract | .multiply => c.ringResult op
  | .divide => c.quotient
  | .negate => c.negated

end Homoicon
