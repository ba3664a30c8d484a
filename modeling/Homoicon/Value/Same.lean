import Homoicon.Decimal.Binary64
import Homoicon.Value.Basic

/-!
# Equality of values

Values are equal when they are of one kind and hold equal contents.  An integer and a decimal are
equal as decimals.  Actions, varargs, frames and errors are equal only to themselves.
-/

namespace Homoicon

mutual

def Value.same : Value → Value → Bool
  | .null, .null | .void, .void | .blank, .blank | .comma, .comma => true
  | .logic a, .logic b => a == b
  | .integer a, .integer b => a == b
  | .decimal a, .decimal b => a == b
  | .integer a, .decimal b => Decimal.ofInteger a == b
  | .decimal a, .integer b => Decimal.ofInteger b == a
  | .text a, .text b | .tag a, .tag b | .refinement a, .refinement b | .word a, .word b
  | .setWord a, .setWord b | .getWord a, .getWord b => a == b
  | .sym a, .sym b | .quoted a, .quoted b => a.same b
  | .block a, .block b | .group a, .group b | .path a, .path b | .setPath a, .setPath b
  | .getPath a, .getPath b => Value.sameAll a b
  | .datatype a, .datatype b => a == b
  | .action a _, .action b _ => a == b
  | .varargs a _, .varargs b _ => a == b
  | .frame a, .frame b => a.id == b.id
  | .error a _, .error b _ => a == b
  | _, _ => false

def Value.sameAll : List Value → List Value → Bool
  | [], [] => true
  | a :: as, b :: bs => a.same b && Value.sameAll as bs
  | _, _ => false

end

end Homoicon
