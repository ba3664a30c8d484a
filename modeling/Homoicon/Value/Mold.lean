import Homoicon.Decimal.Written
import Homoicon.Text.Quoted
import Homoicon.Value.Basic

/-!
# Molding

The written form of a value: for code it is the source that reads back as the value, for values
that only exist while a program runs it is a description in `#[...]`.
-/

namespace Homoicon

def integerText (n : Int64) : String :=
  match n.toInt with
  | .ofNat m => Nat.repr m
  | .negSucc m => "-" ++ Nat.repr (m + 1)

mutual

def Value.mold : Value → String
  | .null => "null"
  | .void => "~"
  | .blank => "_"
  | .logic b => if b then "true" else "false"
  | .integer n => integerText n
  | .decimal x => Decimal.written x
  | .text s => Text.quoted s
  | .tag s => "<" ++ s ++ ">"
  | .refinement name => "/" ++ name
  | .block items => "[" ++ String.intercalate " " (Value.molds items) ++ "]"
  | .group items => "(" ++ String.intercalate " " (Value.molds items) ++ ")"
  | .path items => String.intercalate "/" (Value.molds items)
  | .setPath items => String.intercalate "/" (Value.molds items) ++ ":"
  | .getPath items => ":" ++ String.intercalate "/" (Value.molds items)
  | .datatype k => k.name
  | .action _ a => "#[action! " ++ a.labelOr "anonymous" ++ "]"
  | .varargs _ _ => "#[varargs!]"
  | .frame f => "#[frame! " ++ f.label ++ " #" ++ Nat.repr f.id ++ "]"
  | .error _ f => "#[error! " ++ f.message ++ "]"
  | .word name => name
  | .setWord name => name ++ ":"
  | .getWord name => ":" ++ name
  | .sym payload => "@" ++ payload.mold
  | .quoted payload => "'" ++ payload.mold
  | .comma => ","

def Value.molds : List Value → List String
  | [] => []
  | v :: vs => v.mold :: Value.molds vs

end

/-- A value as it is printed: a text stands for its characters, any other value is molded. -/
def Value.form : Value → String
  | .text s => s
  | v => v.mold

theorem Value.molds_eq_map (vs : List Value) : Value.molds vs = vs.map Value.mold := by
  induction vs with
  | nil => rfl
  | cons v vs ih => simp [Value.molds, ih]

end Homoicon
